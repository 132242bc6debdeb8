import CodeSimilarity.Environment
import CodeSimilarity.Proofs.Pieces
import Mathlib.Data.List.Induction
import Mathlib.Data.Nat.Digits.Defs

set_option autoImplicit false
set_option relaxedAutoImplicit false

/-!
# The integer at the front of a text

An integer is read as blanks, at most one sign, and a run of digits. The run is taken as a whole,
however long it is, so its number is not bounded. Only afterwards is it brought into the range of
64-bit numbers.

## Main definitions

* `Text.decimal` — the number that decimal digits stand for.
* `Text.IsSign`, `Text.BeginsWithInt` — the form of an integer at the front of a text.

## Main results

* `Text.digitRun_ten`, `Text.digitsValue_eq_ofDigits` — what is taken as digits, and their number.
* `readInt?_eq_some_iff` — what is read is the integer at the front.
* `Environment.count_of_beginsWithInt` — a count does not show the 64-bit range in between.
-/

namespace CodeSimilarity

namespace Text

/-! ## Digits -/

/-- The number that decimal digits stand for, the last of them counting ones. -/
def decimal (digits : Text) : Nat :=
  Nat.ofDigits 10 (digits.map fun c => c.toNat - 0x30).reverse

/-- The digits are the bytes from `0` to `9`. -/
theorem isDigit_iff {c : UInt8} : isDigit c ↔ 0x30 ≤ c.toNat ∧ c.toNat ≤ 0x39 := by
  simp [isDigit, UInt8.le_iff_toNat_le]

/-- A letter counts ten at least. -/
theorem ten_le_letter {c : UInt8} (hc : isWordStart c) (hne : c ≠ 0x5F) :
    10 ≤ (toLower c).toNat - 0x57 := by
  have hletter : (0x61 ≤ c.toNat ∧ c.toNat ≤ 0x7A) ∨ (0x41 ≤ c.toNat ∧ c.toNat ≤ 0x5A) := by
    simpa [isWordStart, UInt8.le_iff_toNat_le, hne] using hc
  have hlower : (toLower c).toNat =
      if 0x41 ≤ c.toNat ∧ c.toNat ≤ 0x5A then (c.toNat + 0x20) % 256 else c.toNat := by
    simp only [toLower, Bool.and_eq_true, decide_eq_true_eq, UInt8.le_iff_toNat_le]
    exact apply_ite UInt8.toNat _ _ _
  rw [hlower]
  split_ifs <;> omega

/-- To the base of ten, the bytes with a value are the digits. -/
theorem digit?_ten (c : UInt8) :
    digit? 10 c = if isDigit c then some (c.toNat - 0x30) else none := by
  unfold digit? digitValue?
  by_cases hdigit : isDigit c
  · have hc := isDigit_iff.1 hdigit
    rw [if_pos hdigit, if_pos hdigit, Option.filter_some, if_pos (by simp; omega)]
  · rw [if_neg hdigit, if_neg hdigit]
    split
    · next hletter =>
      simp only [Bool.and_eq_true, bne_iff_ne] at hletter
      have := ten_le_letter hletter.1 hletter.2
      rw [Option.filter_some, if_neg (by simp; omega)]
    · rfl

/-- The digits at the front of a text, and what follows them. -/
theorem digitRun_ten (s : Text) :
    digitRun 10 s =
      ((s.takeWhile isDigit).map fun c => c.toNat - 0x30, s.dropWhile isDigit) := by
  induction s with
  | nil => rfl
  | cons c s ih =>
    rw [digitRun, digit?_ten]
    by_cases hc : isDigit c
    · simp [hc, ih]
    · simp [hc]

/-- The value of digits, the highest first, is that of their reverse with the lowest first. -/
theorem digitsValue_eq_ofDigits (base : Nat) (ds : List Nat) :
    digitsValue base ds = Nat.ofDigits base ds.reverse := by
  induction ds using List.reverseRecOn with
  | nil => rfl
  | append_singleton ds d ih =>
    rw [digitsValue, List.foldl_append, List.reverse_append, List.reverse_singleton,
      List.singleton_append, Nat.ofDigits_cons, ← ih, Nat.add_comm]
    rfl

/-! ## Integers -/

/-- The signs that can stand before digits, and the factor that each of them stands for. -/
inductive IsSign : Text → Int → Prop
  | none : IsSign [] 1
  | plus : IsSign [Byte.plus] 1
  | minus : IsSign [Byte.minus] (-1)

/-- A text begins with an integer: blanks, at most one sign, and a run of digits that the rest of
the text does not go on with. -/
inductive BeginsWithInt : Text → Int → Prop
  | intro {blanks sign digits rest : Text} {factor : Int} (hblanks : ∀ c ∈ blanks, isBlank c)
    (hsign : IsSign sign factor) (hne : digits ≠ []) (hdigits : ∀ c ∈ digits, isDigit c)
    (hrest : ∀ c ∈ rest.head?, ¬ isDigit c) :
    BeginsWithInt (blanks ++ (sign ++ (digits ++ rest))) (factor * decimal digits)

/-- The factor of a sign that was taken off. -/
def factorOf (negative : Bool) : Int :=
  if negative then -1 else 1

/-- What is taken off as a sign is one. -/
theorem exists_isSign (s : Text) :
    ∃ sign, IsSign sign (factorOf (signed s).1) ∧ s = sign ++ (signed s).2 := by
  cases s with
  | nil => exact ⟨[], .none, rfl⟩
  | cons c s =>
    rw [signed]
    split
    · next hc => exact ⟨[c], hc ▸ .minus, rfl⟩
    · split
      · next hc => exact ⟨[c], hc ▸ .plus, rfl⟩
      · exact ⟨[], .none, rfl⟩

/-- A sign is taken off, if no other follows it. -/
theorem signed_append {sign : Text} {factor : Int} (hsign : IsSign sign factor) {c : UInt8}
    (hminus : c ≠ Byte.minus) (hplus : c ≠ Byte.plus) (s : Text) :
    (signed (sign ++ c :: s)).2 = c :: s ∧ factorOf (signed (sign ++ c :: s)).1 = factor := by
  cases hsign with
  | none => simp [signed, hminus, hplus, factorOf]
  | plus => exact ⟨rfl, rfl⟩
  | minus => exact ⟨rfl, rfl⟩

/-- A digit is neither a blank nor a sign. -/
theorem not_isBlank_of_isDigit :
    ∀ c, isDigit c → ¬ isBlank c ∧ c ≠ Byte.minus ∧ c ≠ Byte.plus :=
  Byte.forall_of_lt (by decide +kernel)

/-- A sign is no blank. -/
theorem dropWhile_isBlank_sign {sign : Text} {factor : Int} (hsign : IsSign sign factor) {c : UInt8}
    (hc : ¬ isBlank c) (s : Text) : (sign ++ c :: s).dropWhile isBlank = sign ++ c :: s := by
  cases hsign with
  | none => simp [hc]
  | plus => rfl
  | minus => rfl

end Text

open Text

/-- Reading an integer, with its digits told apart from the rest. -/
theorem readInt?_eq (s : Text) :
    readInt? s =
      if (signed (s.dropWhile isBlank)).2.takeWhile isDigit = [] then none
      else some (factorOf (signed (s.dropWhile isBlank)).1 *
        decimal ((signed (s.dropWhile isBlank)).2.takeWhile isDigit)) := by
  unfold readInt?
  generalize signed (s.dropWhile isBlank) = parts
  obtain ⟨negative, rest⟩ := parts
  simp only [digitRun_ten]
  cases hdigits : rest.takeWhile isDigit with
  | nil => rfl
  | cons c digits =>
    rw [if_neg (List.cons_ne_nil _ _), decimal, ← digitsValue_eq_ofDigits]
    cases negative <;> simp [factorOf]

/-- **What is read is the integer at the front of the text.** -/
theorem readInt?_eq_some_iff {s : Text} {z : Int} : readInt? s = some z ↔ BeginsWithInt s z := by
  constructor
  · intro h
    rw [readInt?_eq] at h
    split at h
    · simp at h
    · next hne =>
      obtain ⟨sign, hsign, hsplit⟩ := exists_isSign (s.dropWhile isBlank)
      generalize signed (s.dropWhile isBlank) = parts at h hne hsign hsplit
      have hs : s = s.takeWhile isBlank ++
          (sign ++ (parts.2.takeWhile isDigit ++ parts.2.dropWhile isDigit)) := by
        rw [List.takeWhile_append_dropWhile, ← hsplit, List.takeWhile_append_dropWhile]
      rw [hs, ← Option.some.inj h]
      refine .intro (fun c hc => List.mem_takeWhile_imp hc) hsign hne
        (fun c hc => List.mem_takeWhile_imp hc) fun c hc => ?_
      have hnot := List.head?_dropWhile_not isDigit parts.2
      rw [Option.mem_def.1 hc] at hnot
      simpa using hnot
  · rintro @⟨blanks, sign, digits, rest, factor, hblanks, hsign, hne, hdigits, hrest⟩
    obtain ⟨c, digits, rfl⟩ := List.exists_cons_of_ne_nil hne
    obtain ⟨hblank, hminus, hplus⟩ := not_isBlank_of_isDigit c (hdigits c List.mem_cons_self)
    obtain ⟨hsnd, hfst⟩ := signed_append hsign hminus hplus (digits ++ rest)
    rw [readInt?_eq, List.dropWhile_append_of_pos hblanks, List.cons_append,
      dropWhile_isBlank_sign hsign hblank, hsnd, hfst, ← List.cons_append,
      takeWhile_run_append hdigits hrest, if_neg (List.cons_ne_nil _ _)]

/-- A number is brought to the nearest end of the 64-bit range. -/
theorem toInt_ofIntClamp_eq (z : Int) : (Int64.ofIntClamp z).toInt =
    max Int64.minValue.toInt (min z Int64.maxValue.toInt) := by
  unfold Int64.ofIntClamp
  split
  · next hmin =>
    split
    · next hmax => rw [Int64.toInt_ofIntLE, Int.min_eq_left hmax, Int.max_eq_right hmin]
    · next hmax =>
      rw [Int.min_eq_right (Int.le_of_not_le hmax)]
      rfl
  · next hmin =>
    have hle : min z Int64.maxValue.toInt ≤ Int64.minValue.toInt :=
      Int.le_trans (Int.min_le_left _ _) (Int.le_of_not_le hmin)
    exact (Int.max_eq_left hle).symm

namespace Environment

/-- **A count is the whole integer at the front of the variable**, brought into the range from zero
to a million: the range of 64-bit numbers, which it passes on the way, does not show. -/
theorem count_of_beginsWithInt {s : Text} {z : Int} (default : Int) (h : BeginsWithInt s z) :
    count default (some s) = max 0 (min z 1000000) := by
  have hread : readInt? s = some z := readInt?_eq_some_iff.2 h
  have hne : s ≠ [] := by
    rintro rfl
    simp [readInt?, signed, digitRun] at hread
  have hgiven : given? (some s) = some s := by simp [given?, hne]
  have hmin : Int64.minValue.toInt ≤ 0 := by decide
  have hmax : 1000000 ≤ Int64.maxValue.toInt := by decide
  rw [count, hgiven, Option.bind_some, readInt64?, hread, Option.map_some]
  show max 0 (min (Int64.ofIntClamp z).toInt 1000000) = _
  rw [toInt_ofIntClamp_eq]
  omega

/-- A variable that is unset or does not begin with an integer leaves the default. -/
theorem count_of_not_beginsWithInt {value : Option Text} (default : Int)
    (h : ¬ ∃ s z, value = some s ∧ BeginsWithInt s z) : count default value = default := by
  have hread : (given? value).bind readInt64? = none := by
    rw [Option.bind_eq_none_iff]
    intro s hs
    obtain ⟨hvalue, -⟩ := Option.filter_eq_some_iff.1 hs
    rw [readInt64?, Option.map_eq_none_iff]
    refine Option.eq_none_iff_forall_not_mem.2 fun z hz => ?_
    exact h ⟨s, z, hvalue, readInt?_eq_some_iff.1 hz⟩
  rw [count, hread]

end Environment

end CodeSimilarity
