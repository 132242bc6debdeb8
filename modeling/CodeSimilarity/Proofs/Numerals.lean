import CodeSimilarity.Text.Numeral
import Mathlib.Data.List.Basic
import Mathlib.Data.List.Induction
import Mathlib.Data.Option.Basic

set_option autoImplicit false
set_option relaxedAutoImplicit false

/-!
# Reading numerals back

A numeral is read as digits and small letters behind an optional minus sign. A number may have many
texts that are read as it, since zeros can stand in front. Among these there is one without a
needless zero or sign, and that is the numeral the number is written as.

## Main definitions

* `Text.smallDigit?`, `Text.numeral?`, `Text.signedNumeral?` — what a digit, a run of digits and a
  run of digits behind an optional sign are read as.
* `Text.IsCanonical` — no needless zero and no sign before a zero.

## Main results

* `Text.digit_induction` — induction along the digits of a numeral.
* `Text.mem_ofNat`, `Text.head?_ofNat_eq_zero_iff` — the bytes of a numeral, and its first one.
* `Text.numeral?_ofNat`, `Text.eq_ofNat` — the numeral of a natural number is read back, and no
  other run of digits without a needless zero is read as the number.
* `Text.signedNumeral?_ofInt`, `Text.isCanonical_ofInt`, `Text.eq_ofInt` — the same for integers.
-/

namespace CodeSimilarity.Text

variable {base n v : Nat} {c : UInt8} {s : Text} {z : Int}

/-! ## Digits -/

/-- The value of a digit or small letter in the given base; in base sixteen these are `0` to `9` and
`a` to `f`. -/
def smallDigit? (base : Nat) (c : UInt8) : Option Nat :=
  if toLower c = c then digit? base c else none

/-- The digit of a value reads back as that value. -/
theorem smallDigit?_digit (hbase : base ≤ 16) (hv : v < base) :
    smallDigit? base (digit v) = some v := by
  have hdigit : ∀ v < 16, toLower (digit v) = digit v ∧ digitValue? (digit v) = some v := by
    decide
  obtain ⟨hlower, hvalue⟩ := hdigit v (by omega)
  rw [smallDigit?, if_pos hlower, digit?, hvalue, Option.filter_some, if_pos (by simpa using hv)]

/-- A byte that reads as a value below the base is the digit of that value. -/
theorem eq_digit_of_smallDigit? (hbase : base ≤ 16) (h : smallDigit? base c = some v) :
    v < base ∧ c = digit v := by
  have hbyte : ∀ c, toLower c = c → ∀ v ∈ digitValue? c, v < 16 → c = digit v :=
    Byte.forall_of_lt (by decide +kernel)
  rw [smallDigit?] at h
  split at h
  · next hlower =>
    obtain ⟨hvalue, hlt⟩ := Option.filter_eq_some_iff.1 h
    have hlt : v < base := by simpa using hlt
    exact ⟨hlt, hbyte c hlower v hvalue (by omega)⟩
  · exact absurd h (by simp)

/-! ## Natural numbers -/

/-- The number that a run of digits and small letters stands for, if there is at least one. -/
def numeral? (base : Nat) (s : Text) : Option Nat :=
  if s = [] then none else (s.mapM (smallDigit? base)).map (digitsValue base)

/-- A numeral of one byte has the value of that digit. -/
theorem numeral?_singleton : numeral? base [c] = smallDigit? base c := by
  cases hc : smallDigit? base c <;> simp [numeral?, hc, digitsValue]

/-- One digit more moves the number up by one place. -/
theorem numeral?_concat (hs : s ≠ []) :
    numeral? base (s ++ [c]) =
      (numeral? base s).bind fun m => (smallDigit? base c).map fun v => base * m + v := by
  rw [numeral?, if_neg (by simp), numeral?, if_neg hs, List.mapM_append]
  cases s.mapM (smallDigit? base) with
  | none => rfl
  | some ds => cases hc : smallDigit? base c <;> simp [hc, digitsValue]

/-- Induction on a number along the digits of its numeral, from the first one on. -/
@[elab_as_elim]
theorem digit_induction {motive : Nat → Prop} (hbase : 1 < base) (n : Nat)
    (digit : ∀ n < base, motive n) (concat : ∀ n, base ≤ n → motive (n / base) → motive n) :
    motive n := by
  induction n using Nat.strongRecOn with
  | ind n ih =>
    rcases Nat.lt_or_ge n base with hlt | hge
    · exact digit n hlt
    · exact concat n hge (ih _ (Nat.div_lt_self (by omega) hbase))

/-- Every number has a digit. -/
theorem ofNat_ne_nil : ofNat base n ≠ [] :=
  List.ne_nil_of_length_pos (length_ofNat_pos base n)

/-- The bytes of a numeral are digits. -/
theorem mem_ofNat (hbase : 1 < base) (hc : c ∈ ofNat base n) : ∃ v < base, c = digit v := by
  induction n using digit_induction hbase with
  | digit n hlt =>
    rw [ofNat_of_lt hlt, List.mem_singleton] at hc
    exact ⟨n, hlt, hc⟩
  | concat n hge ih =>
    rw [ofNat_of_le hbase hge, List.mem_append, List.mem_singleton] at hc
    rcases hc with hc | rfl
    · exact ih hc
    · exact ⟨n % base, Nat.mod_lt _ (by omega), rfl⟩

/-- **A numeral is read back.** -/
theorem numeral?_ofNat (hbase : 1 < base) (hle : base ≤ 16) :
    numeral? base (ofNat base n) = some n := by
  induction n using digit_induction hbase with
  | digit n hlt => rw [ofNat_of_lt hlt, numeral?_singleton, smallDigit?_digit hle hlt]
  | concat n hge ih =>
    rw [ofNat_of_le hbase hge, numeral?_concat ofNat_ne_nil, ih,
      smallDigit?_digit hle (Nat.mod_lt _ (by omega))]
    exact congrArg some (Nat.div_add_mod n base)

/-- A numeral determines its number. -/
theorem ofNat_injective (hbase : 1 < base) (hle : base ≤ 16) : Function.Injective (ofNat base) := by
  intro m n h
  have hread := congrArg (numeral? base) h
  rw [numeral?_ofNat hbase hle, numeral?_ofNat hbase hle] at hread
  exact Option.some.inj hread

/-- Only zero is written with a zero in front. -/
theorem head?_ofNat_eq_zero_iff (hbase : 1 < base) (hle : base ≤ 16) :
    (ofNat base n).head? = some Byte.zero ↔ n = 0 := by
  have hdigit : ∀ v < 16, digit v = Byte.zero ↔ v = 0 := by decide
  induction n using digit_induction hbase with
  | digit n hlt =>
    rw [ofNat_of_lt hlt, List.head?_cons, Option.some.injEq]
    exact hdigit n (by omega)
  | concat n hge ih =>
    -- what stands before the last digit is the numeral of another number than zero
    have hpos : 0 < n / base := Nat.div_pos hge (by omega)
    rw [ofNat_of_le hbase hge, List.head?_append_of_ne_nil _ ofNat_ne_nil]
    exact ih.trans (by omega)

/-- **A run of digits without a needless zero** is the numeral of the number it stands for.

**Proof sketch.** Induction from the last digit. The digits before it stand for a number that is not
zero, since they begin with another digit, and so the whole has more than one digit as a numeral
too. -/
theorem eq_ofNat (hbase : 1 < base) (hle : base ≤ 16)
    (hzero : s.head? = some Byte.zero → s = [Byte.zero]) (h : numeral? base s = some n) :
    s = ofNat base n := by
  induction s using List.reverseRecOn generalizing n with
  | nil => exact absurd h (by simp [numeral?])
  | append_singleton s c ih =>
    rcases eq_or_ne s [] with rfl | hs
    · rw [List.nil_append, numeral?_singleton] at h
      obtain ⟨hlt, rfl⟩ := eq_digit_of_smallDigit? hle h
      rw [ofNat_of_lt hlt, List.nil_append]
    · rw [numeral?_concat hs, Option.bind_eq_some_iff] at h
      obtain ⟨m, hm, h⟩ := h
      obtain ⟨v, hv, rfl⟩ := Option.map_eq_some_iff.1 h
      obtain ⟨hlt, rfl⟩ := eq_digit_of_smallDigit? hle hv
      have hhead : s.head? ≠ some Byte.zero := by
        intro hhead
        have hsingle := hzero (by rw [List.head?_append_of_ne_nil _ hs, hhead])
        simp [List.append_eq_cons_iff, hs] at hsingle
      obtain rfl := ih (fun hs => absurd hs hhead) hm
      have hpos : 0 < m := Nat.pos_of_ne_zero ((head?_ofNat_eq_zero_iff hbase hle).not.1 hhead)
      have hge : base ≤ base * m + v := Nat.le_add_right_of_le (Nat.le_mul_of_pos_right _ hpos)
      rw [ofNat_of_le hbase hge, Nat.mul_add_div (by omega), Nat.div_eq_of_lt hlt, Nat.add_zero,
        Nat.mul_add_mod, Nat.mod_eq_of_lt hlt]

/-! ## Integers -/

/-- The integer that a run of digits and small letters stands for, with a minus sign before it for a
negative one. -/
def signedNumeral? (base : Nat) : Text → Option Int
  | [] => none
  | c :: s =>
    if c = Byte.minus then (numeral? base s).map fun (n : Nat) => -(n : Int)
    else (numeral? base (c :: s)).map fun (n : Nat) => (n : Int)

/-- A numeral without a zero in front of other digits and without a sign before a zero. -/
structure IsCanonical (s : Text) : Prop where
  /-- A zero in front is the only digit. -/
  eq_zero : s.head? = some Byte.zero → s = [Byte.zero]
  /-- No zero follows a minus sign. -/
  not_signed_zero : ¬ [Byte.minus, Byte.zero] <+: s

/-- A minus sign negates the numeral behind it. -/
theorem signedNumeral?_minus_cons :
    signedNumeral? base (Byte.minus :: s) = (numeral? base s).map fun (n : Nat) => -(n : Int) := by
  rw [signedNumeral?, if_pos rfl]

/-- Without a minus sign in front, a numeral is read as it is. -/
theorem signedNumeral?_of_head? (h : s.head? ≠ some Byte.minus) :
    signedNumeral? base s = (numeral? base s).map fun (n : Nat) => (n : Int) := by
  cases s with
  | nil => rfl
  | cons c s => exact if_neg fun hc => h (congrArg some hc)

/-- The numeral of a natural number has no sign. -/
theorem head?_ofNat_ne_minus (hbase : 1 < base) (hle : base ≤ 16) :
    (ofNat base n).head? ≠ some Byte.minus := by
  have hdigit : ∀ v < 16, Byte.minus ≠ digit v := by decide
  intro h
  obtain ⟨v, hv, hminus⟩ := mem_ofNat hbase (List.mem_of_mem_head? h)
  exact hdigit v (by omega) hminus

/-- A written integer reads back as itself. -/
theorem signedNumeral?_ofInt (hbase : 1 < base) (hle : base ≤ 16) :
    signedNumeral? base (ofInt base z) = some z := by
  rw [ofInt]
  split
  · rw [signedNumeral?_minus_cons, numeral?_ofNat hbase hle, Option.map_some, Option.some.injEq]
    omega
  · rw [signedNumeral?_of_head? (head?_ofNat_ne_minus hbase hle), numeral?_ofNat hbase hle,
      Option.map_some, Option.some.injEq]
    omega

/-- Integers are written in canonical form. -/
theorem isCanonical_ofInt (hbase : 1 < base) (hle : base ≤ 16) : (ofInt base z).IsCanonical := by
  rw [ofInt]
  split
  · refine ⟨fun h => absurd (Option.some.inj h) (by decide), fun ⟨t, ht⟩ => ?_⟩
    have hzero : (ofNat base z.natAbs).head? = some Byte.zero := by
      rw [← List.tail_eq_of_cons_eq ht]
      rfl
    rw [head?_ofNat_eq_zero_iff hbase hle] at hzero
    omega
  · refine ⟨fun h => ?_, fun ⟨t, ht⟩ => ?_⟩
    · rw [head?_ofNat_eq_zero_iff hbase hle] at h
      rw [h, ofNat_of_lt (by omega)]
      rfl
    · refine head?_ofNat_ne_minus hbase hle (n := z.natAbs) ?_
      rw [← ht]
      rfl

/-- A canonical numeral is what its value is written as. -/
theorem eq_ofInt (hbase : 1 < base) (hle : base ≤ 16) (hs : s.IsCanonical)
    (h : signedNumeral? base s = some z) : s = ofInt base z := by
  by_cases hminus : s.head? = some Byte.minus
  · obtain ⟨s, rfl⟩ := List.head?_eq_some_iff.1 hminus
    rw [signedNumeral?_minus_cons] at h
    obtain ⟨n, hn, rfl⟩ := Option.map_eq_some_iff.1 h
    have hzero : s.head? ≠ some Byte.zero := by
      intro hhead
      obtain ⟨s, rfl⟩ := List.head?_eq_some_iff.1 hhead
      exact hs.not_signed_zero ⟨s, rfl⟩
    obtain rfl := eq_ofNat hbase hle (fun hhead => absurd hhead hzero) hn
    rw [ne_eq, head?_ofNat_eq_zero_iff hbase hle] at hzero
    rw [ofInt, if_pos (by omega), Int.natAbs_neg, Int.natAbs_natCast]
  · rw [signedNumeral?_of_head? hminus] at h
    obtain ⟨n, hn, rfl⟩ := Option.map_eq_some_iff.1 h
    rw [ofInt, if_neg (by omega), Int.natAbs_natCast]
    exact eq_ofNat hbase hle hs.eq_zero hn

end CodeSimilarity.Text
