import CodeSimilarity.Text.CodePoint
import Mathlib.Data.List.Induction
import Mathlib.Data.Nat.Basic
import Mathlib.Tactic.Ring

set_option autoImplicit false
set_option relaxedAutoImplicit false

/-!
# Reading code points

A lead byte and its continuation bytes are the digits of a code point: the lead byte says how many
digits of six bits follow and holds the first digit itself. Reading a text takes such patterns off
its front, and a single byte where there is none.

## Main definitions

* `Text.pattern` — a code point in a given number of continuation bytes.
* `Text.capacity` — the code points that fit into them.
* `Text.IsReading` — a text as a sequence of patterns and of bytes at which no pattern begins.
* `Text.utf8` — the standard encoding of a list of characters.

## Main results

* `Text.decodeFirst_cases` — the two outcomes of reading one code point.
* `Text.isReading_iff` — every text has exactly one reading, and `decode` finds it.
* `Text.decode_utf8_append` — encoded characters are read as such, whatever follows.
-/

namespace CodeSimilarity.Text

/-! ## Patterns -/

/-- The continuation bytes with the last digits of a code point, to the base of 64. -/
def continuations : (count codePoint : Nat) → Text
  | 0, _ => []
  | count + 1, codePoint =>
    continuations count (codePoint / 64) ++ [UInt8.ofNat (0x80 + codePoint % 64)]

/-- The first of the bytes that lead a given number of continuation bytes. -/
def leadBase : Nat → Nat
  | 1 => 0xC0
  | 2 => 0xE0
  | 3 => 0xF0
  | _ => 0x00

/-- How many bytes lead a given number of continuation bytes. -/
def leadCount : Nat → Nat
  | 0 => 128
  | 1 => 32
  | 2 => 16
  | 3 => 8
  | _ => 0

/-- A lead byte and a given number of continuation bytes that hold a code point. -/
def pattern (count codePoint : Nat) : Text :=
  UInt8.ofNat (leadBase count + codePoint / 64 ^ count) :: continuations count codePoint

/-- The number of code points that a given number of continuation bytes can hold. -/
def capacity (count : Nat) : Nat :=
  leadCount count * 64 ^ count

/-- The euro sign in its three bytes, and over-long in four. -/
example : pattern 2 0x20AC = [0xE2, 0x82, 0xAC] ∧ pattern 3 0x20AC = [0xF0, 0x82, 0x82, 0xAC] := by
  decide

/-- At most three continuation bytes hold a code point. -/
theorem count_le_three {count codePoint : Nat} (h : codePoint < capacity count) : count ≤ 3 := by
  rcases count with _ | _ | _ | _ | count
  · omega
  · omega
  · omega
  · omega
  · simp [capacity, leadCount] at h

/-- A continuation byte is one from `0x80` to `0xBF`. -/
theorem isContinuation_iff {c : UInt8} : isContinuation c ↔ 0x80 ≤ c.toNat ∧ c.toNat < 0xC0 := by
  simp [isContinuation, UInt8.le_iff_toNat_le, UInt8.lt_iff_toNat_lt]

/-- A lead byte is the first of its kind plus its payload. -/
theorem leadPattern_eq_some_iff {c : UInt8} {bits count : Nat} :
    leadPattern c = some (bits, count) ↔
      bits < leadCount count ∧ c.toNat = leadBase count + bits := by
  have hc : c.toNat < 256 := c.toNat_lt
  simp only [leadPattern, UInt8.lt_iff_toNat_lt, UInt8.reduceToNat]
  constructor
  · intro h
    split_ifs at h <;> simp only [Option.some.injEq, Prod.mk.injEq] at h <;>
      obtain ⟨rfl, rfl⟩ := h <;> simp only [leadCount, leadBase] <;> omega
  · rintro ⟨hbits, hlead⟩
    rcases count with _ | _ | _ | _ | count <;> simp only [leadCount, leadBase] at hbits hlead
    · rw [if_pos (by omega)]
      simp [hlead]
    · rw [if_neg (by omega), if_neg (by omega), if_pos (by omega)]
      simp only [Option.some.injEq, Prod.mk.injEq, and_true]
      omega
    · rw [if_neg (by omega), if_neg (by omega), if_neg (by omega), if_pos (by omega)]
      simp only [Option.some.injEq, Prod.mk.injEq, and_true]
      omega
    · rw [if_neg (by omega), if_neg (by omega), if_neg (by omega), if_neg (by omega),
        if_pos (by omega)]
      simp only [Option.some.injEq, Prod.mk.injEq, and_true]
      omega
    · omega

/-! ## Continuation bytes as digits -/

/-- There are as many continuation bytes as asked for. -/
@[simp] theorem length_continuations (count codePoint : Nat) :
    (continuations count codePoint).length = count := by
  induction count generalizing codePoint with
  | zero => rfl
  | succ count ih => simp [continuations, ih]

/-- Continuation bytes are of the form they must have. -/
theorem isContinuation_of_mem_continuations {count codePoint : Nat} {c : UInt8}
    (h : c ∈ continuations count codePoint) : isContinuation c := by
  induction count generalizing codePoint with
  | zero => simp [continuations] at h
  | succ count ih =>
    rw [continuations, List.mem_append, List.mem_singleton] at h
    rcases h with h | rfl
    · exact ih h
    · rw [isContinuation_iff, UInt8.toNat_ofNat']
      omega

/-- The code point that continuation bytes make up behind the payload of a lead byte. -/
def payload (bits : Nat) (tail : Text) : Nat :=
  tail.foldl (fun n d => n * 64 + d.toNat % 64) bits

/-- The last continuation byte holds the last digit of the payload, to the base of 64. -/
theorem payload_concat (bits : Nat) (tail : Text) (c : UInt8) :
    payload bits (tail ++ [c]) = payload bits tail * 64 + c.toNat % 64 := by
  rw [payload, List.foldl_append]
  rfl

/-- Continuation bytes give their digits back. -/
theorem payload_continuations (bits count codePoint : Nat) :
    payload bits (continuations count codePoint) =
      bits * 64 ^ count + codePoint % 64 ^ count := by
  induction count generalizing codePoint with
  | zero => simp [payload, continuations, Nat.mod_one]
  | succ count ih =>
    have hdigit : (UInt8.ofNat (0x80 + codePoint % 64)).toNat % 64 = codePoint % 64 := by
      rw [UInt8.toNat_ofNat']
      omega
    rw [continuations, payload_concat, ih, hdigit, pow_succ', Nat.mod_mul]
    ring

/-- Any continuation bytes are those of the code point that they make up. -/
theorem continuations_payload (bits : Nat) {tail : Text} (h : ∀ c ∈ tail, isContinuation c) :
    continuations tail.length (payload bits tail) = tail := by
  induction tail using List.reverseRecOn with
  | nil => rfl
  | append_singleton tail c ih =>
    rw [List.forall_mem_append, List.forall_mem_singleton, isContinuation_iff] at h
    obtain ⟨htail, hc⟩ := h
    have hhigh : (payload bits tail * 64 + c.toNat % 64) / 64 = payload bits tail := by omega
    have hlow : 0x80 + (payload bits tail * 64 + c.toNat % 64) % 64 = c.toNat := by omega
    rw [payload_concat, List.length_append, List.length_singleton, continuations, hhigh, hlow,
      ih htail, UInt8.ofNat_toNat]

/-- The payload of the lead byte is what stands before the digits. -/
theorem payload_div (bits : Nat) (tail : Text) : payload bits tail / 64 ^ tail.length = bits := by
  induction tail using List.reverseRecOn with
  | nil => exact Nat.div_one bits
  | append_singleton tail c ih =>
    have hhigh : (payload bits tail * 64 + c.toNat % 64) / 64 = payload bits tail := by omega
    rw [payload_concat, List.length_append, List.length_singleton, pow_succ',
      ← Nat.div_div_eq_div_mul, hhigh, ih]

/-! ## Reading one code point -/

/-- **A pattern is read as its code point**, whatever follows. -/
theorem decodeFirst_pattern {count codePoint : Nat} (h : codePoint < capacity count) (s : Text) :
    decodeFirst (UInt8.ofNat (leadBase count + codePoint / 64 ^ count))
        (continuations count codePoint ++ s) = ⟨codePoint, count + 1, true⟩ := by
  have hbits : codePoint / 64 ^ count < leadCount count :=
    Nat.div_lt_of_lt_mul (by rwa [Nat.mul_comm])
  have hlead : leadBase count + codePoint / 64 ^ count < 256 := by
    rcases count with _ | _ | _ | _ | count <;> simp only [leadCount, leadBase] at hbits ⊢ <;> omega
  have hpattern : leadPattern (UInt8.ofNat (leadBase count + codePoint / 64 ^ count)) =
      some (codePoint / 64 ^ count, count) := by
    rw [leadPattern_eq_some_iff, UInt8.toNat_ofNat', Nat.mod_eq_of_lt hlead]
    exact ⟨hbits, rfl⟩
  have htake : (continuations count codePoint ++ s).take count = continuations count codePoint :=
    List.take_left' (length_continuations count codePoint)
  have hall : (continuations count codePoint).all isContinuation :=
    List.all_eq_true.2 fun c hc => isContinuation_of_mem_continuations hc
  have hpayload := payload_continuations (codePoint / 64 ^ count) count codePoint
  rw [Nat.div_add_mod'] at hpayload
  rw [decodeFirst, hpattern]
  dsimp only
  rw [htake, if_pos ⟨length_continuations count codePoint, hall⟩]
  exact congrArg (Decoded.mk · (count + 1) true) hpayload

/-- A byte that leads as many continuation bytes as it announces begins a pattern. -/
theorem exists_pattern {c : UInt8} {bits count : Nat} (hlead : leadPattern c = some (bits, count))
    {tail : Text} (hlength : tail.length = count) (htail : ∀ d ∈ tail, isContinuation d) :
    payload bits tail < capacity count ∧ pattern count (payload bits tail) = c :: tail := by
  obtain ⟨hbits, hc⟩ := leadPattern_eq_some_iff.1 hlead
  subst hlength
  have hdiv := payload_div bits tail
  constructor
  · have hlt : payload bits tail / 64 ^ tail.length < leadCount tail.length := by omega
    exact (Nat.div_lt_iff_lt_mul (Nat.pow_pos (by decide))).1 hlt
  · rw [pattern, hdiv, continuations_payload bits htail, ← hc, UInt8.ofNat_toNat]

/-- **Reading one code point** takes a pattern off the front of a text, or a single byte if no
pattern begins there. -/
theorem decodeFirst_cases (c : UInt8) (s : Text) :
    (∃ count codePoint rest, codePoint < capacity count ∧ c :: s = pattern count codePoint ++ rest ∧
        decodeFirst c s = ⟨codePoint, count + 1, true⟩) ∨
      (∀ count codePoint, codePoint < capacity count → ¬ pattern count codePoint <+: c :: s) ∧
        decodeFirst c s = malformed := by
  have hnot : decodeFirst c s = malformed →
      ∀ count codePoint, codePoint < capacity count → ¬ pattern count codePoint <+: c :: s := by
    rintro hmal count codePoint hfits ⟨rest, hrest⟩
    rw [pattern, List.cons_append] at hrest
    obtain ⟨rfl, rfl⟩ := List.cons.inj hrest
    rw [decodeFirst_pattern hfits] at hmal
    simp [malformed] at hmal
  cases hlead : leadPattern c with
  | none =>
    have hmal : decodeFirst c s = malformed := by simp [decodeFirst, hlead]
    exact .inr ⟨hnot hmal, hmal⟩
  | some parts =>
    obtain ⟨bits, count⟩ := parts
    by_cases htail : (s.take count).length = count ∧ (s.take count).all isContinuation
    · obtain ⟨hfits, hpattern⟩ := exists_pattern hlead htail.1 (List.all_eq_true.1 htail.2)
      refine .inl ⟨count, payload bits (s.take count), s.drop count, hfits, ?_, ?_⟩
      · rw [hpattern, List.cons_append, List.take_append_drop]
      · simp [decodeFirst, hlead, htail, payload]
    · have hmal : decodeFirst c s = malformed := by
        simp only [decodeFirst, hlead]
        exact if_neg htail
      exact .inr ⟨hnot hmal, hmal⟩

/-! ## Reading a text -/

/-- A pattern in front of a text is decoded to its code point, and decoding goes on behind it. -/
theorem decode_pattern_append {count codePoint : Nat} (h : codePoint < capacity count) (s : Text) :
    decode (pattern count codePoint ++ s) = ⟨codePoint, count + 1, true⟩ :: decode s := by
  rw [pattern, List.cons_append, decode_cons, decodeFirst_pattern h, Nat.add_sub_cancel,
    List.drop_left' (length_continuations count codePoint)]

/-- A text as a sequence of patterns, and of single bytes where no pattern begins. -/
inductive IsReading : Text → List Decoded → Prop
  /-- The text is at its end. -/
  | nil : IsReading [] []
  /-- A pattern gives its code point. -/
  | pattern {count codePoint s ds} (h : codePoint < capacity count) :
    IsReading s ds → IsReading (pattern count codePoint ++ s) (⟨codePoint, count + 1, true⟩ :: ds)
  /-- One byte is passed over if no pattern begins with it. -/
  | malformed {c s ds} (h : ∀ count codePoint, codePoint < capacity count →
      ¬ Text.pattern count codePoint <+: c :: s) :
    IsReading s ds → IsReading (c :: s) (malformed :: ds)

/-- Decoding is a reading of the text. -/
theorem isReading_decode (s : Text) : IsReading s (decode s) := by
  induction hn : s.length using Nat.strong_induction_on generalizing s with
  | _ n ih =>
    cases s with
    | nil => exact decode_nil ▸ .nil
    | cons c s =>
      rcases decodeFirst_cases c s with ⟨count, codePoint, rest, hfits, heq, -⟩ | ⟨hnot, hmal⟩
      · have hlt : rest.length < n := by
          rw [← hn, heq, List.length_append, pattern, List.length_cons]
          omega
        rw [heq, decode_pattern_append hfits]
        exact .pattern hfits (ih _ hlt rest rfl)
      · rw [decode_cons, hmal]
        exact .malformed hnot (ih _ (by simp [← hn]) s rfl)

/-- **Every text has exactly one reading.** -/
theorem isReading_iff {s : Text} {ds : List Decoded} : IsReading s ds ↔ ds = decode s := by
  refine ⟨fun h => ?_, fun h => h ▸ isReading_decode s⟩
  induction h with
  | nil => exact decode_nil.symm
  | pattern hfits _ ih => rw [decode_pattern_append hfits, ih]
  | @malformed c s ds hnot _ ih =>
    rcases decodeFirst_cases c s with ⟨count, codePoint, rest, hfits, heq, -⟩ | ⟨-, hmal⟩
    · exact absurd ⟨rest, heq.symm⟩ (hnot count codePoint hfits)
    · rw [decode_cons, hmal, ih]
      rfl

/-- One to four bytes are taken at a time. -/
theorem IsReading.width_mem {s : Text} {ds : List Decoded} (h : IsReading s ds) :
    ∀ d ∈ ds, 1 ≤ d.width ∧ d.width ≤ 4 := by
  induction h with
  | nil => simp
  | pattern hfits _ ih =>
    refine List.forall_mem_cons.2 ⟨?_, ih⟩
    have hcount := count_le_three hfits
    show 1 ≤ _ + 1 ∧ _ + 1 ≤ 4
    omega
  | malformed _ _ ih => exact List.forall_mem_cons.2 ⟨by simp [Text.malformed], ih⟩

/-! ## Encoded characters -/

/-- The standard encoding of a list of characters. -/
def utf8 (cs : List Char) : Text :=
  cs.flatMap String.utf8EncodeChar

/-- The encoding of a character is a pattern. -/
theorem utf8EncodeChar_eq (c : Char) :
    ∃ count, String.utf8EncodeChar c = pattern count c.toNat ∧ c.toNat < capacity count ∧
      c.utf8Size = count + 1 := by
  have hvalid : c.val.toNat < 0x110000 := by
    have h := c.valid
    simp only [UInt32.isValidChar, Nat.isValidChar] at h
    omega
  have hsize : c.utf8Size = if c.val.toNat ≤ 0x7F then 1 else if c.val.toNat ≤ 0x7FF then 2
      else if c.val.toNat ≤ 0xFFFF then 3 else 4 := by
    simp only [Char.utf8Size, UInt32.le_iff_toNat_le, UInt32.toNat_ofNatLT]
  have hn : c.toNat = c.val.toNat := rfl
  rw [hsize, String.utf8EncodeChar, hn]
  generalize c.val.toNat = n at hvalid
  split_ifs with h₁ h₂ h₃
  · refine ⟨0, ?_, by simp only [capacity, leadCount]; omega, rfl⟩
    simp [pattern, continuations, leadBase]
  · refine ⟨1, ?_, by simp only [capacity, leadCount]; omega, rfl⟩
    simp only [pattern, continuations, leadBase, List.nil_append, List.cons.injEq, and_true]
    refine ⟨congrArg UInt8.ofNat ?_, congrArg UInt8.ofNat ?_⟩ <;> omega
  · refine ⟨2, ?_, by simp only [capacity, leadCount]; omega, rfl⟩
    simp only [pattern, continuations, leadBase, List.nil_append, List.cons_append,
      List.cons.injEq, and_true]
    refine ⟨congrArg UInt8.ofNat ?_, congrArg UInt8.ofNat ?_, congrArg UInt8.ofNat ?_⟩ <;> omega
  · refine ⟨3, ?_, by simp only [capacity, leadCount]; omega, rfl⟩
    simp only [pattern, continuations, leadBase, List.nil_append, List.cons_append,
      List.cons.injEq, and_true]
    refine ⟨congrArg UInt8.ofNat ?_, congrArg UInt8.ofNat ?_, congrArg UInt8.ofNat ?_,
      congrArg UInt8.ofNat ?_⟩ <;> omega

/-- **Encoded characters are read as such**, whatever follows. -/
theorem decode_utf8_append (cs : List Char) (t : Text) :
    decode (utf8 cs ++ t) = cs.map (fun c => ⟨c.toNat, c.utf8Size, true⟩) ++ decode t := by
  induction cs with
  | nil => rfl
  | cons c cs ih =>
    obtain ⟨count, hpattern, hfits, hsize⟩ := utf8EncodeChar_eq c
    rw [utf8, List.flatMap_cons, hpattern, List.append_assoc, decode_pattern_append hfits, ← utf8,
      ih, List.map_cons, hsize, List.cons_append]

/-- Encoded characters are decoded to themselves. -/
theorem decode_utf8 (cs : List Char) :
    decode (utf8 cs) = cs.map fun c => ⟨c.toNat, c.utf8Size, true⟩ := by
  simpa using decode_utf8_append cs []

end CodeSimilarity.Text
