import CodeSimilarity.Text.Basic

set_option autoImplicit false
set_option relaxedAutoImplicit false

/-!
# Code points of a text

A text is read as code points by the lead and continuation patterns of UTF-8: a lead byte says
how many continuation bytes follow, and the payload bits of all of them make up the code point.
Only the patterns are checked, so over-long forms, surrogates and numbers above `0x10FFFF` are
read like any other. Where the bytes fit no pattern, one byte is consumed and a space stands
for it.

## Main definitions

* `Decoded` — the outcome of reading one code point.
* `Text.decodeFirst` — reading the first code point of a non-empty text.
* `Text.decode` — reading a whole text.
* `Text.codePoints` — the code points alone.

## Main results

* `Text.sum_width_decode` — the reading consumes the text completely.
-/

namespace CodeSimilarity

/-- The outcome of reading one code point. -/
structure Decoded where
  /-- The number that was read. -/
  codePoint : Nat
  /-- How many bytes were consumed. -/
  width : Nat
  /-- Whether the bytes fit a pattern. -/
  wellFormed : Bool
deriving DecidableEq, Repr

namespace Text

/-- Whether `c` has the form `10xxxxxx` of a continuation byte. -/
def isContinuation (c : UInt8) : Bool :=
  0x80 ≤ c && c < 0xC0

/-- The payload bits of a lead byte and the number of continuation bytes that it announces;
`none` for a byte that can lead no sequence. -/
def leadPattern (c : UInt8) : Option (Nat × Nat) :=
  if c < 0x80 then some (c.toNat, 0)
  else if c < 0xC0 then none
  else if c < 0xE0 then some (c.toNat % 32, 1)
  else if c < 0xF0 then some (c.toNat % 16, 2)
  else if c < 0xF8 then some (c.toNat % 8, 3)
  else none

/-- What one byte that fits no pattern is read as. -/
def malformed : Decoded :=
  { codePoint := 0x20, width := 1, wellFormed := false }

/-- Reads the first code point of the text `c :: s`. -/
def decodeFirst (c : UInt8) (s : Text) : Decoded :=
  match leadPattern c with
  | none => malformed
  | some (bits, count) =>
    let tail := s.take count
    if tail.length = count ∧ tail.all isContinuation then
      { codePoint := tail.foldl (fun n d => n * 64 + d.toNat % 64) bits
        width := count + 1
        wellFormed := true }
    else
      malformed

/-- A reading consumes at least the lead byte. -/
theorem one_le_width_decodeFirst (c : UInt8) (s : Text) : 1 ≤ (decodeFirst c s).width := by
  unfold decodeFirst
  split
  · simp [malformed]
  · dsimp only; split <;> simp [malformed]

/-- A reading stays inside the text. -/
theorem width_decodeFirst_le (c : UInt8) (s : Text) :
    (decodeFirst c s).width ≤ (c :: s).length := by
  unfold decodeFirst
  split
  · simp [malformed]
  · dsimp only
    split
    · next h =>
      have := h.1
      simp only [List.length_take, List.length_cons] at this ⊢
      omega
    · simp [malformed]

/-- Reads a whole text, one code point after the other. -/
def decode : Text → List Decoded
  | [] => []
  | c :: s => decodeFirst c s :: decode (s.drop ((decodeFirst c s).width - 1))
termination_by s => s.length
decreasing_by simp only [List.length_drop, List.length_cons]; omega

/-- The code points of a text, a space standing for each byte that fits no pattern. -/
def codePoints (s : Text) : List Nat :=
  (decode s).map Decoded.codePoint

/-- The empty text holds no code points. -/
@[simp] theorem decode_nil : decode [] = [] := by rw [decode]

/-- The first code point is decoded, and decoding goes on behind its bytes. -/
theorem decode_cons (c : UInt8) (s : Text) :
    decode (c :: s) =
      decodeFirst c s :: decode (s.drop ((decodeFirst c s).width - 1)) := by
  rw [decode]

/-- The reading consumes the text completely. -/
theorem sum_width_decode (s : Text) :
    (decode s).foldr (fun d consumed => d.width + consumed) 0 = s.length := by
  fun_induction decode s with
  | case1 => rfl
  | case2 c s ih =>
    have h1 := one_le_width_decodeFirst c s
    have h2 := width_decodeFirst_le c s
    simp only [List.foldr_cons, ih, List.length_drop]
    simp only [List.length_cons] at h2 ⊢
    omega

end Text

end CodeSimilarity
