import CodeSimilarity.Text.BackBuffer
import CodeSimilarity.Text.CodePoint

set_option autoImplicit false
set_option relaxedAutoImplicit false

/-!
# Digests

A digest stands for a text by one 32-bit number: the code points of the text are the
coefficients of a polynomial, which is evaluated at 31 modulo `2 ^ 32`. It is a fingerprint for
comparing, not a cryptographic one.

## Main definitions

* `Digest` — a signed 32-bit number.
* `Digest.ofText` — the digest of a text.
* `Digest.magnitude` — a digest without its sign.
* `Digest.writeTo?` — writes a digest into a buffer.
* `Digest.format` — a digest as a signed hexadecimal numeral.

## Main results

* `Digest.exists_writeTo?` — with enough free cells a digest is written as its numeral.
* `Digest.format_eq` — a buffer of twelve cells is enough for every digest.
-/

namespace CodeSimilarity

/-- A signed 32-bit number that stands for a text. -/
abbrev Digest := Int32

namespace Digest

/-- One step of the evaluation: the sum so far times 31, plus the next code point. -/
def step (sum : UInt32) (codePoint : Nat) : UInt32 :=
  sum * 31 + UInt32.ofNat codePoint

/-- The digest of a text: its code points evaluated as a polynomial at 31, the last one being
the constant term. -/
def ofText (s : Text) : Digest :=
  (s.codePoints.foldl step 0).toInt32

/-! ## Written form -/

/-- The magnitude of a digest. That of the least one is no signed 32-bit number, but an unsigned
one, which the negation modulo `2 ^ 32` gives. -/
def magnitude (d : Digest) : UInt32 :=
  if d < 0 then 0 - d.toUInt32 else d.toUInt32

/-- The magnitude of a digest is the absolute value of the integer it stands for. -/
theorem toNat_magnitude (d : Digest) : d.magnitude.toNat = d.toInt.natAbs := by
  have hvalue : d.toInt =
      if 2 * d.toUInt32.toNat < 2 ^ 32 then (d.toUInt32.toNat : Int)
      else d.toUInt32.toNat - (2 ^ 32 : Nat) :=
    BitVec.toInt_eq_toNat_cond _
  have hlt := d.toUInt32.toNat_lt
  simp only [magnitude, Int32.lt_iff_toInt_lt, Int32.toInt_zero]
  split
  · rw [UInt32.toNat_sub, UInt32.toNat_zero]
    omega
  · omega

/-- Writes the hexadecimal digits of the magnitude and then, in front of them, a minus sign if the
digest is negative. -/
def writeTo? {size : Nat} (d : Digest) (b : BackBuffer size) : Option (BackBuffer size) :=
  match b.pushHex? d.magnitude with
  | none => none
  | some b' => if d < 0 then b'.push? Byte.minus else some b'

/-- A sign and eight digits are enough for every digest. -/
theorem length_ofInt_le (d : Digest) : (Text.ofInt 16 d.toInt).length ≤ 9 := by
  have hdigits : (Text.ofNat 16 d.toInt.natAbs).length ≤ 8 := by
    rw [Text.length_ofNat, Nat.length_toDigits_le_iff (by decide) (by decide)]
    have := d.le_toInt
    have := d.toInt_lt
    omega
  rw [Text.ofInt]
  split
  · exact Nat.succ_le_succ hdigits
  · exact Nat.le_succ_of_le hdigits

/-- **Writing a digest** puts its numeral in front, if there are enough free cells. -/
theorem exists_writeTo? {size : Nat} {d : Digest} {b : BackBuffer size}
    (h : (Text.ofInt 16 d.toInt).length ≤ b.start) :
    ∃ b', d.writeTo? b = some b' ∧ b'.text = Text.ofInt 16 d.toInt ++ b.text := by
  rw [Text.ofInt, ← toNat_magnitude] at h ⊢
  by_cases hneg : d.toInt < 0
  · rw [if_pos hneg] at h ⊢
    obtain ⟨b₁, hdigits, htext⟩ := BackBuffer.exists_pushHex? (Nat.le_of_succ_le h)
    have hpos : 0 < b₁.start := by
      have hstart := BackBuffer.start_add_length htext
      rw [List.length_cons] at h
      omega
    obtain ⟨b', hsign, htext'⟩ := BackBuffer.exists_push? hpos Byte.minus
    refine ⟨b', ?_, by rw [htext', htext, List.cons_append]⟩
    simp only [writeTo?, hdigits, Int32.lt_iff_toInt_lt, Int32.toInt_zero, if_pos hneg, hsign]
  · rw [if_neg hneg] at h ⊢
    obtain ⟨b', hdigits, htext⟩ := BackBuffer.exists_pushHex? h
    refine ⟨b', ?_, htext⟩
    simp only [writeTo?, hdigits, Int32.lt_iff_toInt_lt, Int32.toInt_zero, if_neg hneg]

/-- Twelve cells take every digest, whatever they hold before. -/
theorem exists_writeTo?_ofCells (d : Digest) (cells : Vector UInt8 12) :
    ∃ b, d.writeTo? (.ofCells cells) = some b ∧ b.text = Text.ofInt 16 d.toInt := by
  have hroom : (Text.ofInt 16 d.toInt).length ≤ (BackBuffer.ofCells cells).start :=
    Nat.le_trans d.length_ofInt_le (by decide : 9 ≤ 12)
  obtain ⟨b, hwrite, htext⟩ := exists_writeTo? hroom
  exact ⟨b, hwrite, by rw [htext, BackBuffer.text_ofCells, List.append_nil]⟩

/-- A digest fits into a fresh buffer, whatever its cells hold. -/
theorem isSome_writeTo?_ofCells (d : Digest) (cells : Vector UInt8 12) :
    (d.writeTo? (.ofCells cells)).isSome := by
  obtain ⟨b, hwrite, -⟩ := d.exists_writeTo?_ofCells cells
  exact Option.isSome_of_eq_some hwrite

/-- The digest as a hexadecimal numeral, with a minus sign before the magnitude of a negative
one. -/
def format (d : Digest) : Text :=
  let cells := Vector.replicate 12 0
  ((d.writeTo? (.ofCells cells)).get (d.isSome_writeTo?_ofCells cells)).text

/-- A digest is written as its integer in hexadecimal. -/
theorem format_eq (d : Digest) : d.format = Text.ofInt 16 d.toInt := by
  obtain ⟨b, hwrite, htext⟩ := d.exists_writeTo?_ofCells (.replicate 12 0)
  rw [← htext, format, Option.get_of_eq_some _ hwrite]

end Digest

end CodeSimilarity
