import CodeSimilarity.Text.Numeral

set_option autoImplicit false
set_option relaxedAutoImplicit false

/-!
# Buffers filled from the end

A numeral is found from its last digit to its first one. So it is written into a buffer of fixed
size from the last cell on, every byte in front of those before it. A byte for which no cell is left
is not written, and the writing fails.

## Main definitions

* `BackBuffer` — cells, and from which of them on they are written.
* `BackBuffer.text` — what is written.
* `BackBuffer.push?` — writes one byte.
* `BackBuffer.pushHex?` — writes the hexadecimal digits of a 32-bit number.

## Main results

* `BackBuffer.exists_push?`, `BackBuffer.exists_pushHex?` — with enough free cells the writing
  succeeds, and the byte or numeral stands in front of what was written before.
-/

namespace CodeSimilarity

/-- A buffer that is filled from its end. -/
structure BackBuffer (size : Nat) where
  /-- The cells; those before `start` may hold anything. -/
  cells : Vector UInt8 size
  /-- The first written cell. -/
  start : Nat
  /-- The written cells lie in the buffer. -/
  start_le : start ≤ size

namespace BackBuffer

open Text

variable {size : Nat}

/-- Cells of which none is written. -/
def ofCells (cells : Vector UInt8 size) : BackBuffer size :=
  ⟨cells, size, Nat.le_refl size⟩

/-- What is written. -/
def text (b : BackBuffer size) : Text :=
  b.cells.toList.drop b.start

/-- Nothing is written yet in a fresh buffer. -/
@[simp] theorem text_ofCells (cells : Vector UInt8 size) : (ofCells cells).text = [] := by
  simp [ofCells, text]

/-- The text reaches from the start to the end of the buffer. -/
theorem length_text (b : BackBuffer size) : b.text.length = size - b.start := by
  simp [text]

/-- Bytes that come to stand in front take as many free cells. -/
theorem start_add_length {b b' : BackBuffer size} {s : Text} (h : b'.text = s ++ b.text) :
    b'.start + s.length = b.start := by
  have hlength := congrArg List.length h
  rw [List.length_append, length_text, length_text] at hlength
  have := b.start_le
  have := b'.start_le
  omega

/-! ## One byte -/

/-- Writes `c` into the last free cell, if there is one. -/
def push? (b : BackBuffer size) (c : UInt8) : Option (BackBuffer size) :=
  if h : 0 < b.start then
    have hlt : b.start - 1 < size := Nat.lt_of_lt_of_le (Nat.sub_one_lt_of_lt h) b.start_le
    some ⟨b.cells.set (b.start - 1) c hlt, b.start - 1, Nat.le_of_lt hlt⟩
  else none

/-- A free cell takes a byte, which then stands in front. -/
theorem exists_push? {b : BackBuffer size} (h : 0 < b.start) (c : UInt8) :
    ∃ b', b.push? c = some b' ∧ b'.text = c :: b.text := by
  have hlt : b.start - 1 < (b.cells.toList.set (b.start - 1) c).length := by
    have := b.start_le
    rw [List.length_set, Vector.length_toList]
    omega
  refine ⟨_, dif_pos h, ?_⟩
  simp only [text, Vector.toList_set]
  rw [List.drop_eq_getElem_cons hlt, List.getElem_set_self, Nat.sub_add_cancel h,
    List.drop_set_of_lt (Nat.sub_one_lt_of_lt h)]

/-! ## Hexadecimal digits -/

/-- The last four bits are the remainder by 16. -/
theorem toNat_and_fifteen (m : UInt32) : (m &&& 0xF).toNat = m.toNat % 16 := by
  rw [UInt32.toNat_and]
  exact Nat.and_two_pow_sub_one_eq_mod _ 4

/-- A shift by four bits divides by 16. -/
theorem toNat_shiftRight_four (m : UInt32) : (m >>> 4).toNat = m.toNat / 16 := by
  rw [UInt32.toNat_shiftRight]
  exact Nat.shiftRight_eq_div_pow _ 4

/-- A shift by four bits leaves nothing of the numbers below 16. -/
theorem shiftRight_four_eq_zero_iff {m : UInt32} : m >>> 4 = 0 ↔ m.toNat < 16 := by
  rw [← UInt32.toNat_inj, toNat_shiftRight_four, UInt32.toNat_zero]
  omega

/-- A shift by four bits makes a number smaller, unless nothing is left. -/
theorem toNat_shiftRight_four_lt {m : UInt32} (h : m >>> 4 ≠ 0) : (m >>> 4).toNat < m.toNat := by
  rw [ne_eq, shiftRight_four_eq_zero_iff] at h
  rw [toNat_shiftRight_four]
  omega

/-- Writes the hexadecimal digits of `m`, the last one first. The first digit is the one that
leaves nothing of the number, so zero has a digit too. -/
def pushHex? (b : BackBuffer size) (m : UInt32) : Option (BackBuffer size) :=
  match b.push? (digit (m &&& 0xF).toNat) with
  | none => none
  | some b' => if m >>> 4 = 0 then some b' else b'.pushHex? (m >>> 4)
termination_by m.toNat
decreasing_by exact toNat_shiftRight_four_lt ‹_›

/-- **Writing the hexadecimal digits** of a number puts its numeral in front, if there are enough
free cells.

**Proof sketch.** Induction along the digits. The digit that is written is the last one of the
numeral, and what is left of the number has the numeral without it. -/
theorem exists_pushHex? {b : BackBuffer size} {m : UInt32}
    (h : (ofNat 16 m.toNat).length ≤ b.start) :
    ∃ b', b.pushHex? m = some b' ∧ b'.text = ofNat 16 m.toNat ++ b.text := by
  have hpos : 0 < b.start := Nat.lt_of_lt_of_le (length_ofNat_pos 16 m.toNat) h
  obtain ⟨b₁, hpush, htext⟩ := exists_push? hpos (digit (m &&& 0xF).toNat)
  rw [pushHex?, hpush]
  rw [toNat_and_fifteen] at htext
  by_cases hlast : m >>> 4 = 0
  · have hlt := shiftRight_four_eq_zero_iff.1 hlast
    refine ⟨b₁, if_pos hlast, ?_⟩
    rw [htext, Nat.mod_eq_of_lt hlt, ofNat_of_lt hlt, List.singleton_append]
  · have hge : 16 ≤ m.toNat := Nat.le_of_not_lt (mt shiftRight_four_eq_zero_iff.2 hlast)
    rw [ofNat_of_le (by decide) hge, ← toNat_shiftRight_four] at h ⊢
    have hroom : (ofNat 16 (m >>> 4).toNat).length ≤ b₁.start := by
      have hstart := start_add_length (s := [digit (m.toNat % 16)]) htext
      rw [List.length_append] at h
      simp only [List.length_singleton] at h hstart
      omega
    obtain ⟨b', hrest, htext'⟩ := exists_pushHex? hroom
    refine ⟨b', (if_neg hlast).trans hrest, ?_⟩
    rw [htext', htext, List.append_assoc, List.singleton_append]
termination_by m.toNat
decreasing_by exact toNat_shiftRight_four_lt hlast

end BackBuffer

end CodeSimilarity
