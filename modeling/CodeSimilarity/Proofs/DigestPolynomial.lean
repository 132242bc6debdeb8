import CodeSimilarity.Digest
import CodeSimilarity.Proofs.Decoding
import Mathlib.Algebra.BigOperators.Fin
import Mathlib.Data.Int.ModEq

set_option autoImplicit false
set_option relaxedAutoImplicit false

/-!
# The digest of a text as a polynomial

The digest of a text is computed code point by code point. It is a polynomial in the base 31 whose
coefficients are the code points, brought into the range of a signed 32-bit number. So the digest
of two texts side by side can be computed from their digests, if the texts can be read one after
the other.

## Main definitions

* `Digest.polynomial` — the polynomial with given coefficients at 31.

## Main results

* `Digest.polynomial_append` — two lists of coefficients side by side.
* `Digest.toInt_ofText` — the digest of a text is the value of the polynomial modulo `2 ^ 32`.
* `Digest.digest_is_polynomial` — with what is known of the reading, and for texts side by side.
-/

namespace CodeSimilarity.Digest

open Text

/-! ## The polynomial -/

/-- The polynomial with the given coefficients, the last one being the constant term, at 31. -/
def polynomial (cs : List Nat) : Int :=
  ∑ k : Fin cs.length, (cs[k] : Int) * 31 ^ (cs.length - 1 - k)

/-- The empty text has the value zero. -/
@[simp] theorem polynomial_nil : polynomial [] = 0 := rfl

/-- The first code point has the highest power as its weight. -/
theorem polynomial_cons (c : Nat) (cs : List Nat) :
    polynomial (c :: cs) = c * 31 ^ cs.length + polynomial cs := by
  simp only [polynomial, List.length_cons]
  rw [Fin.sum_univ_succ]
  simp [Nat.sub_sub, Nat.add_comm 1]

/-- The value at coefficients side by side is that at the first ones, moved up by the number of the
others, plus that at the others. -/
theorem polynomial_append (cs ds : List Nat) :
    polynomial (cs ++ ds) = polynomial cs * 31 ^ ds.length + polynomial ds := by
  induction cs with
  | nil => simp
  | cons c cs ih =>
    rw [List.cons_append, polynomial_cons, ih, polynomial_cons, List.length_append, pow_add]
    ring

/-! ## The digest -/

/-- A step of the digest multiplies by 31 and adds the code point, modulo `2 ^ 32`. -/
theorem toNat_step (sum : UInt32) (codePoint : Nat) :
    ((step sum codePoint).toNat : Int) ≡ sum.toNat * 31 + codePoint [ZMOD 2 ^ 32] := by
  have hstep : (step sum codePoint).toNat = (sum.toNat * 31 + codePoint) % 2 ^ 32 := by
    rw [step, UInt32.toNat_add, UInt32.toNat_mul, UInt32.toNat_ofNat']
    exact (Nat.add_mod _ _ _).symm
  rw [hstep]
  push_cast
  exact Int.mod_modEq _ _

/-- The sum after some code points is the one before them moved up, plus their polynomial. -/
theorem toNat_foldl_step (sum : UInt32) (cs : List Nat) :
    ((cs.foldl step sum).toNat : Int) ≡ sum.toNat * 31 ^ cs.length + polynomial cs
      [ZMOD 2 ^ 32] := by
  induction cs generalizing sum with
  | nil => simp
  | cons c cs ih =>
    calc ((cs.foldl step (step sum c)).toNat : Int)
        ≡ (step sum c).toNat * 31 ^ cs.length + polynomial cs [ZMOD 2 ^ 32] := ih _
      _ ≡ (sum.toNat * 31 + c) * 31 ^ cs.length + polynomial cs [ZMOD 2 ^ 32] :=
        ((toNat_step sum c).mul_right _).add_right _
      _ = sum.toNat * 31 ^ (cs.length + 1) + polynomial (c :: cs) := by
        rw [polynomial_cons, pow_succ]
        ring

/-- Numbers that agree modulo `2 ^ 32` have one signed representative. -/
theorem bmod_congr {x y : Int} (h : x ≡ y [ZMOD 2 ^ 32]) : x.bmod (2 ^ 32) = y.bmod (2 ^ 32) := by
  rw [← Int.emod_bmod x, ← Int.emod_bmod y]
  exact congrArg (Int.bmod · _) h

/-- **The digest of a text** is the signed representative of its polynomial modulo `2 ^ 32`. -/
theorem toInt_ofText (s : Text) :
    (ofText s).toInt = (polynomial s.codePoints).bmod (2 ^ 32) := by
  have hsum := toNat_foldl_step 0 s.codePoints
  rw [UInt32.toNat_zero, Int.natCast_zero, zero_mul, zero_add] at hsum
  rw [ofText, Int32.toInt, UInt32.toBitVec_toInt32, BitVec.toInt_eq_toNat_bmod]
  exact bmod_congr hsum

/-- Encoded characters give their own code points. -/
theorem codePoints_utf8_append (cs : List Char) (t : Text) :
    codePoints (utf8 cs ++ t) = codePoints (utf8 cs) ++ codePoints t := by
  simp only [codePoints, decode_utf8_append, decode_utf8, List.map_append]

/-- The digest of encoded characters and a text behind them, from both digests. -/
theorem toInt_ofText_utf8_append (cs : List Char) (t : Text) :
    (ofText (utf8 cs ++ t)).toInt =
      ((ofText (utf8 cs)).toInt * 31 ^ (decode t).length + (ofText t).toInt).bmod (2 ^ 32) := by
  have hrep : ∀ x : Int, x.bmod (2 ^ 32) ≡ x [ZMOD 2 ^ 32] := fun x => Int.bmod_emod
  have hlength : (codePoints t).length = (decode t).length := List.length_map _
  rw [toInt_ofText, toInt_ofText, toInt_ofText, codePoints_utf8_append, polynomial_append, hlength]
  exact bmod_congr ((((hrep _).mul_right _).add (hrep _)).symm)

/-- **The digest of a text is the polynomial of its code points.** A text has exactly one reading as
patterns and single bytes. It takes one to four bytes at a time and ends where the text ends. The
digest is the signed 32-bit number of the polynomial whose coefficients are the code points that
were read. Encoded characters are read as such, and their digest goes over into that of any text
behind them. -/
theorem digest_is_polynomial :
    (∀ (s : Text) (ds : List Decoded), IsReading s ds ↔ ds = decode s) ∧
    (∀ s : Text, ((decode s).map Decoded.width).sum = s.length ∧
      (∀ d ∈ decode s, 1 ≤ d.width ∧ d.width ≤ 4) ∧
      (ofText s).toInt = (polynomial ((decode s).map Decoded.codePoint)).bmod (2 ^ 32)) ∧
    ∀ (cs : List Char) (t : Text),
      decode (utf8 cs) = cs.map (fun c => ⟨c.toNat, c.utf8Size, true⟩) ∧
      (ofText (utf8 cs ++ t)).toInt =
        ((ofText (utf8 cs)).toInt * 31 ^ (decode t).length + (ofText t).toInt).bmod (2 ^ 32) := by
  refine ⟨fun s ds => isReading_iff, fun s => ⟨?_, (isReading_decode s).width_mem, toInt_ofText s⟩,
    fun cs t => ⟨decode_utf8 cs, toInt_ofText_utf8_append cs t⟩⟩
  rw [← sum_width_decode, List.sum, List.foldr_map]

/-- A text that breaks off a sequence of three bytes and goes on with a bracket. -/
theorem digest_is_polynomial_broken :
    decode [0x61, 0xC3, 0xA9, 0xE2, 0x82, 0x28] =
        [⟨0x61, 1, true⟩, ⟨0xE9, 2, true⟩, malformed, malformed, ⟨0x28, 1, true⟩] ∧
      IsReading [0x61, 0xC3, 0xA9, 0xE2, 0x82, 0x28]
        [⟨0x61, 1, true⟩, ⟨0xE9, 2, true⟩, malformed, malformed, ⟨0x28, 1, true⟩] ∧
      malformed.width ≤ 4 ∧
      (ofText [0x61, 0xC3, 0xA9, 0xE2, 0x82, 0x28]).toInt =
        (polynomial [0x61, 0xE9, 0x20, 0x20, 0x28]).bmod (2 ^ 32) := by
  have hdecode : decode [0x61, 0xC3, 0xA9, 0xE2, 0x82, 0x28] =
      [⟨0x61, 1, true⟩, ⟨0xE9, 2, true⟩, malformed, malformed, ⟨0x28, 1, true⟩] := by
    decide +kernel
  obtain ⟨hreading, htext, -⟩ := digest_is_polynomial
  obtain ⟨-, hwidth, hdigest⟩ := htext [0x61, 0xC3, 0xA9, 0xE2, 0x82, 0x28]
  rw [hdecode] at hwidth hdigest
  exact ⟨hdecode, (hreading _ _).2 hdecode.symm, (hwidth malformed (by simp)).2, hdigest⟩

end CodeSimilarity.Digest
