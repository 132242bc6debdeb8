import CodeSimilarity.Proofs.Rounding
import Mathlib.Algebra.Order.GroupWithZero.Basic

set_option autoImplicit false
set_option relaxedAutoImplicit false

/-!
# Correct rounding

What is read as a number is digits, a sign and a power of the base. The double that it becomes is the
one nearest to it, or an infinity if it is too large, whatever the sign and the power are. Where the
result can be told without the power, the power is left out, and this changes nothing.

## Main definitions

* `Binary64.flip` — the number with the other sign.
* `Binary64.IsRounded` — what a number with a sign is rounded to.

## Main results

* `Binary64.isRounded_ofRatio` — a quotient with a sign is rounded correctly.
* `Binary64.ofScaled_eq` — where the power is left out, it does not matter.
* `Binary64.isRounded_ofScaled` — digits and a power of the base are rounded correctly.
-/

namespace CodeSimilarity.Binary64

variable {x : Binary64} {num den : ℕ}

/-! ## Signs -/

/-- The number with the other sign. -/
def flip (x : Binary64) : Binary64 :=
  { x with negative := !x.negative }

/-- A number with the other sign has the opposite units. -/
theorem signedUnits_flip (x : Binary64) : x.flip.signedUnits = -x.signedUnits := by
  unfold signedUnits
  cases hx : x.negative <;> simp [flip, hx, units]

/-- A number with the other sign has the opposite value. -/
theorem value_flip (x : Binary64) : x.flip.value = -x.value := by
  rw [value, value, signedUnits_flip, Int.cast_neg, neg_div]

/-- Changing the sign twice changes nothing. -/
@[simp] theorem flip_flip (x : Binary64) : x.flip.flip = x := by
  simp [flip]

/-- The double nearest to the opposite of a number is the one with the other sign. -/
theorem IsNearest.flip {q : ℚ} (h : x.IsNearest q) : x.flip.IsNearest (-q) := by
  have hdistance : ∀ y : Binary64, |y.value - -q| = |y.flip.value - q| := fun y => by
    rw [value_flip, ← abs_neg (y.value - -q)]
    ring_nf
  refine ⟨h.isFinite, fun y hy => ?_, fun y hy hne heq => ?_⟩
  · rw [hdistance, hdistance, flip_flip]
    exact h.nearest y.flip hy
  · rw [hdistance, hdistance, flip_flip] at heq
    refine h.even y.flip hy (fun hvalue => hne ?_) heq
    rw [value_flip, ← hvalue, value_flip, neg_neg]

/-- What the number with a given sign and the absolute value `q` is rounded to. -/
structure IsRounded (x : Binary64) (negative : Bool) (q : ℚ) : Prop where
  /-- The sign stays, also on a zero. -/
  negative_eq : x.negative = negative
  /-- A number that is not too large is rounded to the nearest double. -/
  isNearest : q < overflow → x.IsNearest (if negative then -q else q)
  /-- Any other is rounded to an infinity. -/
  eq_infinity : overflow ≤ q → x = infinity negative

/-- A quotient with a sign is the one without it, with its sign changed if it is negative. -/
theorem ofRatio_eq (negative : Bool) (num den : ℕ) :
    ofRatio negative num den =
      if negative then (ofRatio false num den).flip else ofRatio false num den := by
  cases negative <;> rfl

/-- **A quotient is rounded correctly**, whatever its sign and its size. -/
theorem isRounded_ofRatio (negative : Bool) (num : ℕ) (hden : 0 < den) :
    (ofRatio negative num den).IsRounded negative (num / den) := by
  have hden' : (0 : ℚ) < den := Nat.cast_pos.2 hden
  refine ⟨rfl, fun h => ?_, fun h => ?_⟩
  · rw [div_lt_iff₀ hden', mul_comm] at h
    have hnearest := isNearest_ofRatio hden (show num < den * overflow by exact_mod_cast h)
    rw [ofRatio_eq]
    cases negative
    · exact hnearest
    · exact hnearest.flip
  · rw [le_div_iff₀ hden', mul_comm] at h
    have hmagnitude :=
      magnitude_ofRatio_of_overflow hden (show den * overflow ≤ num by exact_mod_cast h)
    have hnearest : nearestMagnitude num den = infinite := hmagnitude
    simp only [ofRatio, hnearest, infinity]

/-! ## Powers -/

/-- A power with an exponent that is at least that large is an infinity, whatever its digits are. -/
theorem overflow_le_mul_pow {n base k : ℕ} (hn : n ≠ 0) (h : 1024 ≤ base.log2 * k) :
    overflow ≤ n * base ^ k := by
  have hbase : base ≠ 0 := by
    rintro rfl
    simp at h
  calc overflow ≤ 2 ^ 1024 := Nat.sub_le _ _
    _ ≤ 2 ^ (base.log2 * k) := Nat.pow_le_pow_right Nat.two_pos h
    _ = (2 ^ base.log2) ^ k := Nat.pow_mul _ _ _
    _ ≤ base ^ k := Nat.pow_le_pow_left (Nat.log2_self_le hbase) k
    _ ≤ n * base ^ k := Nat.le_mul_of_pos_left _ (Nat.pos_of_ne_zero hn)

/-- A quotient below one half of the least positive number is rounded to zero. -/
theorem nearestMagnitude_of_small (h : 2 * (num * Nat.pow 2 1074) < den) :
    nearestMagnitude num den = 0 := by
  have hdiv : num * Nat.pow 2 1074 / den = 0 := Nat.div_eq_of_lt (by omega)
  have hmod : num * Nat.pow 2 1074 % den = num * Nat.pow 2 1074 := Nat.mod_eq_of_lt (by omega)
  have hround : roundHalfEven (num * Nat.pow 2 1074) (den * Nat.pow 2 0) = 0 := by
    rw [show den * Nat.pow 2 0 = den from Nat.mul_one den, roundHalfEven, hdiv, hmod]
    exact if_pos h
  rw [nearestMagnitude, hdiv, Nat.log2_zero, Nat.zero_sub, hround]
  rfl

/-- Digits behind that many places are below one half of the least positive number. -/
theorem two_mul_lt_pow {n base k : ℕ} (h : n.log2 + 1076 < base.log2 * k) :
    2 * (n * Nat.pow 2 1074) < base ^ k := by
  have hbase : base ≠ 0 := by
    rintro rfl
    simp at h
  have hpow : ∀ m k, 2 * (2 ^ m * Nat.pow 2 k) = 2 ^ (m + k + 1) := fun m k => by
    rw [pow_succ, pow_add, Nat.mul_comm 2]
    rfl
  calc 2 * (n * Nat.pow 2 1074) < 2 * (2 ^ (n.log2 + 1) * Nat.pow 2 1074) :=
        Nat.mul_lt_mul_of_pos_left
          (Nat.mul_lt_mul_of_pos_right Nat.lt_log2_self (Nat.cast_pos.1 units_one_pos)) Nat.two_pos
    _ = 2 ^ (n.log2 + 1 + 1074 + 1) := hpow _ _
    _ ≤ 2 ^ (base.log2 * k) := Nat.pow_le_pow_right Nat.two_pos (by omega)
    _ = (2 ^ base.log2) ^ k := Nat.pow_mul _ _ _
    _ ≤ base ^ k := Nat.pow_le_pow_left (Nat.log2_self_le hbase) k

/-- **The power is left out only where it does not matter.** -/
theorem ofScaled_eq (negative : Bool) (n base : ℕ) (exponent : ℤ) :
    ofScaled negative n base exponent =
      ofRatio negative (n * base ^ exponent.toNat) (base ^ (-exponent).toNat) := by
  by_cases hn : n = 0
  · rw [ofScaled, if_pos hn, hn, Nat.zero_mul]
    simp only [ofRatio, nearestMagnitude_zero, zero]
  rw [ofScaled, if_neg hn]
  by_cases hexponent : 0 ≤ exponent
  · have habs : exponent.natAbs = exponent.toNat := by omega
    have hneg : (-exponent).toNat = 0 := by omega
    rw [if_pos hexponent, habs, hneg, pow_zero]
    split
    · next hlarge =>
      refine ((isRounded_ofRatio negative _ Nat.one_pos).eq_infinity ?_).symm
      rw [Nat.cast_one, div_one]
      exact_mod_cast overflow_le_mul_pow hn hlarge
    · rfl
  · have habs : exponent.natAbs = (-exponent).toNat := by omega
    have hpos : exponent.toNat = 0 := by omega
    rw [if_neg hexponent, habs, hpos, pow_zero, Nat.mul_one]
    split
    · next hsmall =>
      simp only [ofRatio, nearestMagnitude_of_small (two_mul_lt_pow hsmall), zero]
    · rfl

/-- **A number in a positional system is rounded correctly.** -/
theorem isRounded_ofScaled (negative : Bool) (n : ℕ) {base : ℕ} (hbase : 0 < base) (exponent : ℤ) :
    (ofScaled negative n base exponent).IsRounded negative (n * (base : ℚ) ^ exponent) := by
  have hbase' : (base : ℚ) ≠ 0 := Nat.cast_ne_zero.2 hbase.ne'
  have hsplit : exponent = exponent.toNat - (-exponent).toNat := by omega
  have hvalue : (n : ℚ) * (base : ℚ) ^ exponent =
      (n * base ^ exponent.toNat : ℕ) / (base ^ (-exponent).toNat : ℕ) := by
    conv_lhs => rw [hsplit]
    rw [zpow_sub₀ hbase', zpow_natCast, zpow_natCast, ← mul_div_assoc, Nat.cast_mul, Nat.cast_pow,
      Nat.cast_pow]
  rw [ofScaled_eq, hvalue]
  exact isRounded_ofRatio negative _ (Nat.pow_pos hbase)

end CodeSimilarity.Binary64
