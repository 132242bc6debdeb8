import CodeSimilarity.Binary64.Nearest
import CodeSimilarity.Proofs.Doubles
import Mathlib.Algebra.Order.Ring.Abs

set_option autoImplicit false
set_option relaxedAutoImplicit false

/-!
# A quotient is rounded to the nearest double

## Main definitions

* `Binary64.IsNearest` — a double is the one nearest to a rational number.
* `Binary64.overflow` — the least number that is too large for the format.

## Main results

* `abs_roundHalfEven_sub_le`, `even_roundHalfEven` — the integer nearest to a quotient.
* `Binary64.isNearest_ofRatio`, `Binary64.magnitude_ofRatio_of_overflow` — a quotient is rounded to
  the nearest double, or to an infinity if it is too large.

## Design

All distances are compared in one unit, `1 / (den * 2 ^ 1074)`, in which the quotient and the
doubles are integers. The doubles whose shift is at least that of the result are multiples of one
integer, among which `roundHalfEven` finds the nearest. Any other is smaller than the least of these
multiples that has all 53 bits, and this one is not above the quotient.
-/

namespace CodeSimilarity

/-! ## Rounding to an integer -/

section RoundHalfEven

variable {den : ℕ} (num : ℕ) (hden : 0 < den)

include hden

/-- The integer is at most one half away from the quotient. -/
theorem two_mul_abs_roundHalfEven_sub_le :
    2 * |(roundHalfEven num den : ℤ) * den - num| ≤ den := by
  have hnear : 2 * num ≤ 2 * (den * roundHalfEven num den) + den ∧
    2 * (den * roundHalfEven num den) ≤ 2 * num + den := roundHalfEven_near hden
  have hcomm : (roundHalfEven num den : ℤ) * den = (den * roundHalfEven num den : ℕ) := by
    rw [Int.natCast_mul, Int.mul_comm]
  rw [hcomm]
  generalize den * roundHalfEven num den = m at hnear
  rcases abs_cases ((m : ℤ) - num) with ⟨h, -⟩ | ⟨h, -⟩ <;> omega

/-- Any other integer is at least one half away from it. -/
theorem le_two_mul_abs_sub {k : ℤ} (hk : k ≠ roundHalfEven num den) :
    (den : ℤ) ≤ 2 * |k * den - num| := by
  have hnear := two_mul_abs_roundHalfEven_sub_le num hden
  have hstep : (den : ℤ) ≤ |k * den - roundHalfEven num den * den| := by
    rw [← sub_mul, abs_mul, abs_of_nonneg (Int.natCast_nonneg den)]
    exact le_mul_of_one_le_left (Int.natCast_nonneg den) (Int.one_le_abs (sub_ne_zero.2 hk))
  have htriangle := abs_sub_le (k * den : ℤ) num (roundHalfEven num den * den)
  rw [abs_sub_comm (num : ℤ)] at htriangle
  linarith

/-- **No integer is nearer to a quotient** than the one that it is rounded to. -/
theorem abs_roundHalfEven_sub_le (k : ℤ) :
    |(roundHalfEven num den : ℤ) * den - num| ≤ |k * den - num| := by
  by_cases hk : k = roundHalfEven num den
  · rw [hk]
  · have hnear := two_mul_abs_roundHalfEven_sub_le num hden
    have hfar := le_two_mul_abs_sub num hden hk
    linarith

/-- A quotient of at most an integer is not rounded past it. -/
theorem roundHalfEven_le {k : ℕ} (h : num ≤ k * den) : roundHalfEven num den ≤ k := by
  have hnear : 2 * num ≤ 2 * (den * roundHalfEven num den) + den ∧
    2 * (den * roundHalfEven num den) ≤ 2 * num + den := roundHalfEven_near hden
  by_contra hlt
  have hstep : den * (k + 1) ≤ den * roundHalfEven num den := Nat.mul_le_mul_left den (by omega)
  rw [Nat.mul_comm den (k + 1), Nat.add_mul, Nat.one_mul] at hstep
  omega

/-- A quotient of at least an integer is not rounded below it. -/
theorem le_roundHalfEven {k : ℕ} (h : k * den ≤ num) : k ≤ roundHalfEven num den := by
  have hnear : 2 * num ≤ 2 * (den * roundHalfEven num den) + den ∧
    2 * (den * roundHalfEven num den) ≤ 2 * num + den := roundHalfEven_near hden
  by_contra hlt
  have hstep : (roundHalfEven num den + 1) * den ≤ k * den := Nat.mul_le_mul_right den (by omega)
  rw [Nat.add_mul, Nat.one_mul, Nat.mul_comm _ den] at hstep
  omega

/-- A quotient less than one half below an integer is rounded to a smaller one. -/
theorem roundHalfEven_lt {k : ℕ} (h : 2 * num < (2 * k - 1) * den) : roundHalfEven num den < k := by
  have hnear : 2 * num ≤ 2 * (den * roundHalfEven num den) + den ∧
    2 * (den * roundHalfEven num den) ≤ 2 * num + den := roundHalfEven_near hden
  by_contra hlt
  have hstep : den * k ≤ den * roundHalfEven num den := Nat.mul_le_mul_left den (by omega)
  have hcomm : (2 * k - 1) * den = 2 * (den * k) - den := by
    rw [Nat.sub_mul, Nat.mul_assoc, Nat.mul_comm k, Nat.one_mul]
  omega

/-- A quotient one half below an even integer is rounded up to it. -/
theorem le_roundHalfEven_of_half {k : ℕ} (heven : k % 2 = 0) (h : (2 * k - 1) * den ≤ 2 * num) :
    k ≤ roundHalfEven num den := by
  rcases Nat.eq_zero_or_pos k with rfl | hk
  · exact Nat.zero_le _
  have hdiv := Nat.div_add_mod num den
  have hmod := Nat.mod_lt num hden
  have hcomm : (2 * k - 1) * den = 2 * (den * k) - den := by
    rw [Nat.sub_mul, Nat.mul_assoc, Nat.mul_comm k, Nat.one_mul]
  have hquot : k ≤ num / den + 1 := by
    by_contra hlt
    have hstep : den * (num / den + 2) ≤ den * k := Nat.mul_le_mul_left den (by omega)
    rw [Nat.mul_add] at hstep
    omega
  unfold roundHalfEven
  dsimp only
  rcases Nat.lt_or_ge (num / den) k with hlt | hge
  · obtain rfl : k = num / den + 1 := by omega
    have hstep : den * (num / den + 1) = den * (num / den) + den := Nat.mul_succ den _
    split
    · omega
    · split <;> omega
  · split
    · omega
    · split <;> omega

/-- Of two integers that are equally near, the even one is taken. -/
theorem even_roundHalfEven {k : ℤ} (hk : k ≠ roundHalfEven num den)
    (h : |k * den - num| = |(roundHalfEven num den : ℤ) * den - num|) :
    roundHalfEven num den % 2 = 0 := by
  have hhalf : 2 * |(roundHalfEven num den : ℤ) * den - num| = den :=
    le_antisymm (two_mul_abs_roundHalfEven_sub_le num hden) (h ▸ le_two_mul_abs_sub num hden hk)
  have hdiv : (num : ℤ) = (num / den : ℕ) * den + (num % den : ℕ) := by
    exact_mod_cast (Nat.div_add_mod' num den).symm
  have hmod := Nat.mod_lt num hden
  unfold roundHalfEven at hhalf ⊢
  dsimp only at hhalf ⊢
  -- a remainder other than one half would leave less than one half to the rounded quotient
  by_cases hlow : 2 * (num % den) < den
  · rw [if_pos hlow, hdiv, sub_add_cancel_left, abs_neg, Int.abs_natCast] at hhalf
    omega
  · rw [if_neg hlow] at hhalf ⊢
    by_cases hhigh : den < 2 * (num % den)
    · have hsub : ((num / den + 1 : ℕ) : ℤ) * den - num = (den - num % den : ℕ) := by
        rw [Int.natCast_add, Int.natCast_one, add_mul, one_mul]
        omega
      rw [if_pos hhigh, hsub, Int.abs_natCast] at hhalf
      omega
    · rw [if_neg hhigh]
      omega

end RoundHalfEven

namespace Binary64

variable {x : Binary64} {num den : ℕ}

/-! ## Rounding to a double -/

/-- `x` is the double nearest to `q`, and of two that are equally near the one with an even
significand. -/
structure IsNearest (x : Binary64) (q : ℚ) : Prop where
  /-- It is not infinite. -/
  isFinite : x.isFinite
  /-- No finite double is nearer. -/
  nearest : ∀ y : Binary64, y.isFinite → |x.value - q| ≤ |y.value - q|
  /-- If another one is equally near, the last bit of `x` is not set. -/
  even : ∀ y : Binary64, y.isFinite → y.value ≠ x.value → |y.value - q| = |x.value - q| →
    x.magnitude % 2 = 0

/-- A number that is a double has the value of the double nearest to it. -/
theorem IsNearest.value_eq {q : ℚ} {y : Binary64} (h : x.IsNearest q) (hy : y.isFinite)
    (hvalue : y.value = q) : x.value = q := by
  have hle := h.nearest y hy
  rw [hvalue, sub_self, abs_zero] at hle
  exact sub_eq_zero.1 (abs_nonpos_iff.1 hle)

/-- A number is a multiple of a power of two, unless it is too small for all 53 bits. -/
theorem exists_multiple_or_lt (x : Binary64) (shift : ℕ) :
    (∃ k : ℤ, x.signedUnits = k * 2 ^ shift) ∨
      0 < shift ∧ x.signedUnits < 2 ^ 52 * 2 ^ shift := by
  obtain ⟨i, r, hr, hir, hx⟩ := exists_significand x
  have hunits := units_eq hr.le hir hx
  rcases Nat.lt_or_ge i shift with hi | hi
  · refine .inr ⟨by omega, ?_⟩
    have hlt : x.units < 2 ^ 52 * 2 ^ shift := by
      calc x.units = r * 2 ^ i := hunits
        _ < 2 ^ 53 * 2 ^ i := Nat.mul_lt_mul_of_pos_right hr (by positivity)
        _ = 2 ^ 52 * 2 ^ (i + 1) := by ring
        _ ≤ 2 ^ 52 * 2 ^ shift := Nat.mul_le_mul_left _ (Nat.pow_le_pow_right (by decide) hi)
    have hle : x.signedUnits ≤ x.units := by
      unfold signedUnits
      split <;> omega
    exact hle.trans_lt (by exact_mod_cast hlt)
  · obtain ⟨m, hm⟩ : 2 ^ shift ∣ x.units := hunits ▸ (pow_dvd_pow 2 hi).mul_left r
    have hcast : (x.units : ℤ) = m * 2 ^ shift := by rw [hm]; push_cast; ring
    unfold signedUnits
    split
    · exact .inl ⟨-m, by rw [hcast, neg_mul]⟩
    · exact .inl ⟨m, hcast⟩

/-- The shift that is chosen for a quotient: the significand has at most 53 bits, and all of them
if there is a shift. -/
theorem shift_spec (num : ℕ) (hden : 0 < den) :
    num < 2 ^ 53 * (den * 2 ^ ((num / den).log2 - 52)) ∧
      (0 < (num / den).log2 - 52 → 2 ^ 52 * (den * 2 ^ ((num / den).log2 - 52)) ≤ num) := by
  generalize hshift : (num / den).log2 - 52 = shift
  constructor
  · have hlog : num / den < 2 ^ (53 + shift) :=
      Nat.lt_log2_self.trans_le (Nat.pow_le_pow_right (by decide) (by omega))
    calc num < 2 ^ (53 + shift) * den := (Nat.div_lt_iff_lt_mul hden).1 hlog
      _ = 2 ^ 53 * (den * 2 ^ shift) := by ring
  · intro hpos
    have hne : num / den ≠ 0 := by
      intro h
      rw [h, Nat.log2_zero] at hshift
      omega
    have hlog : 2 ^ (52 + shift) ≤ num / den := by
      rw [show 52 + shift = (num / den).log2 by omega]
      exact Nat.log2_self_le hne
    calc 2 ^ 52 * (den * 2 ^ shift) = 2 ^ (52 + shift) * den := by ring
      _ ≤ num := (Nat.le_div_iff_mul_le hden).1 hlog

/-- The bits of a rounded quotient: its exponent, and behind it the significand that is rounded at
the place the exponent gives. -/
theorem magnitude_ofRatio (num den : ℕ) : (ofRatio false num den).magnitude =
    min infinite (((num * Nat.pow 2 1074 / den).log2 - 52) * 2 ^ 52 +
      roundHalfEven (num * Nat.pow 2 1074)
        (den * 2 ^ ((num * Nat.pow 2 1074 / den).log2 - 52))) := rfl

/-- The least integer that is too large for the format: the greatest finite number is one half of a
step below it. -/
def overflow : ℕ :=
  2 ^ 1024 - 2 ^ 970

/-- One is not too large for the format. -/
theorem one_lt_overflow : 1 < overflow := by
  decide +kernel

/-- The least quotient that is too large, in units, is a significand of 53 bits and one half behind
a shift of 2045. -/
private theorem two_mul_overflow :
    2 * (overflow * Nat.pow 2 1074) = (2 ^ 54 - 1) * 2 ^ 2045 := by
  decide +kernel

/-- One more shift doubles a step. -/
private theorem two_mul_step (den shift : ℕ) : 2 * (den * 2 ^ shift) = den * 2 ^ (shift + 1) := by
  ring

/-- The shift of a quotient that is not too large, and what is left of its digits behind it. -/
theorem shift_le_of_lt_overflow {shift : ℕ} (hden : 0 < den) (h : num < den * overflow)
    (hlow : 0 < shift → 2 ^ 52 * (den * 2 ^ shift) ≤ num * Nat.pow 2 1074) :
    shift ≤ 2045 ∧
      (shift = 2045 → 2 * (num * Nat.pow 2 1074) < (2 ^ 54 - 1) * (den * 2 ^ shift)) := by
  have hunits : 2 * (num * Nat.pow 2 1074) < (2 ^ 54 - 1) * (den * 2 ^ 2045) := by
    calc 2 * (num * Nat.pow 2 1074) < 2 * (den * overflow * Nat.pow 2 1074) :=
          Nat.mul_lt_mul_of_pos_left
            (Nat.mul_lt_mul_of_pos_right h (Nat.cast_pos.1 units_one_pos)) Nat.two_pos
      _ = den * (2 * (overflow * Nat.pow 2 1074)) := by ring
      _ = den * ((2 ^ 54 - 1) * 2 ^ 2045) := by rw [two_mul_overflow]
      _ = (2 ^ 54 - 1) * (den * 2 ^ 2045) := Nat.mul_left_comm _ _ _
  refine ⟨?_, fun hshift => hshift ▸ hunits⟩
  by_contra hlt
  have hpow : 2 * (den * 2 ^ 2045) ≤ den * 2 ^ shift :=
    (two_mul_step den 2045).le.trans
      (Nat.mul_le_mul_left den (Nat.pow_le_pow_right Nat.two_pos (Nat.lt_of_not_le hlt)))
  have hlarge := hlow (Nat.zero_lt_of_lt (Nat.lt_of_not_le hlt))
  have hstep : 0 < den * 2 ^ 2045 := Nat.mul_pos hden (Nat.two_pow_pos 2045)
  omega

/-- **The result of rounding a quotient** that is not too large: a shift, and the quotient rounded
to a significand behind this shift. -/
theorem exists_shift_ofRatio (hden : 0 < den) (h : num < den * overflow) :
    ∃ shift, (0 < shift → 2 ^ 52 * (den * 2 ^ shift) ≤ num * Nat.pow 2 1074) ∧
      (ofRatio false num den).magnitude =
        shift * 2 ^ 52 + roundHalfEven (num * Nat.pow 2 1074) (den * 2 ^ shift) ∧
      (ofRatio false num den).signedUnits =
        roundHalfEven (num * Nat.pow 2 1074) (den * 2 ^ shift) * 2 ^ shift ∧
      (ofRatio false num den).isFinite := by
  obtain ⟨hhigh, hlow⟩ := shift_spec (num * Nat.pow 2 1074) hden
  have hmagnitude := magnitude_ofRatio num den
  generalize (num * Nat.pow 2 1074 / den).log2 - 52 = shift at hhigh hlow hmagnitude
  obtain ⟨hshift, hlast⟩ := shift_le_of_lt_overflow hden h hlow
  have hpos : 0 < den * 2 ^ shift := by positivity
  have hr := roundHalfEven_le (num * Nat.pow 2 1074) hpos hhigh.le
  have hr' : shift = 0 ∨ 2 ^ 52 ≤ roundHalfEven (num * Nat.pow 2 1074) (den * 2 ^ shift) :=
    (Nat.eq_zero_or_pos shift).imp_right fun hs =>
      le_roundHalfEven (num * Nat.pow 2 1074) hpos (hlow hs)
  have hr'' : shift = 2045 →
      roundHalfEven (num * Nat.pow 2 1074) (den * 2 ^ shift) < 2 ^ 53 := fun hs =>
    roundHalfEven_lt (num * Nat.pow 2 1074) hpos (hlast hs)
  refine ⟨shift, hlow, ?_⟩
  generalize roundHalfEven (num * Nat.pow 2 1074) (den * 2 ^ shift) = r at hr hr' hr'' hmagnitude ⊢
  have hinfinite : infinite = 2047 * 2 ^ 52 := rfl
  rw [Nat.min_eq_right (by omega)] at hmagnitude
  refine ⟨hmagnitude, ?_, ?_⟩
  · have hunits := units_eq hr hr' hmagnitude
    change ((ofRatio false num den).units : ℤ) = _
    rw [hunits, Nat.cast_mul, Nat.cast_pow, Nat.cast_ofNat]
  · rw [isFinite, decide_eq_true_iff, hmagnitude]
    omega

/-- **A quotient that is too large** is rounded to an infinity. -/
theorem magnitude_ofRatio_of_overflow (hden : 0 < den) (h : den * overflow ≤ num) :
    (ofRatio false num den).magnitude = infinite := by
  obtain ⟨hhigh, hlow⟩ := shift_spec (num * Nat.pow 2 1074) hden
  have hmagnitude := magnitude_ofRatio num den
  generalize (num * Nat.pow 2 1074 / den).log2 - 52 = shift at hhigh hlow hmagnitude
  have hpos : 0 < den * 2 ^ shift := by positivity
  have hunits : (2 ^ 54 - 1) * (den * 2 ^ 2045) ≤ 2 * (num * Nat.pow 2 1074) := by
    calc (2 ^ 54 - 1) * (den * 2 ^ 2045) = den * ((2 ^ 54 - 1) * 2 ^ 2045) :=
          Nat.mul_left_comm _ _ _
      _ = den * (2 * (overflow * Nat.pow 2 1074)) := by rw [two_mul_overflow]
      _ = 2 * (den * overflow * Nat.pow 2 1074) := by ring
      _ ≤ 2 * (num * Nat.pow 2 1074) :=
        Nat.mul_le_mul_left 2 (Nat.mul_le_mul_right _ h)
  have hinfinite : infinite = 2047 * 2 ^ 52 := rfl
  rcases Nat.lt_trichotomy shift 2045 with hlt | rfl | hgt
  · -- a smaller shift leaves no room for so large a quotient
    have hpow : 2 * (den * 2 ^ shift) ≤ den * 2 ^ 2045 :=
      (two_mul_step den shift).le.trans
        (Nat.mul_le_mul_left den (Nat.pow_le_pow_right Nat.two_pos hlt))
    generalize den * 2 ^ 2045 = step at hunits hpow
    omega
  · have hr := le_roundHalfEven_of_half (num * Nat.pow 2 1074) hpos (k := 2 ^ 53) (by decide)
      (by simpa using hunits)
    rw [hmagnitude, Nat.min_eq_left (by omega)]
  · have hr := le_roundHalfEven (num * Nat.pow 2 1074) hpos (hlow (by omega))
    rw [hmagnitude, Nat.min_eq_left (by omega)]

/-! ### Distances -/

/-- How far a double is from `num / den`, in units of `1 / (den * 2 ^ 1074)`. -/
def distance (x : Binary64) (num den : ℕ) : ℤ :=
  |x.signedUnits * den - (num * Nat.pow 2 1074 : ℕ)|

/-- The distance of a double from a quotient, as a rational number. -/
theorem abs_value_sub (x : Binary64) (num : ℕ) (hden : 0 < den) :
    |x.value - num / den| = x.distance num den / ((Nat.pow 2 1074 : ℕ) * den : ℚ) := by
  have hden' : (0 : ℚ) < den := by exact_mod_cast hden
  rw [value, distance, Int.cast_abs, Int.cast_sub, Int.cast_mul, Int.cast_natCast,
    Int.cast_natCast, Nat.cast_mul, div_sub_div _ _ units_one_pos.ne' hden'.ne', abs_div,
    abs_of_pos (mul_pos units_one_pos hden'), mul_comm (Nat.cast (Nat.pow 2 1074)) (num : ℚ)]

/-- The distance from a quotient, if the units of the double are a multiple of a power of two. -/
theorem distance_of_multiple {k : ℤ} {shift : ℕ} (h : x.signedUnits = k * 2 ^ shift) :
    x.distance num den = |k * (den * 2 ^ shift : ℕ) - (num * Nat.pow 2 1074 : ℕ)| := by
  rw [distance, h, Nat.cast_mul den, Nat.cast_pow, Nat.cast_ofNat, mul_assoc, mul_comm (2 ^ shift)]

/-- Between a small double and a quotient there is a multiple with all 53 bits. -/
theorem lt_distance_of_small {shift : ℕ} (hden : 0 < den)
    (h : 2 ^ 52 * (den * 2 ^ shift) ≤ num * Nat.pow 2 1074)
    (hx : x.signedUnits < 2 ^ 52 * 2 ^ shift) :
    |(2 ^ 52 : ℤ) * (den * 2 ^ shift : ℕ) - (num * Nat.pow 2 1074 : ℕ)| < x.distance num den := by
  have hmul : x.signedUnits * den < 2 ^ 52 * (den * 2 ^ shift : ℕ) := by
    calc x.signedUnits * den < 2 ^ 52 * 2 ^ shift * den :=
          mul_lt_mul_of_pos_right hx (by exact_mod_cast hden)
      _ = 2 ^ 52 * (den * 2 ^ shift : ℕ) := by push_cast; ring
  have hle : (2 ^ 52 : ℤ) * (den * 2 ^ shift : ℕ) ≤ (num * Nat.pow 2 1074 : ℕ) := by
    exact_mod_cast h
  rw [distance, abs_of_nonpos (by linarith), abs_of_nonpos (by linarith)]
  linarith

/-- **No double is nearer to a quotient** than the one that it is rounded to. If another one is
equally near, the last bit is not set. -/
theorem distance_ofRatio_le (hden : 0 < den) (h : num < den * overflow) (y : Binary64) :
    (ofRatio false num den).distance num den ≤ y.distance num den ∧
      (y.signedUnits ≠ (ofRatio false num den).signedUnits →
        y.distance num den = (ofRatio false num den).distance num den →
        (ofRatio false num den).magnitude % 2 = 0) := by
  obtain ⟨shift, hlow, hmagnitude, hunits, -⟩ := exists_shift_ofRatio hden h
  have hpos : 0 < den * 2 ^ shift := by positivity
  have hnear := abs_roundHalfEven_sub_le (num * Nat.pow 2 1074) hpos
  rw [distance_of_multiple hunits]
  rcases exists_multiple_or_lt y shift with ⟨k, hk⟩ | ⟨hs, hy⟩
  · rw [distance_of_multiple hk]
    refine ⟨hnear k, fun hne heq => ?_⟩
    have hkr : k ≠ roundHalfEven (num * Nat.pow 2 1074) (den * 2 ^ shift) := by
      rintro rfl
      exact hne (hk.trans hunits.symm)
    have heven := even_roundHalfEven (num * Nat.pow 2 1074) hpos hkr heq
    omega
  · have hlt := (hnear (2 ^ 52)).trans_lt (lt_distance_of_small hden (hlow hs) hy)
    exact ⟨hlt.le, fun _ heq => absurd heq hlt.ne'⟩

/-- Zero is rounded to zero. -/
theorem nearestMagnitude_zero (den : ℕ) : nearestMagnitude 0 den = 0 := by
  simp [nearestMagnitude, roundHalfEven]

/-- No quotient of zero is anything but zero. -/
theorem ofRatio_zero (den : ℕ) : ofRatio false 0 den = 0 := by
  simp only [ofRatio, nearestMagnitude_zero]
  rfl

/-- **A quotient is rounded to the nearest double**, if it is not too large for the format. -/
theorem isNearest_ofRatio (hden : 0 < den) (h : num < den * overflow) :
    (ofRatio false num den).IsNearest (num / den) := by
  obtain ⟨-, -, -, -, hfinite⟩ := exists_shift_ofRatio hden h
  have hscale : (0 : ℚ) < (Nat.pow 2 1074 : ℕ) * den :=
    mul_pos units_one_pos (by exact_mod_cast hden)
  refine ⟨hfinite, fun y _ => ?_, fun y _ hne heq => ?_⟩
  · rw [abs_value_sub _ _ hden, abs_value_sub _ _ hden, div_le_div_iff_of_pos_right hscale,
      Int.cast_le]
    exact (distance_ofRatio_le hden h y).1
  · rw [abs_value_sub _ _ hden, abs_value_sub _ _ hden, div_left_inj' hscale.ne',
      Int.cast_inj] at heq
    refine (distance_ofRatio_le hden h y).2 (fun hunits => hne ?_) heq
    rw [value, value, hunits]

end Binary64

end CodeSimilarity
