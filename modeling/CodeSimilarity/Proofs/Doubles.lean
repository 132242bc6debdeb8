import CodeSimilarity.Binary64.Basic
import Mathlib.Algebra.Order.Field.Rat
import Mathlib.Tactic.Linarith
import Mathlib.Tactic.Positivity
import Mathlib.Tactic.Ring

set_option autoImplicit false
set_option relaxedAutoImplicit false

/-!
# The values of doubles

The order of doubles is decided on their magnitudes, as if these were plain integers. That it is
the order of the numbers that the doubles stand for rests on one fact: a magnitude is a shift and a
significand, and the value is the significand times a power of two.

## Main definitions

* `Binary64.signedUnits`, `Binary64.value` — the number that a double stands for.

## Main results

* `Binary64.exists_significand`, `Binary64.units_eq` — a magnitude as a shift and a significand.
* `Binary64.units_lt_units_iff` — magnitudes are ordered like absolute values.
* `Binary64.value_le_value_iff`, `Binary64.le_iff` — the order of doubles is that of their values.
-/

namespace CodeSimilarity.Binary64

variable {x y : Binary64}

/-! ## Shift and significand -/

/-- A magnitude counts some shifts, and adds a significand of at most 53 bits. Unless there is no
shift, the significand has all 53 bits. -/
theorem exists_significand (x : Binary64) :
    ∃ shift r, r < 2 ^ 53 ∧ (shift = 0 ∨ 2 ^ 52 ≤ r) ∧ x.magnitude = shift * 2 ^ 52 + r := by
  have hdiv := Nat.div_add_mod x.magnitude (2 ^ 52)
  have hmod := Nat.mod_lt x.magnitude (show 0 < 2 ^ 52 by decide)
  rcases Nat.eq_zero_or_pos (x.magnitude / 2 ^ 52) with hexponent | hexponent
  · refine ⟨0, x.magnitude % 2 ^ 52, by omega, .inl rfl, ?_⟩
    rw [hexponent] at hdiv
    omega
  · refine ⟨x.magnitude / 2 ^ 52 - 1, 2 ^ 52 + x.magnitude % 2 ^ 52, by omega, .inr (by omega), ?_⟩
    omega

/-- **The value of a shifted significand.** A significand that was rounded up to `2 ^ 53` counts
as well. -/
theorem units_eq {shift r : ℕ} (hr : r ≤ 2 ^ 53) (hshift : shift = 0 ∨ 2 ^ 52 ≤ r)
    (h : x.magnitude = shift * 2 ^ 52 + r) : x.units = r * 2 ^ shift := by
  have hunits : x.units = if x.magnitude / 2 ^ 52 = 0 then x.magnitude % 2 ^ 52
      else (2 ^ 52 + x.magnitude % 2 ^ 52) * 2 ^ (x.magnitude / 2 ^ 52 - 1) := rfl
  rcases Nat.lt_or_ge r (2 ^ 52) with hlow | hlow
  · have hshift : shift = 0 := hshift.resolve_right (by omega)
    have hdiv : x.magnitude / 2 ^ 52 = 0 := by omega
    have hmod : x.magnitude % 2 ^ 52 = r := by omega
    rw [hunits, if_pos hdiv, hmod, hshift, pow_zero, mul_one]
  · rcases Nat.lt_or_ge r (2 ^ 53) with hhigh | hhigh
    · have hdiv : x.magnitude / 2 ^ 52 = shift + 1 := by omega
      have hmod : 2 ^ 52 + x.magnitude % 2 ^ 52 = r := by omega
      rw [hunits, if_neg (by omega), hmod, hdiv, Nat.add_sub_cancel]
    · -- the carry out of the significand has become one more shift
      have hdiv : x.magnitude / 2 ^ 52 = shift + 2 := by omega
      have hmod : x.magnitude % 2 ^ 52 = 0 := by omega
      rw [hunits, if_neg (by omega), hmod, hdiv, Nat.le_antisymm hr hhigh]
      simp only [Nat.add_zero, show shift + 2 - 1 = shift + 1 from rfl, pow_succ]
      ring

/-- A greater magnitude stands for a greater absolute value. -/
theorem units_lt_units (h : x.magnitude < y.magnitude) : x.units < y.units := by
  obtain ⟨i, r, hr, hir, hx⟩ := exists_significand x
  obtain ⟨j, s, hs, hjs, hy⟩ := exists_significand y
  rw [units_eq hr.le hir hx, units_eq hs.le hjs hy]
  rcases Nat.lt_trichotomy i j with hij | rfl | hij
  · calc r * 2 ^ i < 2 ^ 53 * 2 ^ i := Nat.mul_lt_mul_of_pos_right hr (by positivity)
      _ = 2 ^ 52 * 2 ^ (i + 1) := by ring
      _ ≤ 2 ^ 52 * 2 ^ j := Nat.mul_le_mul_left _ (Nat.pow_le_pow_right (by decide) hij)
      _ ≤ s * 2 ^ j := Nat.mul_le_mul_right _ (hjs.resolve_left (by omega))
  · exact Nat.mul_lt_mul_of_pos_right (by omega) (by positivity)
  · have hi : 2 ^ 52 ≤ r := hir.resolve_left (by omega)
    have hshift : (j + 1) * 2 ^ 52 ≤ i * 2 ^ 52 := Nat.mul_le_mul_right _ hij
    omega

/-- The bits of a number without its sign are in the order of its absolute value. -/
theorem units_lt_units_iff : x.units < y.units ↔ x.magnitude < y.magnitude := by
  refine ⟨fun h => ?_, units_lt_units⟩
  rcases Nat.lt_trichotomy x.magnitude y.magnitude with hlt | heq | hlt
  · exact hlt
  · have hunits : x.units = y.units := by rw [units, units, heq]
    omega
  · have hunits := units_lt_units hlt
    omega

/-- Only the two zeros have the value zero. -/
theorem units_eq_zero_iff : x.units = 0 ↔ x.magnitude = 0 := by
  have h := units_lt_units_iff (x := zero false) (y := x)
  rw [show (zero false).units = 0 from rfl, show (zero false).magnitude = 0 from rfl] at h
  omega

/-! ## Values -/

/-- The value of a finite number as a multiple of `2 ^ (-1074)`, the least positive number. -/
def signedUnits (x : Binary64) : ℤ :=
  if x.negative then -(x.units : ℤ) else x.units

/-- The value of a finite number. An infinity has a value too: it counts as `2 ^ 1024` with its
sign, so that no finite number is beyond it. -/
def value (x : Binary64) : ℚ :=
  x.signedUnits / (Nat.pow 2 1074 : ℕ)

/-- The places of finite numbers are in the order of their values, in units. -/
theorem signedUnits_le_iff : x.signedUnits ≤ y.signedUnits ↔ x.rank ≤ y.rank := by
  have hlt := units_lt_units_iff (x := x) (y := y)
  have hgt := units_lt_units_iff (x := y) (y := x)
  have hx := units_eq_zero_iff (x := x)
  have hy := units_eq_zero_iff (x := y)
  unfold signedUnits rank
  cases x.negative <;> cases y.negative <;> simp only [Bool.false_eq_true, if_true, if_false] <;>
    omega

/-- The number of units in one is positive. -/
theorem units_one_pos : (0 : ℚ) < (Nat.pow 2 1074 : ℕ) := by
  have hpow : ∀ n, (0 : ℚ) < (Nat.pow 2 n : ℕ) := fun n => Nat.cast_pos.2 (Nat.two_pow_pos n)
  exact hpow 1074

/-- Values are compared as their units are. -/
theorem value_le_value_iff_signedUnits : x.value ≤ y.value ↔ x.signedUnits ≤ y.signedUnits := by
  rw [value, value, div_le_div_iff_of_pos_right units_one_pos, Int.cast_le]

/-- **The rank orders the numbers by their values.** -/
theorem value_le_value_iff : x.value ≤ y.value ↔ x.rank ≤ y.rank :=
  value_le_value_iff_signedUnits.trans signedUnits_le_iff

/-- No infinity is finite. -/
theorem isFinite_infinity (negative : Bool) : (infinity negative).isFinite = false :=
  decide_eq_false (Nat.lt_irrefl infinite)

/-- No NaN is finite. -/
theorem isFinite_nan (negative : Bool) : (nan negative).isFinite = false :=
  decide_eq_false (Nat.not_lt_of_le (Nat.le_add_right infinite (Nat.pow 2 51)))

/-- No finite number is a NaN. -/
theorem isNaN_of_isFinite (h : x.isFinite) : x.isNaN = false := by
  rw [isFinite, decide_eq_true_iff] at h
  rw [isNaN, decide_eq_false_iff_not]
  omega

end CodeSimilarity.Binary64
