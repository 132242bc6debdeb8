import CodeSimilarity.Proofs.WrittenDoubles
import Mathlib.Tactic.FieldSimp

set_option autoImplicit false
set_option relaxedAutoImplicit false

/-!
# Doubles that read back

A number is rounded to one double only, and from any double the next ones are some way off. Seventeen
significant digits miss a double by less than half of that way, so they are read as this double. The
shortest form of a double has as few digits as can be read back when the double is rounded to them.

## Main results

* `Binary64.IsRounded.unique` — a number is rounded to one double only.
* `Binary64.abs_signedUnits_le` — how far apart two doubles are at least.
* `Binary64.isRounded_of_near` — what is close enough to a finite double is rounded to it.
* `Binary64.near_written` — how close seventeen digits are.
* `Binary64.read?_general_eq_some_iff` — when digits are read back.
* `Binary64.read?_shortest` — a finite double is read back from its shortest form.
-/

namespace CodeSimilarity.Binary64

open Text

variable {x y : Binary64} {q : ℚ} {negative : Bool}

/-! ## One double only -/

/-- Doubles with the same sign and the same value are the same. -/
theorem eq_of_value_eq (hsign : x.negative = y.negative) (hvalue : x.value = y.value) : x = y := by
  have hrank : x.rank = y.rank :=
    le_antisymm (value_le_value_iff.1 hvalue.le) (value_le_value_iff.1 hvalue.ge)
  have hmagnitude : x.magnitude = y.magnitude := by
    unfold rank at hrank
    rw [hsign] at hrank
    split at hrank <;> omega
  cases x
  cases y
  simp_all

/-- The greater value has the greater rank. -/
theorem value_lt_value_iff : x.value < y.value ↔ x.rank < y.rank := by
  rw [← not_le, value_le_value_iff, not_le]

/-- Every rank of a finite number is taken. -/
theorem exists_rank_eq {r : ℤ} (hr : r.natAbs < infinite) : ∃ y : Binary64, y.isFinite ∧ y.rank = r := by
  have hlt : r.natAbs < Nat.pow 2 63 := hr.trans (by decide +kernel)
  refine ⟨⟨decide (r < 0), r.natAbs, hlt⟩, decide_eq_true hr, ?_⟩
  unfold rank
  dsimp only
  split
  · next hneg =>
    have hneg := of_decide_eq_true hneg
    omega
  · next hneg =>
    have hneg := mt decide_eq_true hneg
    omega

/-- Between two finite doubles with even significands there is another one. -/
theorem exists_between (hx : x.isFinite) (hy : y.isFinite) (hxe : x.magnitude % 2 = 0)
    (hye : y.magnitude % 2 = 0) (hlt : x.value < y.value) :
    ∃ z : Binary64, z.isFinite ∧ x.value < z.value ∧ z.value < y.value := by
  rw [value_lt_value_iff] at hlt
  have hx' : x.magnitude < infinite := of_decide_eq_true hx
  have hy' : y.magnitude < infinite := of_decide_eq_true hy
  have hbetween : x.rank + 1 < y.rank ∧ (x.rank + 1).natAbs < infinite := by
    unfold rank at hlt ⊢
    cases hxs : x.negative <;> cases hys : y.negative <;>
      simp only [hxs, hys, Bool.false_eq_true, if_true, if_false] at hlt ⊢ <;> omega
  obtain ⟨z, hz, hrank⟩ := exists_rank_eq hbetween.2
  refine ⟨z, hz, value_lt_value_iff.2 ?_, value_lt_value_iff.2 ?_⟩ <;> rw [hrank]
  · exact lt_add_one _
  · exact hbetween.1

/-- **The nearest double has one value only.** Of two that are equally near, both would have even
significands, and there would be a nearer one between them. -/
theorem IsNearest.value_unique (hx : x.IsNearest q) (hy : y.IsNearest q) : x.value = y.value := by
  by_contra hne
  wlog hlt : x.value < y.value generalizing x y
  · exact this hy hx (Ne.symm hne) (lt_of_le_of_ne (not_lt.1 hlt) (Ne.symm hne))
  have hequal : |y.value - q| = |x.value - q| :=
    le_antisymm (hy.nearest x hx.isFinite) (hx.nearest y hy.isFinite)
  obtain ⟨z, hz, hxz, hzy⟩ := exists_between hx.isFinite hy.isFinite
    (hx.even y hy.isFinite (Ne.symm hne) hequal) (hy.even x hx.isFinite hne hequal.symm) hlt
  have hmiddle : y.value - q = q - x.value := by
    rcases abs_eq_abs.1 hequal with h | h <;> linarith
  have hfar : |x.value - q| = q - x.value := by
    rw [abs_sub_comm]
    exact abs_of_nonneg (by linarith)
  have hnear : |z.value - q| < q - x.value := abs_lt.2 ⟨by linarith, by linarith⟩
  exact absurd (hx.nearest z hz) (not_le.2 (hfar ▸ hnear))

/-- **A number is rounded to one double only.** -/
theorem IsRounded.unique (hx : x.IsRounded negative q) (hy : y.IsRounded negative q) : x = y := by
  rcases lt_or_ge q overflow with hlt | hge
  · exact eq_of_value_eq (hx.negative_eq.trans hy.negative_eq.symm)
      ((hx.isNearest hlt).value_unique (hy.isNearest hlt))
  · rw [hx.eq_infinity hge, hy.eq_infinity hge]

/-! ## The way to the next double -/

/-- Two integers that differ are one step apart, on any scale. -/
private theorem le_abs_sub_of_ne {a b : ℤ} {step : ℕ} (h : b * 2 ^ step ≠ a * 2 ^ step) :
    (2 : ℤ) ^ step ≤ |b * 2 ^ step - a * 2 ^ step| := by
  rw [← sub_mul, abs_mul, abs_of_pos (by positivity : (0 : ℤ) < 2 ^ step)]
  have hne : b - a ≠ 0 := fun hzero => h (by rw [sub_eq_zero.1 hzero])
  exact le_mul_of_one_le_left (by positivity) (Int.one_le_abs hne)

/-- The next double after one that is not negative is at least a part of `2 ^ 53` of it away. -/
theorem signedUnits_le (hsign : x.negative = false) (hne : y.signedUnits ≠ x.signedUnits) :
    x.signedUnits ≤ 2 ^ 53 * |y.signedUnits - x.signedUnits| := by
  obtain ⟨i, r, hr, hir, hx⟩ := exists_significand x
  have hunits : x.signedUnits = r * 2 ^ i := by
    rw [signedUnits, if_neg (by simp [hsign]), units_eq hr.le hir hx]
    push_cast
    rfl
  have hpow : (0 : ℤ) < 2 ^ i := by positivity
  have hsmall : (r : ℤ) * 2 ^ i ≤ 2 ^ 53 * 2 ^ i :=
    mul_le_mul_of_nonneg_right (by exact_mod_cast hr.le) hpow.le
  rw [hunits] at hne ⊢
  have hstep : (2 : ℤ) ^ i ≤ |y.signedUnits - r * 2 ^ i| →
      (r : ℤ) * 2 ^ i ≤ 2 ^ 53 * |y.signedUnits - r * 2 ^ i| := fun h =>
    hsmall.trans (mul_le_mul_of_nonneg_left h (by norm_num))
  rcases exists_multiple_or_lt y i with ⟨k, hk⟩ | ⟨hi, hy⟩
  · refine hstep ?_
    rw [hk] at hne ⊢
    exact le_abs_sub_of_ne hne
  · -- a significand of 53 bits that is not the least one has its next double on the same scale
    have hlow : (2 : ℤ) ^ 52 ≤ r := by exact_mod_cast hir.resolve_left hi.ne'
    have hbelow : |y.signedUnits - r * 2 ^ i| = r * 2 ^ i - y.signedUnits := by
      rw [abs_sub_comm]
      exact abs_of_nonneg (by nlinarith)
    rcases hlow.lt_or_eq with hlow | hlow
    · refine hstep ?_
      rw [hbelow]
      nlinarith
    · obtain ⟨j, rfl⟩ : ∃ j, i = j + 1 := ⟨i - 1, by omega⟩
      have hscale : (r : ℤ) * 2 ^ (j + 1) = 2 ^ 53 * 2 ^ j := by rw [← hlow]; ring
      rw [hscale] at hne hbelow ⊢
      have hpow' : (0 : ℤ) < 2 ^ j := by positivity
      refine mul_le_mul_of_nonneg_left ?_ (by norm_num)
      rcases exists_multiple_or_lt y j with ⟨k, hk⟩ | ⟨-, hy'⟩
      · rw [hk] at hne ⊢
        exact le_abs_sub_of_ne (by exact_mod_cast hne)
      · rw [hbelow]
        nlinarith

/-- **The next double is some way off**: at least a part of `2 ^ 53` of the number itself. -/
theorem abs_signedUnits_le (hne : y.signedUnits ≠ x.signedUnits) :
    |x.signedUnits| ≤ 2 ^ 53 * |y.signedUnits - x.signedUnits| := by
  cases hsign : x.negative with
  | false =>
    have hnonneg : 0 ≤ x.signedUnits := by
      rw [signedUnits, if_neg (by simp [hsign])]
      exact Int.natCast_nonneg _
    rw [abs_of_nonneg hnonneg]
    exact signedUnits_le hsign hne
  | true =>
    have hnonpos : x.signedUnits ≤ 0 := by
      rw [signedUnits, if_pos hsign]
      exact Int.neg_nonpos_of_nonneg (Int.natCast_nonneg _)
    have hflipped := signedUnits_le (x := x.flip) (y := y.flip) (by simp [flip, hsign])
      (by rwa [signedUnits_flip, signedUnits_flip, Ne, neg_inj])
    rwa [signedUnits_flip, signedUnits_flip, ← neg_sub', abs_neg, ← abs_of_nonpos hnonpos]
      at hflipped

/-- The same in values. -/
theorem abs_value_le (hne : y.value ≠ x.value) : |x.value| ≤ 2 ^ 53 * |y.value - x.value| := by
  have hunits : y.signedUnits ≠ x.signedUnits := fun h => hne (by rw [value, value, h])
  have hle : (|x.signedUnits| : ℤ) ≤ 2 ^ 53 * |y.signedUnits - x.signedUnits| :=
    abs_signedUnits_le hunits
  rw [value, value, ← sub_div, abs_div, abs_div, abs_of_pos units_one_pos, ← mul_div_assoc,
    div_le_div_iff_of_pos_right units_one_pos, ← Int.cast_sub, ← Int.cast_abs, ← Int.cast_abs]
  exact_mod_cast hle

/-- What is close to a double is nearest to it. -/
theorem isNearest_of_near (hx : x.isFinite) (h : 2 ^ 54 * |q - x.value| < |x.value|) :
    x.IsNearest q := by
  have hcloser : ∀ y : Binary64, y.value ≠ x.value → |x.value - q| < |y.value - q| := by
    intro y hne
    have hgap := abs_value_le hne
    have htriangle := abs_sub_le y.value q x.value
    rw [abs_sub_comm x.value q]
    linarith
  refine ⟨hx, fun y _ => ?_, fun y _ hne heq => ?_⟩
  · by_cases hne : y.value = x.value
    · rw [hne]
    · exact (hcloser y hne).le
  · exact absurd heq (hcloser y hne).ne'

/-- The absolute value of a double is what its units make up. -/
theorem abs_value (x : Binary64) : |x.value| = x.units / (Nat.pow 2 1074 : ℕ) := by
  have hunits : |x.signedUnits| = (x.units : ℤ) := by
    unfold signedUnits
    split
    · rw [abs_neg, Nat.abs_cast]
    · exact Nat.abs_cast _
  rw [value, abs_div, abs_of_pos units_one_pos, ← Int.cast_abs, hunits, Int.cast_natCast]

/-- The value of a double has its sign. -/
theorem value_eq_abs (x : Binary64) : x.value = if x.negative then -|x.value| else |x.value| := by
  rw [abs_value, value, signedUnits]
  split
  · rw [Int.cast_neg, neg_div, Int.cast_natCast]
  · rw [Int.cast_natCast]

/-- The greatest finite double has a significand of 53 bits, all of them set. -/
theorem units_le (hx : x.isFinite) : x.units ≤ (2 ^ 53 - 1) * 2 ^ 2045 := by
  obtain ⟨shift, r, hr, hshift, hmagnitude⟩ := exists_significand x
  have hfinite : x.magnitude < 2047 * 2 ^ 52 := of_decide_eq_true hx
  rw [units_eq hr.le hshift hmagnitude]
  have hle : shift ≤ 2045 := by omega
  exact Nat.mul_le_mul (Nat.le_sub_one_of_lt hr) (Nat.pow_le_pow_right (by decide) hle)

/-- What is close to a finite double is not too large for the format. -/
theorem lt_overflow_of_near (hx : x.isFinite) (h : 2 ^ 54 * |q - (|x.value|)| < |x.value|) :
    q < overflow := by
  have hmax : |x.value| ≤ ((2 ^ 53 - 1) * 2 ^ 971 : ℕ) := by
    have hsplit : (2 ^ 53 - 1) * 2 ^ 2045 = (2 ^ 53 - 1) * 2 ^ 971 * Nat.pow 2 1074 := by
      decide +kernel
    rw [abs_value, div_le_iff₀ units_one_pos]
    exact_mod_cast hsplit ▸ units_le hx
  have hoverflow : (2 ^ 54 + 1) * ((2 ^ 53 - 1) * 2 ^ 971) ≤ 2 ^ 54 * overflow := by decide +kernel
  have hoverflow' : ((2 ^ 54 + 1 : ℚ)) * ((2 ^ 53 - 1) * 2 ^ 971 : ℕ) ≤ 2 ^ 54 * overflow := by
    exact_mod_cast hoverflow
  have hle : q - |x.value| ≤ |q - (|x.value|)| := le_abs_self _
  linarith

/-- **What is close enough to a finite double is rounded to it**, with its sign. -/
theorem isRounded_of_near (hx : x.isFinite) (h : 2 ^ 54 * |q - (|x.value|)| < |x.value|) :
    x.IsRounded x.negative q where
  negative_eq := rfl
  isNearest _ := by
    have hdistance : |(if x.negative then -q else q) - x.value| = |q - (|x.value|)| := by
      have hvalue := value_eq_abs x
      generalize |x.value| = a at hvalue ⊢
      rw [hvalue]
      split
      · rw [← neg_sub', abs_neg]
      · rfl
    exact isNearest_of_near hx (hdistance.symm ▸ h)
  eq_infinity hge := absurd (lt_overflow_of_near hx h) (not_lt.2 hge)

/-! ## Seventeen digits -/

/-- **Seventeen digits are close to a double.** -/
theorem near_written (hx : x.units ≠ 0) :
    2 * 10 ^ 16 * |x.written 17 - (|x.value|)| ≤ |x.value| := by
  obtain ⟨-, -, hvalue⟩ := leadingDigits_spec (by decide : 0 < 17) le_rfl hx
  obtain ⟨hlow, -⟩ := pow_size_bounds hx
  obtain ⟨k, hk⟩ : ∃ k, x.size = k + 17 := ⟨_, (Nat.sub_add_cancel (seventeen_le_size hx)).symm⟩
  have hround := two_mul_abs_roundHalfEven_sub_le (x.units * Nat.pow 10 400)
    (show 0 < Nat.pow 2 1074 * 10 ^ (x.size - 17) from
      Nat.mul_pos (Nat.two_pow_pos 1074) (Nat.pow_pos (by decide)))
  change 2 * |(x.roundedDigits 17 : ℤ) * _ - _| ≤ _ at hround
  rw [written, if_neg hx, hvalue, abs_value, hk]
  rw [hk] at hlow hround
  have hpos : (0 : ℚ) < (Nat.pow 2 1074 : ℕ) := units_one_pos
  have hplaces : ((Nat.pow 10 400 : ℕ) : ℚ) = 10 ^ 400 := Nat.cast_pow 10 400
  generalize x.roundedDigits 17 = r at hround ⊢
  generalize Nat.pow 10 400 = places at hlow hround hplaces
  generalize Nat.pow 2 1074 = one at hlow hround hpos ⊢
  simp only [Nat.add_sub_cancel, show k + 17 - 1 = k + 16 by omega] at hlow hround
  have hplaces' : (0 : ℚ) < places := hplaces ▸ by positivity
  have hwritten : (r : ℚ) * 10 ^ (((k + 17 : ℕ) : ℤ) - 400 - (17 : ℕ)) - x.units / one =
      ((r * (one * 10 ^ k : ℕ) - (x.units * places : ℕ) : ℤ) : ℚ) / (one * places) := by
    have hexponent : ((k + 17 : ℕ) : ℤ) - 400 - (17 : ℕ) = k - (400 : ℕ) := by push_cast; ring
    rw [hexponent, zpow_sub₀ (by norm_num), zpow_natCast, zpow_natCast, ← hplaces]
    push_cast
    field_simp
  generalize hdiff : (r : ℤ) * (one * 10 ^ k : ℕ) - (x.units * places : ℕ) = diff at hround hwritten
  have hclose : 2 * 10 ^ 16 * |diff| ≤ (x.units * places : ℕ) := by
    calc 2 * 10 ^ 16 * |diff| = 10 ^ 16 * (2 * |diff|) := by ring
      _ ≤ 10 ^ 16 * ((one * 10 ^ k : ℕ) : ℤ) := mul_le_mul_of_nonneg_left hround (by norm_num)
      _ = ((one * 10 ^ (k + 16) : ℕ) : ℤ) := by push_cast; ring
      _ ≤ (x.units * places : ℕ) := by exact_mod_cast hlow
  rw [hwritten, abs_div, abs_of_pos (mul_pos hpos hplaces'), ← mul_div_assoc,
    ← mul_div_mul_right (x.units : ℚ) one hplaces'.ne',
    div_le_div_iff_of_pos_right (mul_pos hpos hplaces'), ← Int.cast_abs]
  exact_mod_cast hclose

/-- A zero is what zero is rounded to, with its sign. -/
theorem isRounded_zero (hx : x.units = 0) : x.IsRounded x.negative 0 := by
  have hzero : x = ofScaled x.negative 0 10 0 := by
    have hmagnitude := units_eq_zero_iff.1 hx
    cases x
    simp_all [ofScaled, zero]
  have hrounded := isRounded_ofScaled x.negative 0 (by decide : 0 < 10) 0
  rwa [← hzero, Nat.cast_zero, zero_mul] at hrounded

/-- Seventeen digits of a finite double are rounded to it. -/
theorem isRounded_written_seventeen (hx : x.isFinite) : x.IsRounded x.negative (x.written 17) := by
  by_cases hzero : x.units = 0
  · rw [written, if_pos hzero]
    exact isRounded_zero hzero
  · refine isRounded_of_near hx ?_
    have hnear := near_written hzero
    have hpos : 0 < |x.value| := by
      rw [abs_value]
      exact div_pos (by exact_mod_cast Nat.pos_of_ne_zero hzero) units_one_pos
    rcases (abs_nonneg (x.written 17 - (|x.value|))).eq_or_lt with hexact | hinexact
    · rwa [← hexact, mul_zero]
    · linarith

/-! ## Reading back -/

/-- The digits that are written for a zero are zero. -/
theorem digits_leadingDigits_of_zero {count : ℕ} (hx : x.units = 0) :
    (x.leadingDigits count).digits = 0 := by
  have hdigits : roundHalfEven (x.units * Nat.pow 10 400) = fun _ => 0 := by
    funext den
    simp [hx, roundHalfEven]
  have hpow : 0 ≠ Nat.pow 10 count := (Nat.pow_pos (by decide)).ne
  simp only [leadingDigits, hdigits, if_neg hpow]

/-- What the leading digits of a double are read as is what they are rounded to. -/
theorem isRounded_leadingDigits {count : ℕ} (hcount : 0 < count) (hle : count ≤ 17) :
    (ofScaled x.negative (x.leadingDigits count).digits 10
      ((x.leadingDigits count).exponent + 1 - count)).IsRounded x.negative (x.written count) := by
  have hrounded := isRounded_ofScaled x.negative (x.leadingDigits count).digits
    (by decide : 0 < 10) ((x.leadingDigits count).exponent + 1 - count)
  by_cases hzero : x.units = 0
  · rw [digits_leadingDigits_of_zero hzero] at hrounded ⊢
    rwa [Nat.cast_zero, zero_mul, ← if_pos (c := x.units = 0) (t := (0 : ℚ)) hzero] at hrounded
  · obtain ⟨hlength, -, -⟩ := leadingDigits_spec hcount hle hzero
    rw [written, if_neg hzero, LeadingDigits.value, hlength]
    exact_mod_cast hrounded

/-- **Digits are read back** exactly if the search for the fewest digits finds them to be. -/
theorem read?_general_eq_some_iff {count : ℕ} (hcount : 0 < count) (hle : count ≤ 17)
    (hx : x.isFinite) : read? (x.general count) = some x ↔ x.readsBack count := by
  have hread := isRounded_leadingDigits (x := x) hcount hle
  obtain ⟨y, hy, hrounded⟩ := read?_of_beginsWithNumber
    (isDecimal_general hcount hle hx).beginsWithNumber
  have hsame := hread.unique hrounded
  rw [hy, Option.some.injEq, readsBack, ← hsame]
  exact beq_iff_eq.symm

/-- The digits of the shortest form are read back, and no fewer ones are. -/
theorem exists_count_shortest (hx : x.isFinite) :
    ∃ count, 0 < count ∧ count ≤ 17 ∧ x.shortest = x.general count ∧
      read? (x.general count) = some x ∧
      ∀ fewer, 0 < fewer → fewer < count → read? (x.general fewer) ≠ some x := by
  rw [shortest]
  cases hfind : (List.range' 1 16).find? x.readsBack with
  | none =>
    refine ⟨17, by decide, le_rfl, rfl, ?_, fun fewer hpos hlt => ?_⟩
    · obtain ⟨y, hy, hrounded⟩ := read?_of_beginsWithNumber
        (isDecimal_general (by decide : 0 < 17) le_rfl hx).beginsWithNumber
      rw [hy, hrounded.unique (isRounded_written_seventeen hx)]
    · rw [Ne, read?_general_eq_some_iff hpos hlt.le hx]
      exact List.find?_eq_none.1 hfind fewer (List.mem_range'_1.2 ⟨hpos, by omega⟩)
  | some count =>
    obtain ⟨hfound, hmem, hfirst⟩ := List.find?_range'_eq_some.1 hfind
    obtain ⟨hpos, hlt⟩ := List.mem_range'_1.1 hmem
    have hle : count ≤ 17 := by omega
    refine ⟨count, hpos, hle, rfl, (read?_general_eq_some_iff hpos hle hx).2 hfound,
      fun fewer hpos' hlt' => ?_⟩
    rw [Ne, read?_general_eq_some_iff hpos' (hlt'.le.trans hle) hx]
    simpa using hfirst fewer hpos' hlt'

/-- **A finite double is read back from its shortest form.** -/
theorem read?_shortest (hx : x.isFinite) : read? x.shortest = some x := by
  obtain ⟨count, -, -, hshortest, hread, -⟩ := exists_count_shortest hx
  rw [hshortest, hread]

end CodeSimilarity.Binary64
