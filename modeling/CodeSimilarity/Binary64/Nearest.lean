import CodeSimilarity.Binary64.Basic

set_option autoImplicit false
set_option relaxedAutoImplicit false

/-!
# Rounding to the nearest double

## Main definitions

* `roundHalfEven` — the integer nearest to a quotient.
* `Binary64.ofRatio` — the number nearest to a quotient of natural numbers.
* `Binary64.ofScaled` — the number nearest to `n * base ^ exponent`.

## Main results

* `roundHalfEven_near` — rounding moves a quotient by at most one half.

## Design

Measured in units of the least positive number, a value of at most 53 bits is a number itself
when it is rounded to an integer. A longer one is first shortened to 53 bits, and each bit that
goes raises the exponent field by one. As the two fields are one magnitude, a significand that
is rounded up to the next power of two carries into the exponent by itself.
-/

namespace CodeSimilarity

/-- The integer nearest to `num / den`, the even one of two that are equally near. -/
def roundHalfEven (num den : Nat) : Nat :=
  let quotient := num / den
  let remainder := num % den
  if 2 * remainder < den then quotient
  else if den < 2 * remainder then quotient + 1
  else quotient + quotient % 2

/-- The integer lies within one half of the quotient. -/
theorem roundHalfEven_near {num den : Nat} (h : 0 < den) :
    2 * num ≤ 2 * (den * roundHalfEven num den) + den ∧
      2 * (den * roundHalfEven num den) ≤ 2 * num + den := by
  have hdiv := Nat.div_add_mod num den
  have hmod := Nat.mod_lt num h
  unfold roundHalfEven
  dsimp only
  split
  · omega
  · split
    · rw [Nat.mul_add]
      omega
    · rcases Nat.mod_two_eq_zero_or_one (num / den) with he | he <;>
        rw [he, Nat.mul_add] <;> omega

namespace Binary64

/-- The magnitude of the number nearest to `num / den`. -/
def nearestMagnitude (num den : Nat) : Nat :=
  let scaled := num * Nat.pow 2 1074
  let shift := (scaled / den).log2 - 52
  min infinite (shift * Nat.pow 2 52 + roundHalfEven scaled (den * Nat.pow 2 shift))

/-- The number nearest to `num / den`, with the given sign. A quotient that is too large
becomes infinite. -/
def ofRatio (negative : Bool) (num den : Nat) : Binary64 where
  negative := negative
  magnitude := nearestMagnitude num den
  magnitude_lt := Nat.lt_of_le_of_lt (Nat.min_le_left _ _) (by decide)

/-- The number nearest to `n * base ^ exponent`, with the given sign, where `base` is at least
two. The power is not worked out where the result is infinite or zero whatever its digits. -/
def ofScaled (negative : Bool) (n base : Nat) (exponent : Int) : Binary64 :=
  if n = 0 then zero negative
  else if 0 ≤ exponent then
    if 1024 ≤ base.log2 * exponent.natAbs then infinity negative
    else ofRatio negative (n * Nat.pow base exponent.natAbs) 1
  else
    if n.log2 + 1076 < base.log2 * exponent.natAbs then zero negative
    else ofRatio negative n (Nat.pow base exponent.natAbs)

end Binary64

end CodeSimilarity
