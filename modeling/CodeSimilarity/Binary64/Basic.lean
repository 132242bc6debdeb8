set_option autoImplicit false
set_option relaxedAutoImplicit false

/-!
# Double-precision numbers

Scores and thresholds are numbers of the IEEE 754 format binary64: a sign, an exponent field of
11 bits and a fraction field of 52 bits.

## Main definitions

* `Binary64` — a sign and a magnitude.
* `Binary64.isFinite`, `Binary64.isNaN` — the kinds of number.
* `Binary64.units` — the value of a finite number as a multiple of the least positive one.
* `Binary64.le`, `Binary64.lt` — the order, in which a NaN is comparable to nothing.

## Design

The exponent field and the fraction field are kept as one natural number, the magnitude. It
orders the numbers of one sign by their value, so comparing needs no decoding, and stepping
from one magnitude to the next steps from one number to the next. All arithmetic on it is
arithmetic of natural numbers. Powers are written with `Nat.pow`, which means the same in every
context.
-/

namespace CodeSimilarity

/-- A number of the format binary64. -/
structure Binary64 where
  /-- Whether the sign bit is set. -/
  negative : Bool
  /-- The exponent field and the fraction field, read as one number. -/
  magnitude : Nat
  /-- The two fields have 63 bits. -/
  magnitude_lt : magnitude < Nat.pow 2 63 := by decide
deriving DecidableEq, Repr

namespace Binary64

/-- The magnitude of the infinities: all bits of the exponent field set, none of the fraction
field. -/
def infinite : Nat := 2047 * Nat.pow 2 52

/-- A signed zero. -/
def zero (negative : Bool) : Binary64 where
  negative := negative
  magnitude := 0

/-- A signed infinity. -/
def infinity (negative : Bool) : Binary64 where
  negative := negative
  magnitude := infinite

/-- A signed quiet NaN. -/
def nan (negative : Bool) : Binary64 where
  negative := negative
  magnitude := infinite + Nat.pow 2 51

instance : OfNat Binary64 0 := ⟨zero false⟩

instance : OfNat Binary64 1 := ⟨{ negative := false, magnitude := 1023 * Nat.pow 2 52 }⟩

/-- The 64 bits, the sign bit first. -/
def bits (x : Binary64) : Nat :=
  (if x.negative then Nat.pow 2 63 else 0) + x.magnitude

/-! ## Kinds and values -/

/-- Whether `x` is neither infinite nor a NaN. -/
def isFinite (x : Binary64) : Bool :=
  x.magnitude < infinite

/-- Whether `x` is a NaN. -/
def isNaN (x : Binary64) : Bool :=
  infinite < x.magnitude

/-- The absolute value of a finite number as a multiple of `2 ^ (-1074)`, the least positive
number. An exponent field of zero stands for the same scale as one, without the leading bit. -/
def units (x : Binary64) : Nat :=
  let exponent := x.magnitude / Nat.pow 2 52
  let fraction := x.magnitude % Nat.pow 2 52
  if exponent = 0 then fraction else (Nat.pow 2 52 + fraction) * Nat.pow 2 (exponent - 1)

/-! ## Order -/

/-- The place of `x` in the order of the numbers that are not NaN; both zeros have place 0. -/
def rank (x : Binary64) : Int :=
  if x.negative then -(x.magnitude : Int) else x.magnitude

/-- Whether `x` is at most `y`; false if either is a NaN. -/
def le (x y : Binary64) : Bool :=
  !x.isNaN && !y.isNaN && x.rank ≤ y.rank

/-- Whether `x` is less than `y`; false if either is a NaN. -/
def lt (x y : Binary64) : Bool :=
  !x.isNaN && !y.isNaN && x.rank < y.rank

end Binary64

end CodeSimilarity
