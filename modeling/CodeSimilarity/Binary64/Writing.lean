import CodeSimilarity.Binary64.Nearest
import CodeSimilarity.Text.Numeral

set_option autoImplicit false
set_option relaxedAutoImplicit false

/-!
# Writing a double

A number is written from its leading decimal digits. These are worked out exactly: a finite
number times `10 ^ 400` is at least one, so the integer part of the product shows the place of
the leading digit.

## Main definitions

* `Binary64.leadingDigits` — a number rounded to a count of significant digits.
* `Binary64.general` — a number with a given precision.
* `Binary64.shortest` — a number with the fewest digits that read back.
-/

namespace CodeSimilarity

/-- Leading decimal digits: `digits * 10 ^ (exponent + 1 - count)`, where `count` is the number
of digits. -/
structure LeadingDigits where
  /-- The digits as one natural number. -/
  digits : Nat
  /-- The power of ten of the first digit. -/
  exponent : Int
deriving DecidableEq, Repr

namespace LeadingDigits

/-- An exponent with its sign and at least two digits. -/
def exponentText (e : Int) : Text :=
  let size := Text.ofNat 10 e.natAbs
  (if e < 0 then Byte.minus else Byte.plus) ::
    List.replicate (2 - size.length) Byte.zero ++ size

/-- Digits with a point before the last ones; no point if none come after it. -/
def withPoint (whole fraction : Text) : Text :=
  if fraction = [] then whole else whole ++ Byte.dot :: fraction

/-- The digits written out, without trailing zeros after the point: positionally if the
exponent is at least -4 and below `limit`, otherwise with one digit before the point and an
exponent. -/
def layout (limit : Nat) (d : LeadingDigits) : Text :=
  let ds := ((Text.ofNat 10 d.digits).reverse.dropWhile (· = Byte.zero)).reverse
  if d.exponent < -4 ∨ (limit : Int) ≤ d.exponent then
    withPoint (ds.take 1) (ds.drop 1) ++ 0x65 :: exponentText d.exponent
  else if d.exponent < 0 then
    withPoint [Byte.zero] (List.replicate (d.exponent.natAbs - 1) Byte.zero ++ ds)
  else
    let whole := d.exponent.natAbs + 1
    withPoint (ds.take whole ++ List.replicate (whole - ds.length) Byte.zero) (ds.drop whole)

end LeadingDigits

namespace Binary64

/-- The absolute value of a finite number other than zero, rounded to `count` significant
digits, an exact half to the even digit. -/
def leadingDigits (count : Nat) (x : Binary64) : LeadingDigits :=
  let scaled := x.units * Nat.pow 10 400
  let size := (Nat.toDigits 10 (scaled / Nat.pow 2 1074)).length
  let digits := roundHalfEven scaled (Nat.pow 2 1074 * Nat.pow 10 (size - count))
  if digits = Nat.pow 10 count then ⟨Nat.pow 10 (count - 1), size - 400⟩ else ⟨digits, size - 401⟩

/-- The sign of a number that is written: a minus sign for a set sign bit. -/
def signText (x : Binary64) : Text :=
  if x.negative then [Byte.minus] else []

/-- A number with `precision` significant digits: positional where it has at most as many
digits before its point and at most four zeros after it, else with an exponent; trailing zeros
are dropped. -/
def general (precision : Nat) (x : Binary64) : Text :=
  x.signText ++
    if x.isNaN then Text.ofAscii "nan"
    else if !x.isFinite then Text.ofAscii "inf"
    else if x.magnitude = 0 then [Byte.zero]
    else (x.leadingDigits precision).layout precision

/-- Whether `count` significant digits of a number read back as the number. -/
def readsBack (x : Binary64) (count : Nat) : Bool :=
  let d := x.leadingDigits count
  ofScaled x.negative d.digits 10 (d.exponent + 1 - count) == x

/-- A finite number with the fewest significant digits that read back; seventeen always do. -/
def shortest (x : Binary64) : Text :=
  x.general (((List.range' 1 16).find? x.readsBack).getD 17)

end Binary64

end CodeSimilarity
