import CodeSimilarity.Text.Basic

set_option autoImplicit false
set_option relaxedAutoImplicit false

/-!
# Numerals

Positional numerals, written in small letters without leading zeros, and read from any run of
digits.

## Main definitions

* `Text.digit` — the byte that a digit is written as.
* `Text.ofNat`, `Text.ofInt` — the numeral of a number in a base up to sixteen.
* `Text.digit?` — the value of a digit, letters of either case counting from ten.
* `Text.digitRun` — the digits at the front of a text and what follows them.
* `Text.digitsValue` — the number that a run of digits stands for.

## Main results

* `Text.ofNat_of_lt`, `Text.ofNat_of_le` — the last digit of a numeral and what stands before it.
-/

namespace CodeSimilarity.Text

/-- The digit of value `v`, a small letter from ten on. -/
def digit (v : Nat) : UInt8 :=
  (Nat.digitChar v).toUInt8

/-- The numeral of a natural number. -/
def ofNat (base n : Nat) : Text :=
  (Nat.toDigits base n).map Char.toUInt8

/-- The numeral of an integer: a minus sign stands before the numeral of a negative one. -/
def ofInt (base : Nat) (z : Int) : Text :=
  if z < 0 then Byte.minus :: ofNat base z.natAbs else ofNat base z.natAbs

/-- A number below the base is one digit. -/
theorem ofNat_of_lt {base n : Nat} (h : n < base) : ofNat base n = [digit n] := by
  rw [ofNat, Nat.toDigits_of_lt_base h]
  rfl

/-- The last digit of a number is its remainder by the base. -/
theorem ofNat_of_le {base n : Nat} (hbase : 1 < base) (h : base ≤ n) :
    ofNat base n = ofNat base (n / base) ++ [digit (n % base)] := by
  rw [ofNat, Nat.toDigits_of_base_le hbase h, List.map_append]
  rfl

/-- A number is written with as many bytes as it has digits. -/
theorem length_ofNat (base n : Nat) : (ofNat base n).length = (Nat.toDigits base n).length :=
  List.length_map _

/-- Every number takes a digit. -/
theorem length_ofNat_pos (base n : Nat) : 0 < (ofNat base n).length := by
  rw [length_ofNat]
  exact Nat.length_toDigits_pos

/-- The value of a digit or letter, ten for `a` and `A`. -/
def digitValue? (c : UInt8) : Option Nat :=
  if isDigit c then some (c.toNat - 0x30)
  else if isWordStart c && c != 0x5F then some ((toLower c).toNat - 0x57)
  else none

/-- The value of `c` as a digit in the given base, if it is one. -/
def digit? (base : Nat) (c : UInt8) : Option Nat :=
  (digitValue? c).filter (· < base)

/-- The values of the longest run of digits at the front of a text, and what follows it. -/
def digitRun (base : Nat) : Text → List Nat × Text
  | [] => ([], [])
  | c :: s =>
    match digit? base c with
    | none => ([], c :: s)
    | some d => (d :: (digitRun base s).1, (digitRun base s).2)

/-- The number that a run of digit values stands for. -/
def digitsValue (base : Nat) (ds : List Nat) : Nat :=
  ds.foldl (fun n d => base * n + d) 0

/-- Takes a sign off the front of a text; `true` is a minus sign. -/
def signed : Text → Bool × Text
  | [] => (false, [])
  | c :: s =>
    if c = Byte.minus then (true, s)
    else if c = Byte.plus then (false, s)
    else (false, c :: s)

end CodeSimilarity.Text
