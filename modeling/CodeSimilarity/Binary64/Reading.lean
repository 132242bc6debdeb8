import CodeSimilarity.Binary64.Nearest
import CodeSimilarity.Text.Numeral

set_option autoImplicit false
set_option relaxedAutoImplicit false

/-!
# Reading a double

The number at the front of a text can be written in decimal with an optional point and an
optional power of ten, in hexadecimal after `0x` with an optional point and an optional power of
two, or as a word for infinity or NaN. Leading blanks are skipped, and whatever follows the
longest numeral is ignored.

## Main definitions

* `Significand` — the digits of a numeral, before and after its point.
* `exponentPart` — the exponent that follows the digits.
* `Binary64.read?` — the number at the front of a text.
-/

namespace CodeSimilarity

/-- The digits of a numeral without their point, and the place of the point. -/
structure Significand where
  /-- The digits as one natural number. -/
  value : Nat
  /-- How many of the digits stand after the point. -/
  places : Nat
  /-- The text after the digits. -/
  rest : Text
deriving DecidableEq, Repr

/-- The digits at the front of a text, with at most one point among them; `none` if there is no
digit. -/
def Significand.read? (base : Nat) (s : Text) : Option Significand :=
  let (whole, rest) := Text.digitRun base s
  let (fraction, rest) :=
    match rest with
    | [] => ([], rest)
    | c :: t => if c = Byte.dot then Text.digitRun base t else ([], rest)
  if whole = [] ∧ fraction = [] then none
  else some ⟨Text.digitsValue base (whole ++ fraction), fraction.length, rest⟩

/-- The exponent after `mark`, in either case, at the front of a text. It is zero unless a
digit follows the mark and its sign. -/
def exponentPart (mark : UInt8) : Text → Int
  | [] => 0
  | c :: s =>
    if toLower c = mark then
      let (negative, s) := Text.signed s
      let size := Text.digitsValue 10 (Text.digitRun 10 s).1
      if negative then -(size : Int) else size
    else 0

/-- The text after a hexadecimal mark `0x`, in either case, if the text starts with one. -/
def afterHexMark? : Text → Option Text
  | c :: d :: s => if c = Byte.zero ∧ toLower d = 0x78 then some s else none
  | _ => none

/-- Whether the text starts with an ASCII word in small letters, in either case. -/
def startsWithWord (word : String) (s : Text) : Bool :=
  (Text.ofAscii word).isPrefixOf (s.map toLower)

namespace Binary64

/-- The number that hexadecimal digits and a power of two stand for; each place after the point
counts a sixteenth. -/
def readHex? (negative : Bool) (s : Text) : Option Binary64 :=
  (Significand.read? 16 s).map fun m =>
    ofScaled negative m.value 2 (exponentPart 0x70 m.rest - 4 * m.places)

/-- The number that decimal digits and a power of ten stand for. -/
def readDecimal? (negative : Bool) (s : Text) : Option Binary64 :=
  (Significand.read? 10 s).map fun m =>
    ofScaled negative m.value 10 (exponentPart 0x65 m.rest - m.places)

/-- The number at the front of a text, rounded to the nearest double; `none` if there is none.
A hexadecimal mark without digits after it is read as the zero that it starts with. -/
def read? (s : Text) : Option Binary64 :=
  let (negative, s) := Text.signed (s.dropWhile isBlank)
  if startsWithWord "inf" s then some (infinity negative)
  else if startsWithWord "nan" s then some (nan negative)
  else ((afterHexMark? s).bind (readHex? negative)).or (readDecimal? negative s)

end Binary64

end CodeSimilarity
