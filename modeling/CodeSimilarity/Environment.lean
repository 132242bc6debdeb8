import CodeSimilarity.Binary64.Reading

set_option autoImplicit false
set_option relaxedAutoImplicit false

/-!
# Environment variables

A setting can be given by an environment variable. A variable that is unset or empty, or whose
text cannot be read as what it should be, leaves the default in place.

## Main definitions

* `Environment` — the variables that the program looks at.
* `readInt?`, `readInt64?` — the integer at the front of a text.
* `Environment.count`, `Environment.real`, `Environment.flag` — the readings of a variable.
-/

namespace CodeSimilarity

/-- The variables that the program looks at, each with its text if it is set. -/
structure Environment where
  /-- The path of a settings file. -/
  settingsFile : Option Text := none
  /-- The least score of a flagged pair. -/
  threshold : Option Text := none
  /-- The number of threads. -/
  threads : Option Text := none
  /-- Whether counts are shown. -/
  debug : Option Text := none
  /-- Whether durations are shown among the counts. -/
  timing : Option Text := none
deriving DecidableEq, Repr

/-- The integer at the front of a text, after any blanks and one sign: the number of the whole
run of digits, however long it is; `none` if there is no digit. -/
def readInt? (s : Text) : Option Int :=
  let (negative, s) := Text.signed (s.dropWhile isBlank)
  match (Text.digitRun 10 s).1 with
  | [] => none
  | ds =>
    let n : Int := Text.digitsValue 10 ds
    some (if negative then -n else n)

/-- The integer at the front of a text as a 64-bit number, the nearest one if it is out of their
range. -/
def readInt64? (s : Text) : Option Int64 :=
  (readInt? s).map Int64.ofIntClamp

namespace Environment

/-- The text of a variable that is set and not empty. -/
def given? (value : Option Text) : Option Text :=
  value.filter (· ≠ [])

/-- A count, which is brought into the range from zero to a million. -/
def count (default : Int) (value : Option Text) : Int :=
  match (given? value).bind readInt64? with
  | none => default
  | some n => max 0 (min n.toInt 1000000)

/-- A finite number. -/
def real (default : Binary64) (value : Option Text) : Binary64 :=
  match (given? value).bind Binary64.read? with
  | none => default
  | some x => if x.isFinite then x else default

/-- The words that switch a flag on. -/
def onWords : List Text := ["true", "yes", "on"].map Text.ofAscii

/-- The words that switch a flag off. -/
def offWords : List Text := ["false", "no", "off"].map Text.ofAscii

/-- A flag. The first character decides if it is `1` or `0`; otherwise the whole text has to be
one of the words for on or off, in either case. -/
def flag (default : Bool) (value : Option Text) : Bool :=
  match given? value with
  | none => default
  | some s =>
    let word := s.map toLower
    if s.head? = some Byte.one then true
    else if s.head? = some Byte.zero then false
    else if onWords.contains word then true
    else if offWords.contains word then false
    else default

end Environment

end CodeSimilarity
