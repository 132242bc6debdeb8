import CodeSimilarity.Binary64.Writing
import CodeSimilarity.Json.Basic
import CodeSimilarity.Text.CodePoint

set_option autoImplicit false
set_option relaxedAutoImplicit false

/-!
# Printing JSON

## Main definitions

* `Json.quote` — a text as a string literal.
* `Json.print` — a value, indented.

## Implementation notes

A string literal has to be valid UTF-8. Whatever in a text is not the shortest form of a
Unicode scalar value is printed as U+FFFD, the replacement character.
-/

namespace CodeSimilarity.Json

/-- Whether what was read is the shortest form of a Unicode scalar value. -/
def isScalarForm (d : Decoded) : Bool :=
  let n := d.codePoint
  d.wellFormed && !(0xD800 ≤ n && n ≤ 0xDFFF) &&
    match d.width with
    | 1 => true
    | 2 => 0x80 ≤ n
    | 3 => 0x800 ≤ n
    | _ => 0x10000 ≤ n && n ≤ 0x10FFFF

/-- The four-digit escape of a control character. -/
def escapeControl (c : UInt8) : Text :=
  let hex := Text.ofNat 16 c.toNat
  Text.ofAscii "\\u" ++ List.replicate (4 - hex.length) Byte.zero ++ hex

/-- An ASCII character within a string literal. -/
def escape (c : UInt8) : Text :=
  if c = 0x22 ∨ c = 0x5C then [0x5C, c]
  else if c = Byte.newline then Text.ofAscii "\\n"
  else if c = 0x0D then Text.ofAscii "\\r"
  else if c = 0x09 then Text.ofAscii "\\t"
  else if c < Byte.space then escapeControl c
  else [c]

/-- The characters of a text within a string literal, given how the text is read. -/
def quoteDecoded : List Decoded → Text → Text
  | [], _ => []
  | d :: ds, s =>
    let shown :=
      if isScalarForm d then (s.take d.width).flatMap fun c => if c < 0x80 then escape c else [c]
      else [0xEF, 0xBF, 0xBD]
    shown ++ quoteDecoded ds (s.drop d.width)

/-- A text as a string literal. -/
def quote (s : Text) : Text :=
  0x22 :: quoteDecoded s.decode s ++ [0x22]

/-- The start of a new line, indented by two spaces a level. -/
def lineBreak (level : Nat) : Text :=
  Byte.newline :: List.replicate (2 * level) Byte.space

/-- Items between two brackets, each on a line of its own; the brackets alone if there is no
item. -/
def bracketed (level : Nat) (left right : UInt8) (items : List Text) : Text :=
  if items = [] then [left, right]
  else
    left :: lineBreak (level + 1) ++ (0x2C :: lineBreak (level + 1)).intercalate items ++
      lineBreak level ++ [right]

mutual

/-- A value whose first line is already indented to a level. A number that is not finite has no
literal and is printed as null. -/
def printAt (level : Nat) : Json → Text
  | .bool b => Text.ofAscii (if b then "true" else "false")
  | .int z => Text.ofInt 10 z
  | .real x => if x.isFinite then x.shortest else Text.ofAscii "null"
  | .text s => quote s
  | .array items => bracketed level 0x5B 0x5D (printItems (level + 1) items)
  | .object fields => bracketed level 0x7B 0x7D (printFields (level + 1) fields)

/-- The items of an array. -/
def printItems (level : Nat) : List Json → List Text
  | [] => []
  | v :: vs => printAt level v :: printItems level vs

/-- The fields of an object. -/
def printFields (level : Nat) : List (String × Json) → List Text
  | [] => []
  | (name, v) :: fs =>
    (quote (Text.ofAscii name) ++ Text.ofAscii ": " ++ printAt level v) :: printFields level fs

end

/-- A value as text. -/
def print (v : Json) : Text :=
  printAt 0 v

end CodeSimilarity.Json
