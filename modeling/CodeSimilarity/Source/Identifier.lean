import CodeSimilarity.Text.Piece
import CodeSimilarity.Text.Numeral

set_option autoImplicit false
set_option relaxedAutoImplicit false

/-!
# Identifiers and their placeholders

To compare documents whatever names they use, every identifier is replaced by a numbered
placeholder. The first name that is met gets the first number, each new name the next one.

## Main definitions

* `isReserved` — the words that keep their spelling.
* `isIdentifier` — the pieces of a line that are replaced.
* `Naming` — the names met so far.
* `Naming.placeholder` — the placeholder of a name, and the naming that knows it.
* `Naming.canonicalize` — a line with placeholders for its identifiers.

## Main results

* `Naming.placeholder_of_some`, `Naming.placeholder_of_none` — the two ways in which a
  placeholder is found.

## Design

A naming keeps its names in the order of their first request, so the number of a name is its
place in that order and no numbers need to be stored.
-/

namespace CodeSimilarity

/-- The words that keep their spelling: the keywords of the source language, the words of its
preprocessor, and the library names that are common in student programs. -/
def reservedWords : List Text :=
  ["auto", "break", "case", "char", "const", "continue", "default", "do", "double", "else",
   "enum", "extern", "float", "for", "goto", "if", "int", "long", "register", "return", "short",
   "signed", "sizeof", "static", "struct", "switch", "typedef", "union", "unsigned", "void",
   "volatile", "while", "class", "namespace", "try", "catch", "new", "delete", "this",
   "template", "nullptr", "true", "false", "bool", "private", "protected", "public", "virtual",
   "friend", "operator", "using", "throw",
   "include", "define", "ifdef", "ifndef", "endif", "pragma",
   "std", "string", "vector", "map", "set", "list", "queue", "stack", "pair", "cout", "cin",
   "cerr", "endl"].map Text.ofAscii

/-- Whether a word keeps its spelling. -/
def isReserved (word : Text) : Bool :=
  reservedWords.contains word

/-- Whether a piece of a line is an identifier: a word that neither starts with a digit nor is
reserved. -/
def isIdentifier (piece : Text) : Bool :=
  piece.head?.any isWordStart && !isReserved piece

/-- The names met so far, in the order of their first request. -/
structure Naming where
  /-- The number of the first name. -/
  first : Int := 1
  /-- The names, the earliest first. -/
  names : List Text := []
deriving DecidableEq, Repr

namespace Naming

/-- The number that the next new name gets. -/
def next (n : Naming) : Int :=
  n.first + n.names.length

/-- The placeholder with a given number. -/
def label (number : Int) : Text :=
  Text.ofAscii "VAR_" ++ Text.ofInt 10 number

/-- The number of a name, if it has been met. -/
def number? (n : Naming) (name : Text) : Option Int :=
  (n.names.idxOf? name).map fun (k : Nat) => n.first + (k : Int)

/-- The placeholder of a name, and the naming that knows it. A name that is met for the first
time gets the next number. -/
def placeholder (n : Naming) (name : Text) : Text × Naming :=
  match n.number? name with
  | some k => (label k, n)
  | none => (label n.next, { n with names := n.names ++ [name] })

/-- A name that has been met keeps its number, and nothing changes. -/
theorem placeholder_of_some {n : Naming} {name : Text} {k : Int} (h : n.number? name = some k) :
    n.placeholder name = (label k, n) := by
  simp [placeholder, h]

/-- A new name gets the next number. -/
theorem placeholder_of_none {n : Naming} {name : Text} (h : n.number? name = none) :
    n.placeholder name = (label n.next, { n with names := n.names ++ [name] }) := by
  simp [placeholder, h]

/-- Whether a name has a number says whether it has been met. -/
theorem number?_eq_none_iff {n : Naming} {name : Text} :
    n.number? name = none ↔ name ∉ n.names := by
  simp [number?]

/-- The pieces of a line with placeholders for the identifiers among them. -/
def canonicalizePieces (n : Naming) : List Text → List Text × Naming
  | [] => ([], n)
  | p :: ps =>
    if isIdentifier p then
      let (label, n') := n.placeholder p
      let (rest, n'') := canonicalizePieces n' ps
      (label :: rest, n'')
    else
      let (rest, n') := canonicalizePieces n ps
      (p :: rest, n')

/-- A line with placeholders for its identifiers, and the naming after it. -/
def canonicalize (n : Naming) (line : Text) : Text × Naming :=
  let (pieces, n') := n.canonicalizePieces line.pieces
  (pieces.flatten, n')

/-- The lines of a document with placeholders for their identifiers. -/
def canonicalizeLines (n : Naming) : List Text → List Text
  | [] => []
  | line :: lines => (n.canonicalize line).1 :: (n.canonicalize line).2.canonicalizeLines lines

end Naming

end CodeSimilarity
