import CodeSimilarity.Source.Comment
import CodeSimilarity.Source.Identifier

set_option autoImplicit false
set_option relaxedAutoImplicit false

/-!
# The normal form of a document

Two documents are compared by their normal forms. The normal form drops what does not bear on
structure: comments, layout, blank lines and the choice of names.

## Main definitions

* `codeLine` — one raw line without comments and surplus blanks.
* `codeLines` — the lines of a document that hold code.
* `normalizeLines` — these lines with placeholders for identifiers.
* `normalize` — the normal form of a text.

## Design

Comments are taken out of the whole document before names are replaced. The names are numbered
over the lines that survive, so the two passes do not meet and each carries one state of its
own: the first whether a block comment is open, the second the names met so far.
-/

namespace CodeSimilarity

/-- A text, unless it is empty. -/
def nonempty? (s : Text) : Option Text :=
  if s = [] then none else some s

/-- What is left of a raw line without comments and surplus blanks, if anything, and whether a
block comment is open after it. A blank line leaves the flag as it is. -/
def codeLine (inBlock : Bool) (raw : Text) : Option Text × Bool :=
  match nonempty? raw.trim with
  | none => (none, inBlock)
  | some line =>
    let (code, inBlock') := Comment.strip inBlock line
    (code.bind fun s => (nonempty? s.trim).map Text.collapse, inBlock')

/-- The lines that hold code, without comments and surplus blanks, where `inBlock` says whether
a block comment is open before the first one. -/
def codeLines (inBlock : Bool) : List Text → List Text
  | [] => []
  | raw :: raws =>
    match codeLine inBlock raw with
    | (none, inBlock') => codeLines inBlock' raws
    | (some line, inBlock') => line :: codeLines inBlock' raws

/-- The normal form of a document that is given by its raw lines. -/
def normalizeLines (raws : List Text) : List Text :=
  Naming.canonicalizeLines {} (codeLines false raws)

/-- The normal form of a text. -/
def normalize (text : Text) : List Text :=
  normalizeLines text.lines

end CodeSimilarity
