import CodeSimilarity.Text.Basic

set_option autoImplicit false
set_option relaxedAutoImplicit false

/-!
# Pieces of a line

A line falls into pieces: its maximal runs of word bytes, and each other byte on its own.

## Main definitions

* `Text.pieces` — the pieces of a text, in order.

## Main results

* `Text.flatten_pieces` — the pieces joined give the text back.
-/

namespace CodeSimilarity.Text

/-- Puts `c` before a list of pieces: a word byte joins a first piece that is a word, any other
byte is a piece of its own. -/
def pushPiece (c : UInt8) : List Text → List Text
  | (d :: w) :: ps => if isWord c && isWord d then (c :: d :: w) :: ps else [c] :: (d :: w) :: ps
  | ps => [c] :: ps

/-- The maximal runs of word bytes and the single other bytes of a text, in order. -/
def pieces (s : Text) : List Text :=
  s.foldr pushPiece []

/-- The empty text has no pieces. -/
@[simp] theorem pieces_nil : pieces [] = [] := rfl

/-- The first byte joins the first piece or is one by itself, as `pushPiece` says. -/
@[simp] theorem pieces_cons (c : UInt8) (s : Text) :
    pieces (c :: s) = pushPiece c (pieces s) := rfl

/-- Putting a byte before pieces puts it before the text that they make up. -/
@[simp] theorem flatten_pushPiece (c : UInt8) (ps : List Text) :
    (pushPiece c ps).flatten = c :: ps.flatten := by
  unfold pushPiece
  split
  · split <;> simp
  · simp

/-- The pieces joined give the text back. -/
@[simp] theorem flatten_pieces (s : Text) : (pieces s).flatten = s := by
  induction s with
  | nil => rfl
  | cons c s ih => rw [pieces_cons, flatten_pushPiece, ih]

end CodeSimilarity.Text
