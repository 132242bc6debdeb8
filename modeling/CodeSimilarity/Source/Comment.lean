import CodeSimilarity.Text.Basic

set_option autoImplicit false
set_option relaxedAutoImplicit false

/-!
# Comments

Comments are taken out line by line, with one flag carried from line to line: whether a block
comment is still open. String and character literals have no say, so `"http://x"` loses its
tail.

The order of the steps on a line is fixed. First the rest of a carried-in block comment goes,
then everything from the first `//` on, even where that lies inside a block comment of the
line, and last the block comments that the line opens, one after the other. What stands before
and after a removed comment is joined without a space.

## Main definitions

* `Comment.dropLine` — a line without its line comment.
* `Comment.dropBlocks` — a line without the block comments that it opens, and whether the last
  one stays open.
* `Comment.strip` — what survives of a line, and the flag for the next one.

## Main results

* `Comment.dropBlocks_of_none`, `Comment.dropBlocks_of_unclosed`,
  `Comment.dropBlocks_of_closed` — the three ways in which the search for block comments goes
  on.
-/

namespace CodeSimilarity.Comment

/-- The mark that opens a line comment. -/
def lineMark : Text := [Byte.slash, Byte.slash]

/-- The mark that opens a block comment. -/
def blockOpen : Text := [Byte.slash, 0x2A]

/-- The mark that closes a block comment. -/
def blockClose : Text := [0x2A, Byte.slash]

/-- A line up to its first `//`. -/
def dropLine (line : Text) : Text :=
  match line.cut? lineMark with
  | none => line
  | some (code, _) => code

/-- A line without the block comments that it opens, and whether the last one stays open: it
takes the rest of the line with it if nothing closes it. -/
def dropBlocks (line : Text) : Text × Bool :=
  match _hopen : line.cut? blockOpen with
  | none => (line, false)
  | some (before, inside) =>
    match _hclose : inside.cut? blockClose with
    | none => (before, true)
    | some (_, after) => dropBlocks (before ++ after)
termination_by line.length
decreasing_by
  have h₁ := Text.length_of_cut? ‹line.cut? blockOpen = _›
  have h₂ := Text.length_of_cut? ‹Text.cut? _ blockClose = _›
  simp only [blockOpen, blockClose, List.length_cons, List.length_nil] at h₁ h₂
  simp only [List.length_append]
  omega

/-- A line that opens no block comment is kept. -/
theorem dropBlocks_of_none {line : Text} (h : line.cut? blockOpen = none) :
    dropBlocks line = (line, false) := by
  rw [dropBlocks]
  split <;> simp_all

/-- A block comment that nothing closes takes the rest of the line and stays open. -/
theorem dropBlocks_of_unclosed {line before inside : Text}
    (h : line.cut? blockOpen = some (before, inside)) (h' : inside.cut? blockClose = none) :
    dropBlocks line = (before, true) := by
  rw [dropBlocks]
  split
  · simp_all
  · next hopen =>
    obtain ⟨rfl, rfl⟩ := Prod.mk.inj (Option.some.inj (hopen.symm.trans h))
    split <;> simp_all

/-- A block comment that is closed is taken out, and the search starts again at the front. -/
theorem dropBlocks_of_closed {line before inside comment after : Text}
    (h : line.cut? blockOpen = some (before, inside))
    (h' : inside.cut? blockClose = some (comment, after)) :
    dropBlocks line = dropBlocks (before ++ after) := by
  rw [dropBlocks]
  split
  · simp_all
  · next hopen =>
    obtain ⟨rfl, rfl⟩ := Prod.mk.inj (Option.some.inj (hopen.symm.trans h))
    split <;> simp_all

/-- What survives of a line that starts outside a block comment, and whether it leaves one
open. -/
def stripCode (line : Text) : Text × Bool :=
  dropBlocks (dropLine line)

/-- What survives of a line, and whether a block comment is open after it. A line that lies
within an open block comment altogether leaves nothing, not even an empty line. -/
def strip (inBlock : Bool) (line : Text) : Option Text × Bool :=
  if inBlock then
    match line.cut? blockClose with
    | none => (none, true)
    | some (_, after) => ((stripCode after).1, (stripCode after).2)
  else
    ((stripCode line).1, (stripCode line).2)

end CodeSimilarity.Comment
