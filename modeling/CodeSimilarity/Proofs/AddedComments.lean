import CodeSimilarity.Proofs.Cleaning

set_option autoImplicit false
set_option relaxedAutoImplicit false

/-!
# Adding comments

A comment that is added to a document does not show in its normal form: neither a line comment at
the end of any line, nor a block comment of several lines between two lines of code.

## Main results

* `codeLine_append_lineComment` — a line contributes the same with a line comment behind it, be it
  code or inside a block comment.
* `codeLines_blockComment` — a block comment of several lines contributes nothing and leaves no
  comment open.
* `normalizeLines_of_added_comment` — the normal form with and without the comment.

## Implementation notes

A line comment stands behind a space, so that its slashes can neither close a block comment nor
pair up with a slash of the line. It must not hold a `*/`, which would close a block comment in
which the line lies.
-/

namespace CodeSimilarity

open Text Comment

/-! ## A line comment behind a line -/

/-- A space and a line comment with a given text. -/
def lineComment (x : Text) : Text :=
  Byte.space :: (lineMark ++ x)

/-- Of a line comment behind a line, only the space before it is left. -/
theorem dropLine_append_lineComment (line x : Text) :
    dropLine (line ++ lineComment x) = dropLine (line ++ [Byte.space]) := by
  have hsplit : line ++ lineComment x = (line ++ [Byte.space]) ++ (lineMark ++ x) := by
    simp [lineComment]
  rw [hsplit, dropLine, dropLine]
  cases hcut : cut? (line ++ [Byte.space]) lineMark with
  | none =>
    have hnone := (cut?_eq_none_iff (by decide)).1 hcut
    have hlast : (line ++ [Byte.space]).getLast? ≠ some Byte.slash := by
      rw [List.getLast?_concat]
      decide
    rw [lineMark, cut?_append hnone hlast, ← lineMark, cut?_mark_append (by decide)]
    exact List.append_nil _
  | some parts => rw [cut?_append_of_some (by decide) hcut]

/-- **A line contributes the same with a line comment behind it**, in whatever state it is met. -/
theorem codeLine_append_lineComment (inBlock : Bool) (raw : Text) {x : Text}
    (hx : ¬ blockClose <:+: x) :
    codeLine inBlock (raw ++ lineComment x) = codeLine inBlock raw := by
  have hspace : ∀ c ∈ [Byte.space], isBlank c := List.all_eq_true.1 (by decide)
  have hcode : ∀ line,
      contribution (strip false (line ++ lineComment x)) = contribution (strip false line) := by
    intro line
    rw [← contribution_append_blank hspace false line, strip_false, strip_false, stripCode,
      stripCode, dropLine_append_lineComment]
  rw [codeLine_eq, codeLine_eq]
  cases inBlock with
  | false => exact hcode raw
  | true =>
    cases hclose : raw.cut? blockClose with
    | none =>
      have hraw := cut?_append_blank not_isBlank_blockClose (by decide) hspace raw
      rw [hclose, Option.map_none, cut?_eq_none_iff (by decide)] at hraw
      have hclose' : (raw ++ lineComment x).cut? blockClose = none := by
        have hslashes : ∀ c ∈ lineMark, blockClose.head? ≠ some c := by
          intro c hc
          obtain rfl : c = Byte.slash := by simpa [lineMark] using hc
          decide
        have hlast : (raw ++ [Byte.space]).getLast? ≠ some 0x2A := by
          rw [List.getLast?_concat]
          decide
        rw [lineComment, List.append_cons, blockClose, cut?_append hraw hlast, ← blockClose,
          cut?_append_of_head hslashes (by decide), (cut?_eq_none_iff (by decide)).2 hx]
        rfl
      rw [strip_true_of_unclosed hclose', strip_true_of_unclosed hclose]
    | some parts =>
      have hclose' := cut?_append_of_some (by decide) hclose (lineComment x)
      rw [strip_true_of_closed hclose', strip_true_of_closed hclose, hcode]

/-! ## A block comment between two lines -/

/-- The first line of a block comment opens it, whatever slashes follow. -/
theorem codeLine_blockOpen {x : Text} (hx : ¬ blockClose <:+: x) :
    codeLine false (blockOpen ++ x) = (none, true) := by
  have hclose : (dropLine x).cut? blockClose = none := by
    rw [cut?_eq_none_iff (by decide)]
    exact fun h => hx (h.trans (dropLine_isPrefix x).isInfix)
  rw [codeLine_eq, contribution_strip_false, stripCode, dropLine_blockOpen_append,
    dropBlocks_of_unclosed (cut?_mark_append (by decide) _) hclose]
  rfl

/-- An inner line of a block comment contributes nothing. -/
theorem codeLine_inside {line : Text} (h : ¬ blockClose <:+: line) :
    codeLine true line = (none, true) := by
  rw [codeLine_eq, strip_true_of_unclosed ((cut?_eq_none_iff (by decide)).2 h)]
  rfl

/-- The last line of a block comment closes it. -/
theorem codeLine_blockClose {y : Text} (hy : ¬ blockClose <:+: y) :
    codeLine true (y ++ blockClose) = (none, false) := by
  have hclose : (y ++ blockClose).cut? blockClose = some (y, []) := by
    simpa [blockClose] using cut?_of_first (by decide) hy []
  rw [codeLine_eq, strip_true_of_closed hclose, contribution_strip_false, stripCode,
    dropBlocks_of_none rfl]
  rfl

/-- A block comment of two or more lines: its first line with `x` behind the opening mark, its inner
lines, and its last line with `y` before the closing mark. -/
def blockComment (x : Text) (inner : List Text) (y : Text) : List Text :=
  (blockOpen ++ x) :: inner ++ [y ++ blockClose]

/-- In a block comment, lines without a closing mark contribute nothing. -/
theorem codeLines_inner {inner : List Text} (hinner : ∀ line ∈ inner, ¬ blockClose <:+: line)
    (rest : List Text) : codeLines true (inner ++ rest) = codeLines true rest := by
  induction inner with
  | nil => rfl
  | cons line inner ih =>
    rw [List.cons_append, codeLines_cons, codeLine_inside (hinner line List.mem_cons_self)]
    exact ih fun l hl => hinner l (List.mem_cons_of_mem _ hl)

/-- **A block comment between two lines contributes nothing**, and what follows it is cleaned as if
the comment were not there. -/
theorem codeLines_blockComment {x y : Text} {inner : List Text} (hx : ¬ blockClose <:+: x)
    (hinner : ∀ line ∈ inner, ¬ blockClose <:+: line) (hy : ¬ blockClose <:+: y)
    (rest : List Text) :
    codeLines false (blockComment x inner y ++ rest) = codeLines false rest := by
  rw [blockComment, List.append_assoc, List.cons_append, codeLines_cons, codeLine_blockOpen hx,
    Option.toList_none, List.nil_append, codeLines_inner hinner, List.singleton_append,
    codeLines_cons, codeLine_blockClose hy]
  rfl

/-- **Adding a comment does not change the normal form of a document**: neither a line comment
behind any one line, nor a block comment of several lines at a place where none is open. -/
theorem normalizeLines_of_added_comment (before after : List Text) :
    (∀ line x, ¬ blockClose <:+: x →
        normalizeLines (before ++ (line ++ lineComment x) :: after) =
          normalizeLines (before ++ line :: after)) ∧
      ∀ x inner y, openAfter false before = false → ¬ blockClose <:+: x →
        (∀ line ∈ inner, ¬ blockClose <:+: line) → ¬ blockClose <:+: y →
        normalizeLines (before ++ blockComment x inner y ++ after) =
          normalizeLines (before ++ after) := by
  refine ⟨fun line x hx => ?_, fun x inner y hbefore hx hinner hy => ?_⟩
  · rw [normalizeLines, normalizeLines, codeLines_append, codeLines_append, codeLines_cons,
      codeLines_cons, codeLine_append_lineComment _ _ hx]
  · rw [normalizeLines, normalizeLines, List.append_assoc, codeLines_append,
      codeLines_append false before after, hbefore, codeLines_blockComment hx hinner hy]

/-- A line comment that opens a block comment for show, behind a line inside a block comment; and a
block comment whose first line holds a `/*/` and a `//`. -/
theorem normalizeLines_of_nested_comment :
    normalizeLines ([ofAscii "/* a"] ++
        (ofAscii "b *" ++ lineComment (ofAscii " /* c")) :: [ofAscii "d */ e = e;"]) =
      [ofAscii "VAR_1 = VAR_1;"] ∧
    openAfter false [ofAscii "e /* f */ = e; // /* g"] = false ∧
    normalizeLines ([ofAscii "e /* f */ = e; // /* g"] ++
        blockComment (ofAscii "/ h // i") [ofAscii "", ofAscii "/* j"] (ofAscii "// *") ++
        [ofAscii "e;"]) =
      [ofAscii "VAR_1 = VAR_1;", ofAscii "VAR_1;"] := by
  have hopen : openAfter false [ofAscii "e /* f */ = e; // /* g"] = false := by decide +kernel
  refine ⟨?_, hopen, ?_⟩
  · rw [(normalizeLines_of_added_comment _ _).1 _ _ (by decide)]
    decide +kernel
  · rw [(normalizeLines_of_added_comment _ _).2 _ _ _ hopen (by decide) (by decide) (by decide)]
    decide +kernel

end CodeSimilarity
