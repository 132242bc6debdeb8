import CodeSimilarity.Proofs.Layout
import CodeSimilarity.Proofs.Marks
import CodeSimilarity.Source.Comment

set_option autoImplicit false
set_option relaxedAutoImplicit false

/-!
# Taking comments out of a line

Taking out a block comment joins what stood on its two sides, and the search for the next one
starts at the front of the joined line. Where the line has no `//`, no mark can arise at the
joint, so the search could as well go on behind the comment.

## Main definitions

* `ClosesApart` — no `*/` of a text is immediately followed by a word byte.

## Main results

* `Comment.not_infix_dropLine` — no `//` is left when block comments are looked for.
* `Comment.block_induction` — induction along the block comments of a line.
* `Comment.loop_induction` — induction along the loop that takes them out.
* `Comment.dropBlocks_append` — what stands before the first block comment is kept.
* `Comment.dropBlocks_of_closed_of_no_line` — the search never looks back.
* `Comment.not_infix_stripCode` — no mark is left in code.
* `Comment.startsApart_dropBlocks` — if comments end apart, taking them out puts no word at the
  front of a line.
-/

namespace CodeSimilarity

open Text

namespace Comment

/-! ## The search never looks back -/

/-- Without its line comment, a line is a prefix of itself. -/
theorem dropLine_isPrefix (line : Text) : dropLine line <+: line := by
  unfold dropLine
  split
  · exact List.prefix_rfl
  · next h => exact isPrefix_of_cut? h

/-- No `//` is left before the first `//`. -/
theorem not_infix_dropLine (line : Text) : ¬ lineMark <:+: dropLine line := by
  unfold dropLine
  split
  · next h => exact (cut?_eq_none_iff (by decide)).1 h
  · next h => exact not_infix_of_cut? (by decide) h

/-- A byte at which no `//` begins is passed over. -/
theorem dropLine_cons {c : UInt8} {s : Text} (h : ¬ lineMark <+: c :: s) :
    dropLine (c :: s) = c :: dropLine s := by
  rw [dropLine, dropLine, cut?_cons_skip h]
  cases s.cut? lineMark <;> rfl

/-- No `//` begins within the mark that opens a block comment, whatever follows. -/
theorem dropLine_blockOpen_append (s : Text) :
    dropLine (blockOpen ++ s) = blockOpen ++ dropLine s := by
  have hslash : ¬ lineMark <+: Byte.slash :: 0x2A :: s := by
    rw [lineMark, List.cons_prefix_cons, List.cons_prefix_cons]
    exact fun h => absurd h.2.1 (by decide)
  have hstar : ¬ lineMark <+: 0x2A :: s := by
    rw [lineMark, List.cons_prefix_cons]
    exact fun h => absurd h.1 (by decide)
  rw [blockOpen, List.cons_append, List.cons_append, List.nil_append, dropLine_cons hslash,
    dropLine_cons hstar, List.cons_append, List.cons_append, List.nil_append]

/-- A line in front of, inside and behind its first block comment. -/
theorem eq_of_closed {line before inside comment after : Text}
    (hopen : line.cut? blockOpen = some (before, inside))
    (hclose : inside.cut? blockClose = some (comment, after)) :
    line = (before ++ blockOpen ++ comment) ++ blockClose ++ after := by
  rw [cut?_eq_some hopen, cut?_eq_some hclose]
  simp

/-- What stands behind the first block comment is a part of the line. -/
theorem infix_of_closed {line before inside comment after : Text}
    (hopen : line.cut? blockOpen = some (before, inside))
    (hclose : inside.cut? blockClose = some (comment, after)) : after <:+: line :=
  ((isSuffix_of_cut? hclose).trans (isSuffix_of_cut? hopen)).isInfix

/-- The length of a line, by that of these parts and of the two marks. -/
theorem length_of_closed {line before inside comment after : Text}
    (hopen : line.cut? blockOpen = some (before, inside))
    (hclose : inside.cut? blockClose = some (comment, after)) :
    line.length = before.length + comment.length + after.length + 4 := by
  rw [eq_of_closed hopen hclose]
  simp only [blockOpen, blockClose, List.length_append, List.length_cons, List.length_nil]
  omega

/-- **Induction along the block comments of a line**: the line opens none, or one that nothing
closes, or one after whose close the line goes on. -/
theorem block_induction {motive : Text → Prop}
    (code : ∀ line, line.cut? blockOpen = none → motive line)
    (unclosed : ∀ line before inside, line.cut? blockOpen = some (before, inside) →
      inside.cut? blockClose = none → motive line)
    (closed : ∀ line before inside comment after, line.cut? blockOpen = some (before, inside) →
      inside.cut? blockClose = some (comment, after) → motive after → motive line)
    (line : Text) : motive line := by
  induction hn : line.length using Nat.strong_induction_on generalizing line with
  | _ n ih =>
    cases hopen : line.cut? blockOpen with
    | none => exact code line hopen
    | some parts =>
      obtain ⟨before, inside⟩ := parts
      cases hclose : inside.cut? blockClose with
      | none => exact unclosed line before inside hopen hclose
      | some parts =>
        obtain ⟨comment, after⟩ := parts
        have hlength := length_of_closed hopen hclose
        exact closed line before inside comment after hopen hclose (ih _ (by omega) after rfl)

/-- **Induction along the loop that takes out block comments**: it stops where the line opens none
or one that nothing closes, and else it goes on with the joined line. -/
theorem loop_induction {motive : Text → Prop}
    (code : ∀ line, line.cut? blockOpen = none → motive line)
    (unclosed : ∀ line before inside, line.cut? blockOpen = some (before, inside) →
      inside.cut? blockClose = none → motive line)
    (closed : ∀ line before inside comment after, line.cut? blockOpen = some (before, inside) →
      inside.cut? blockClose = some (comment, after) → motive (before ++ after) → motive line)
    (line : Text) : motive line := by
  induction hn : line.length using Nat.strong_induction_on generalizing line with
  | _ n ih =>
    cases hopen : line.cut? blockOpen with
    | none => exact code line hopen
    | some parts =>
      obtain ⟨before, inside⟩ := parts
      cases hclose : inside.cut? blockClose with
      | none => exact unclosed line before inside hopen hclose
      | some parts =>
        obtain ⟨comment, after⟩ := parts
        have hlength := length_of_closed hopen hclose
        refine closed line before inside comment after hopen hclose (ih _ ?_ _ rfl)
        rw [List.length_append]
        omega

/-- What stands before the first block comment is kept, whatever follows, if it does not end with
a slash. -/
theorem dropBlocks_append {before : Text} (hopen : ¬ blockOpen <:+: before)
    (hlast : before.getLast? ≠ some Byte.slash) (s : Text) :
    dropBlocks (before ++ s) = (before ++ (dropBlocks s).1, (dropBlocks s).2) := by
  have hcut : ∀ t, cut? (before ++ t) blockOpen =
      (cut? t blockOpen).map fun p => (before ++ p.1, p.2) := cut?_append hopen hlast
  induction s using loop_induction with
  | code s hs =>
    have hs' : (before ++ s).cut? blockOpen = none := by rw [hcut, hs]; rfl
    rw [dropBlocks_of_none hs', dropBlocks_of_none hs]
  | unclosed s b inside hs hclose =>
    have hs' : (before ++ s).cut? blockOpen = some (before ++ b, inside) := by rw [hcut, hs]; rfl
    rw [dropBlocks_of_unclosed hs' hclose, dropBlocks_of_unclosed hs hclose]
  | closed s b inside comment after hs hclose ih =>
    have hs' : (before ++ s).cut? blockOpen = some (before ++ b, inside) := by rw [hcut, hs]; rfl
    rw [dropBlocks_of_closed hs' hclose, dropBlocks_of_closed hs hclose, List.append_assoc, ih]

/-- The first block comment of a line is taken out. -/
theorem dropBlocks_comment {before comment : Text} (hbefore : ¬ blockOpen <:+: before)
    (hcomment : ¬ blockClose <:+: comment) (after : Text) :
    dropBlocks (before ++ blockOpen ++ comment ++ blockClose ++ after) =
      dropBlocks (before ++ after) := by
  have hopen : cut? (before ++ blockOpen ++ (comment ++ blockClose ++ after)) blockOpen =
      some (before, comment ++ blockClose ++ after) :=
    cut?_of_first (by decide) hbefore _
  have hclose : cut? (comment ++ blockClose ++ after) blockClose = some (comment, after) :=
    cut?_of_first (by decide) hcomment after
  rw [← dropBlocks_of_closed hopen hclose]
  simp only [List.append_assoc]

/-- What stands before a block comment does not end with a slash, since with the slash of the
opening mark that would be a `//`. -/
theorem getLast?_ne_slash {line before inside : Text} (hline : ¬ lineMark <:+: line)
    (hopen : line.cut? blockOpen = some (before, inside)) :
    before.getLast? ≠ some Byte.slash := by
  intro h
  obtain ⟨b, rfl⟩ := List.getLast?_eq_some_iff.1 h
  refine hline ⟨b, 0x2A :: inside, ?_⟩
  rw [cut?_eq_some hopen]
  simp [lineMark, blockOpen]

/-- **The search never looks back.** In a line without `//`, a closed block comment splits the
search in two: what stands before it is kept, and the rest is searched on its own.

**Proof sketch.** What stands before the comment does not end with a slash, so no mark arises where
it meets the rest. -/
theorem dropBlocks_of_closed_of_no_line {line before inside comment after : Text}
    (hline : ¬ lineMark <:+: line) (hopen : line.cut? blockOpen = some (before, inside))
    (hclose : inside.cut? blockClose = some (comment, after)) :
    dropBlocks line = (before ++ (dropBlocks after).1, (dropBlocks after).2) := by
  rw [dropBlocks_of_closed hopen hclose,
    dropBlocks_append (not_infix_of_cut? (by decide) hopen) (getLast?_ne_slash hline hopen)]

/-! ## No mark is left -/

/-- No `/*` is left when the loop stops. -/
theorem not_infix_blockOpen_dropBlocks (line : Text) : ¬ blockOpen <:+: (dropBlocks line).1 := by
  induction line using loop_induction with
  | code line hopen =>
    rw [dropBlocks_of_none hopen]
    exact (cut?_eq_none_iff (by decide)).1 hopen
  | unclosed line before inside hopen hclose =>
    rw [dropBlocks_of_unclosed hopen hclose]
    exact not_infix_of_cut? (by decide) hopen
  | closed line before inside comment after hopen hclose ih =>
    rwa [dropBlocks_of_closed hopen hclose]

/-- No `//` arises where a block comment has been taken out. -/
theorem not_infix_lineMark_dropBlocks {line : Text} (hline : ¬ lineMark <:+: line) :
    ¬ lineMark <:+: (dropBlocks line).1 := by
  induction line using loop_induction with
  | code line hopen => rwa [dropBlocks_of_none hopen]
  | unclosed line before inside hopen hclose =>
    rw [dropBlocks_of_unclosed hopen hclose]
    exact fun h => hline (h.trans (isPrefix_of_cut? hopen).isInfix)
  | closed line before inside comment after hopen hclose ih =>
    have hbefore : ¬ lineMark <:+: before :=
      fun h => hline (h.trans (isPrefix_of_cut? hopen).isInfix)
    have hafter : ¬ lineMark <:+: after :=
      fun h => hline (h.trans (infix_of_closed hopen hclose))
    rw [dropBlocks_of_closed hopen hclose]
    refine ih ((cut?_eq_none_iff (by decide)).1 ?_)
    rw [lineMark, cut?_append hbefore (getLast?_ne_slash hline hopen), ← lineMark,
      (cut?_eq_none_iff (by decide)).2 hafter]
    rfl

/-- **No mark is left in code**: no `//` and no `/*`. -/
theorem not_infix_stripCode (line : Text) :
    ¬ lineMark <:+: (stripCode line).1 ∧ ¬ blockOpen <:+: (stripCode line).1 :=
  ⟨not_infix_lineMark_dropBlocks (not_infix_dropLine line), not_infix_blockOpen_dropBlocks _⟩

/-! ## Comments that end apart -/

/-- No `*/` of the text is immediately followed by a word byte. -/
def ClosesApart (s : Text) : Prop :=
  ∀ before after, s = before ++ blockClose ++ after → StartsApart after

/-- Parts of a text in which comments end apart are such texts. -/
theorem ClosesApart.of_infix {s t : Text} (h : s <:+: t) (ht : ClosesApart t) : ClosesApart s := by
  rintro before after rfl
  obtain ⟨p, q, rfl⟩ := h
  have hfar : StartsApart (after ++ q) := ht (p ++ before) (after ++ q) (by simp)
  exact hfar.of_isPrefix (List.prefix_append after q)

/-- The empty text has no closing mark. -/
theorem closesApart_nil : ClosesApart [] := by
  intro before after h
  simp [blockClose] at h

/-- Whether comments end apart can be read off byte by byte. -/
theorem closesApart_cons (c : UInt8) (s : Text) :
    ClosesApart (c :: s) ↔
      (blockClose.isPrefixOf (c :: s) → StartsApart ((c :: s).drop 2)) ∧ ClosesApart s := by
  rw [List.isPrefixOf_iff_prefix]
  constructor
  · intro h
    refine ⟨?_, h.of_infix (List.infix_cons List.infix_rfl)⟩
    rintro ⟨after, hafter⟩
    rw [← hafter]
    exact h [] after (by simp [hafter])
  · rintro ⟨hhead, htail⟩ before after h
    cases before with
    | nil =>
      rw [List.nil_append] at h
      simpa [h, blockClose] using hhead ⟨after, h.symm⟩
    | cons d before =>
      simp only [List.cons_append, List.cons.injEq] at h
      exact htail before after h.2

instance decidableClosesApart : (s : Text) → Decidable (ClosesApart s)
  | [] => isTrue closesApart_nil
  | c :: s =>
    have := decidableClosesApart s
    decidable_of_iff _ (closesApart_cons c s).symm

/-- After a block comment, the line goes on apart. -/
theorem ClosesApart.startsApart_of_closed {line before inside comment after : Text}
    (h : ClosesApart line) (hopen : line.cut? blockOpen = some (before, inside))
    (hclose : inside.cut? blockClose = some (comment, after)) : StartsApart after :=
  h _ after (eq_of_closed hopen hclose)

/-- Taking out block comments keeps a beginning outside a word. -/
theorem startsApart_dropBlocks {line : Text} (hline : ¬ lineMark <:+: line)
    (hapart : ClosesApart line) (hstart : StartsApart line) :
    StartsApart (dropBlocks line).1 := by
  induction line using block_induction with
  | code line hopen => rwa [dropBlocks_of_none hopen]
  | unclosed line before inside hopen hclose =>
    rw [dropBlocks_of_unclosed hopen hclose]
    exact hstart.of_isPrefix (isPrefix_of_cut? hopen)
  | closed line before inside comment after hopen hclose ih =>
    have heq := eq_of_closed hopen hclose
    have hafter := infix_of_closed hopen hclose
    rw [dropBlocks_of_closed_of_no_line hline hopen hclose]
    cases before with
    | nil =>
      exact ih (fun h => hline (h.trans hafter)) (hapart.of_infix hafter)
        (hapart.startsApart_of_closed hopen hclose)
    | cons c before =>
      rw [heq] at hstart
      exact (startsApart_cons _ _).2 ((startsApart_cons _ _).1 hstart)

end Comment

end CodeSimilarity
