import CodeSimilarity.Proofs.Cleaning

set_option autoImplicit false
set_option relaxedAutoImplicit false

/-!
# A block comment that is closed on its line

Line comments are looked for before block comments, so the slash that closes a block comment can be
taken for the first slash of a `//`. The line is then cut within the block comment, which stays
open. A line with one closed block comment leaves it open in this case and in no other.

## Main definitions

* `Text.OccursOnlyAt` — a mark occurs at one place of a text at most.
* `Comment.HoldsOneComment` — the only marks of block comments on a line are those of one comment.

## Main results

* `Comment.stripCode_of_slash_behind`, `Comment.stripCode_of_no_slash_behind` — what is left of such
  a line.
* `openAfter_closed_comment_iff` — when the comment is open after the line.
* `closed_comment_left_open` — a comment with a line comment right behind it is left open.
-/

namespace CodeSimilarity

open Text

/-! ## A mark at one place -/

/-- The mark occurs in the text at place `k` at most. -/
def Text.OccursOnlyAt (mark : Text) (k : Nat) (s : Text) : Prop :=
  ∀ i < s.length, mark <+: s.drop i → i = k

instance (mark : Text) (k : Nat) (s : Text) : Decidable (OccursOnlyAt mark k s) := by
  unfold OccursOnlyAt
  infer_instance

/-- A mark does not occur within a stretch of the text that does not hold its one place. -/
theorem Text.OccursOnlyAt.not_infix {mark s t u : Text} {k : Nat} (hm : mark ≠ [])
    (h : OccursOnlyAt mark k (s ++ t ++ u))
    (hk : k < s.length ∨ s.length + t.length < k + mark.length) : ¬ mark <:+: t := by
  rintro ⟨before, after, rfl⟩
  have hsplit : s ++ (before ++ mark ++ after) ++ u = (s ++ before) ++ (mark ++ (after ++ u)) := by
    simp
  have hpos := List.length_pos_of_ne_nil hm
  have hplace : (s ++ before).length = k := by
    refine h _ ?_ ?_
    · simp only [List.length_append]
      omega
    · rw [hsplit, List.drop_left]
      exact List.prefix_append _ _
  simp only [List.length_append] at hplace hk
  omega

namespace Comment

/-! ## A line with one block comment -/

/-- A line with a block comment, by what stands before, within and behind it. -/
def commentLine (before comment after : Text) : Text :=
  before ++ blockOpen ++ comment ++ blockClose ++ after

/-- The only marks of block comments on the line are the two that are written there, and there is no
`//` within the comment. -/
structure HoldsOneComment (before comment after : Text) : Prop where
  opens_once : OccursOnlyAt blockOpen before.length (commentLine before comment after)
  closes_once : OccursOnlyAt blockClose (before.length + 2 + comment.length)
    (commentLine before comment after)
  not_infix_lineMark : ¬ lineMark <:+: comment

namespace HoldsOneComment

variable {before comment after : Text} (h : HoldsOneComment before comment after)

include h

/-- Nothing before the comment opens a block comment. -/
theorem not_infix_before : ¬ blockOpen <:+: before := by
  have hopen : OccursOnlyAt blockOpen before.length
      ([] ++ before ++ (blockOpen ++ comment ++ blockClose ++ after)) := by
    simpa [commentLine] using h.opens_once
  exact hopen.not_infix (by decide) (.inr (by simp [blockOpen]))

/-- Nothing behind the comment opens a block comment. -/
theorem not_infix_after : ¬ blockOpen <:+: after := by
  have hopen : OccursOnlyAt blockOpen before.length
      (before ++ blockOpen ++ comment ++ blockClose ++ after ++ []) := by
    simpa [commentLine] using h.opens_once
  refine hopen.not_infix (by decide) (.inl ?_)
  simp only [blockOpen, List.length_append, List.length_cons]
  omega

/-- The comment is not closed before its end, not even by half a mark. -/
theorem not_infix_comment : ¬ blockClose <:+: comment ++ [0x2A] := by
  have hclose : OccursOnlyAt blockClose (before.length + 2 + comment.length)
      (before ++ blockOpen ++ (comment ++ [0x2A]) ++ (Byte.slash :: after)) := by
    simpa [commentLine, blockClose] using h.closes_once
  refine hclose.not_infix (by decide) (.inr ?_)
  simp only [blockOpen, blockClose, List.length_append, List.length_cons, List.length_nil]
  omega

end HoldsOneComment

/-! ## Where the line comment begins -/

/-- A text in which no `//` occurs is passed over, if it does not end with a slash. -/
theorem dropLine_append_of_not_infix {b : Text} (hb : ¬ lineMark <:+: b)
    (hlast : b.getLast? ≠ some Byte.slash) (s : Text) : dropLine (b ++ s) = b ++ dropLine s := by
  have hcut : cut? (b ++ s) lineMark = (cut? s lineMark).map fun p => (b ++ p.1, p.2) :=
    cut?_append hb hlast s
  rw [dropLine, dropLine, hcut]
  cases s.cut? lineMark <;> rfl

/-- A line comment at the front of a line leaves nothing of it. -/
theorem dropLine_lineMark_append (s : Text) : dropLine (lineMark ++ s) = [] := by
  rw [dropLine, cut?_mark_append (by decide)]

/-- A slash is passed over if no other slash follows. -/
theorem dropLine_slash_cons {s : Text} (hs : s.head? ≠ some Byte.slash) :
    dropLine (Byte.slash :: s) = Byte.slash :: dropLine s := by
  refine dropLine_cons ?_
  rintro ⟨r, hr⟩
  obtain rfl : Byte.slash :: r = s := (List.cons.inj hr).2
  exact hs rfl

/-- A text with no line comment once a slash stands behind it does not end in a slash. -/
theorem getLast?_ne_slash_of_no_line {before : Text} (h : ¬ lineMark <:+: before ++ [Byte.slash]) :
    before.getLast? ≠ some Byte.slash := by
  intro hlast
  obtain ⟨b, rfl⟩ := List.getLast?_eq_some_iff.1 hlast
  exact h ⟨b, [], by simp [lineMark]⟩

/-- Where no `//` begins before a block comment, none begins before its last slash. -/
theorem dropLine_comment {before comment : Text} (hbefore : ¬ lineMark <:+: before ++ [Byte.slash])
    (hcomment : ¬ lineMark <:+: comment) (s : Text) :
    dropLine (before ++ blockOpen ++ (comment ++ [0x2A]) ++ s) =
      before ++ blockOpen ++ (comment ++ [0x2A]) ++ dropLine s := by
  have hbefore' : ¬ lineMark <:+: before :=
    fun h => hbefore (h.trans (List.prefix_append _ _).isInfix)
  have hcomment' : ¬ lineMark <:+: comment ++ [0x2A] := by
    rw [List.infix_concat_iff, not_or]
    refine ⟨?_, hcomment⟩
    rintro ⟨u, hu⟩
    have hend : some Byte.slash = some 0x2A := by
      simpa only [lineMark, List.getLast?_append, List.getLast?_cons_cons,
        List.getLast?_singleton, Option.some_or] using congrArg List.getLast? hu
    exact absurd hend (by decide)
  have hstar : (comment ++ [0x2A]).getLast? ≠ some Byte.slash := by
    rw [List.getLast?_concat]
    decide
  rw [List.append_assoc, List.append_assoc,
    dropLine_append_of_not_infix hbefore' (getLast?_ne_slash_of_no_line hbefore),
    dropLine_blockOpen_append, dropLine_append_of_not_infix hcomment' hstar]
  simp only [List.append_assoc]

/-! ## What is left of the line -/

/-- Where a `//` begins before a block comment, the comment is a part of the line comment. -/
theorem stripCode_of_line_before {before : Text} (hopen : ¬ blockOpen <:+: before)
    (hline : lineMark <:+: before ++ [Byte.slash]) (s : Text) :
    (stripCode (before ++ [Byte.slash] ++ s)).2 = false := by
  cases hcut : (before ++ [Byte.slash]).cut? lineMark with
  | none => exact absurd hline ((cut?_eq_none_iff (by decide)).1 hcut)
  | some parts =>
    obtain ⟨code, rest⟩ := parts
    have hdrop : dropLine (before ++ [Byte.slash] ++ s) = code := by
      rw [dropLine, cut?_append_of_some (by decide) hcut]
    have hlength := length_of_cut? hcut
    have hprefix : code <+: before := by
      refine List.prefix_of_prefix_length_le (isPrefix_of_cut? hcut) (List.prefix_append _ _) ?_
      simp only [lineMark, List.length_append, List.length_cons, List.length_nil] at hlength
      omega
    rw [stripCode, hdrop, dropBlocks_of_none]
    exact (cut?_eq_none_iff (by decide)).2 fun h => hopen (h.trans hprefix.isInfix)

section

variable {before comment after : Text} (h : HoldsOneComment before comment after)
  (hbefore : ¬ lineMark <:+: before ++ [Byte.slash])

include h hbefore

/-- A slash behind the comment makes a `//` with the last slash of the comment, which is then not
closed any more. -/
theorem stripCode_of_slash_behind (hafter : after.head? = some Byte.slash) :
    stripCode (commentLine before comment after) = (before, true) := by
  obtain ⟨s, rfl⟩ : ∃ s, after = Byte.slash :: s := List.head?_eq_some_iff.1 hafter
  have hsplit : commentLine before comment (Byte.slash :: s) =
      before ++ blockOpen ++ (comment ++ [0x2A]) ++ (lineMark ++ s) := by
    simp [commentLine, blockClose, lineMark]
  rw [stripCode, hsplit, dropLine_comment hbefore h.not_infix_lineMark, dropLine_lineMark_append,
    List.append_nil]
  exact dropBlocks_of_unclosed (cut?_of_first (by decide) h.not_infix_before _)
    ((cut?_eq_none_iff (by decide)).2 h.not_infix_comment)

/-- If no slash stands behind the comment, it is taken out, and so is a line comment behind it. -/
theorem stripCode_of_no_slash_behind (hafter : after.head? ≠ some Byte.slash) :
    stripCode (commentLine before comment after) = (before ++ dropLine after, false) := by
  have hsplit : commentLine before comment after =
      before ++ blockOpen ++ (comment ++ [0x2A]) ++ (Byte.slash :: after) := by
    simp [commentLine, blockClose]
  have hjoin : before ++ blockOpen ++ (comment ++ [0x2A]) ++ (Byte.slash :: dropLine after) =
      before ++ blockOpen ++ comment ++ blockClose ++ dropLine after := by
    simp [blockClose]
  have hcomment : ¬ blockClose <:+: comment :=
    fun hc => h.not_infix_comment (hc.trans (List.prefix_append _ _).isInfix)
  have hrest : (dropLine after).cut? blockOpen = none :=
    (cut?_eq_none_iff (by decide)).2 fun ho =>
      h.not_infix_after (ho.trans (dropLine_isPrefix after).isInfix)
  rw [stripCode, hsplit, dropLine_comment hbefore h.not_infix_lineMark, dropLine_slash_cons hafter,
    hjoin, dropBlocks_comment h.not_infix_before hcomment,
    dropBlocks_append h.not_infix_before (getLast?_ne_slash_of_no_line hbefore),
    dropBlocks_of_none hrest]

end

end Comment

/-! ## After the line -/

open Comment

/-- Trimming a line does not change whether it leaves a block comment open. -/
theorem codeLine_flag (raw : Text) : (codeLine false raw).2 = (stripCode raw).2 := by
  rw [codeLine_eq, contribution_strip_false]

/-- **A line that holds one closed block comment** leaves a comment open exactly if a slash stands
right behind it and no `//` begins before it. -/
theorem codeLine_commentLine_iff {before comment after : Text}
    (h : HoldsOneComment before comment after) :
    (codeLine false (commentLine before comment after)).2 ↔
      after.head? = some Byte.slash ∧ ¬ lineMark <:+: before ++ [Byte.slash] := by
  rw [codeLine_flag]
  by_cases hbefore : lineMark <:+: before ++ [Byte.slash]
  · have hsplit : commentLine before comment after =
        before ++ [Byte.slash] ++ (0x2A :: (comment ++ blockClose ++ after)) := by
      simp [commentLine, blockOpen]
    rw [hsplit, stripCode_of_line_before h.not_infix_before hbefore]
    simp [hbefore]
  · by_cases hafter : after.head? = some Byte.slash
    · rw [stripCode_of_slash_behind h hbefore hafter]
      simp [hafter, hbefore]
    · rw [stripCode_of_no_slash_behind h hbefore hafter]
      simp [hafter]

/-- **After a line that holds one closed block comment**, a comment is open exactly if a slash
stands right behind that comment and no `//` begins before it, whatever the lines before it hold, if
they leave no comment open. -/
theorem openAfter_closed_comment_iff {raws : List Text} {before comment after : Text}
    (hraws : openAfter false raws = false) (h : HoldsOneComment before comment after) :
    openAfter false (raws ++ [commentLine before comment after]) ↔
      after.head? = some Byte.slash ∧ ¬ lineMark <:+: before ++ [Byte.slash] := by
  rw [openAfter_append, hraws]
  exact codeLine_commentLine_iff h

/-- Three comments on their lines: one within a line comment, one with a bracket behind it, and one
with a slash behind it. -/
theorem openAfter_closed_comment_iff_kinds :
    openAfter false [ofAscii "int a; // b /* c"] = false ∧
      HoldsOneComment (ofAscii "// x ") (ofAscii " y *") (ofAscii "/ z") ∧
      HoldsOneComment (ofAscii "x = 1; ") (ofAscii " c ") (ofAscii "(y) // z") ∧
      HoldsOneComment (ofAscii "x ") (ofAscii " c ") (ofAscii "/ y") ∧
      ¬ openAfter false ([ofAscii "int a; // b /* c"] ++ [ofAscii "// x /* y **// z"]) ∧
      ¬ openAfter false ([ofAscii "int a; // b /* c"] ++ [ofAscii "x = 1; /* c */(y) // z"]) ∧
      openAfter false ([ofAscii "int a; // b /* c"] ++ [ofAscii "x /* c *// y"]) := by
  have hraws : openAfter false [ofAscii "int a; // b /* c"] = false := by decide +kernel
  have hline : HoldsOneComment (ofAscii "// x ") (ofAscii " y *") (ofAscii "/ z") :=
    ⟨by decide, by decide, by decide⟩
  have hbracket : HoldsOneComment (ofAscii "x = 1; ") (ofAscii " c ") (ofAscii "(y) // z") :=
    ⟨by decide, by decide, by decide⟩
  have hslash : HoldsOneComment (ofAscii "x ") (ofAscii " c ") (ofAscii "/ y") :=
    ⟨by decide, by decide, by decide⟩
  refine ⟨hraws, hline, hbracket, hslash, ?_, ?_, ?_⟩
  · exact mt (openAfter_closed_comment_iff hraws hline).1 (by decide)
  · exact mt (openAfter_closed_comment_iff hraws hbracket).1 (by decide)
  · exact (openAfter_closed_comment_iff hraws hslash).2 (by decide)

/-- **A comment that is closed on its line can be left open**: with a line comment right behind it,
it takes the lines that follow. -/
theorem closed_comment_left_open :
    (¬ ∀ (raws : List Text) (before comment after : Text), openAfter false raws = false →
        Byte.newline ∉ commentLine before comment after → HoldsOneComment before comment after →
        openAfter false (raws ++ [commentLine before comment after]) = false) ∧
      normalizeLines [commentLine [] (ofAscii " c ") (ofAscii "// note"), ofAscii "int b;"] =
        [] := by
  constructor
  · intro hall
    have h := hall [] [] (ofAscii " c ") (ofAscii "// note") rfl (by decide)
      ⟨by decide, by decide, by decide⟩
    exact absurd h (by decide +kernel)
  · decide +kernel

end CodeSimilarity
