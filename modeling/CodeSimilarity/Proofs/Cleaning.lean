import CodeSimilarity.Proofs.Blanks
import CodeSimilarity.Proofs.Comments
import CodeSimilarity.Source.Normal

set_option autoImplicit false
set_option relaxedAutoImplicit false

/-!
# Cleaning raw lines

A raw line is trimmed, loses its comments, is trimmed again and collapsed. Surplus blanks have no
say in where comments are found, so the first trimming does nothing that the second would not do,
and a line may as well be collapsed before its comments are taken out.

## Main definitions

* `contribution` — what a document gets from a line without comments.
* `openAfter` — whether a block comment is open after the lines of a document.

## Main results

* `contribution_blank_append`, `contribution_append_blank`, `contribution_congr` — surplus blanks
  have no say in what a line contributes.
* `codeLine_eq` — a line is cleaned by taking out its comments and tidying what is left.
* `codeLine_tidy` — tidying a raw line does not show after its cleaning.
* `codeLines_append` — a document is cleaned part by part.
-/

namespace CodeSimilarity

open Text Comment

namespace Comment

/-- The mark of a line comment holds no blank. -/
theorem not_isBlank_lineMark : ∀ c ∈ lineMark, ¬ isBlank c :=
  List.any_eq_false.1 (by decide)

/-- The mark that opens a block comment holds no blank. -/
theorem not_isBlank_blockOpen : ∀ c ∈ blockOpen, ¬ isBlank c :=
  List.any_eq_false.1 (by decide)

/-- The mark that closes a block comment holds no blank. -/
theorem not_isBlank_blockClose : ∀ c ∈ blockClose, ¬ isBlank c :=
  List.any_eq_false.1 (by decide)

/-! ## Blanks at the ends -/

section Ends

variable {w : Text} (hw : ∀ c ∈ w, isBlank c)

include hw

/-- Blanks behind a line are kept with its code, or go with its last comment. -/
theorem dropBlocks_append_blank (line : Text) :
    Prod.map tidy id (dropBlocks (line ++ w)) = Prod.map tidy id (dropBlocks line) := by
  have hcut := cut?_append_blank not_isBlank_blockOpen (by decide) hw
  have hcut' := cut?_append_blank not_isBlank_blockClose (by decide) hw
  induction line using loop_induction with
  | code line hopen =>
    have hopen' : (line ++ w).cut? blockOpen = none := by rw [hcut, hopen]; rfl
    rw [dropBlocks_of_none hopen', dropBlocks_of_none hopen, Prod.map_apply, Prod.map_apply,
      tidy_append_blank hw]
  | unclosed line before inside hopen hclose =>
    have hopen' : (line ++ w).cut? blockOpen = some (before, inside ++ w) := by
      rw [hcut, hopen]; rfl
    have hclose' : (inside ++ w).cut? blockClose = none := by rw [hcut', hclose]; rfl
    rw [dropBlocks_of_unclosed hopen' hclose', dropBlocks_of_unclosed hopen hclose]
  | closed line before inside comment after hopen hclose ih =>
    have hopen' : (line ++ w).cut? blockOpen = some (before, inside ++ w) := by
      rw [hcut, hopen]; rfl
    have hclose' : (inside ++ w).cut? blockClose = some (comment, after ++ w) := by
      rw [hcut', hclose]; rfl
    rw [dropBlocks_of_closed hopen' hclose', dropBlocks_of_closed hopen hclose,
      ← List.append_assoc, ih]

/-- Blanks behind a line change its code by surplus blanks at most, and the flag not at all. -/
theorem stripCode_append_blank (line : Text) :
    Prod.map tidy id (stripCode (line ++ w)) = Prod.map tidy id (stripCode line) := by
  have hcut := cut?_append_blank not_isBlank_lineMark (by decide) hw line
  rw [stripCode, stripCode, dropLine, dropLine, hcut]
  cases line.cut? lineMark with
  | none => exact dropBlocks_append_blank hw line
  | some parts => rfl

/-- Blanks before a line are kept. -/
theorem stripCode_blank_append (line : Text) :
    stripCode (w ++ line) = (w ++ (stripCode line).1, (stripCode line).2) := by
  have hnot : Byte.slash ∉ w := fun h => absurd (hw _ h) (by decide)
  have hline : dropLine (w ++ line) = w ++ dropLine line := by
    rw [dropLine, dropLine, cut?_append_of_head (fun c hc h => hnot ?_) (by decide)]
    · cases line.cut? lineMark <;> rfl
    · exact (Option.some.inj h) ▸ hc
  have hopen : ¬ blockOpen <:+: w := fun h => hnot (h.subset (by decide))
  have hlast : w.getLast? ≠ some Byte.slash := fun h => hnot (List.mem_of_getLast? h)
  rw [stripCode, hline, dropBlocks_append hopen hlast, stripCode]

end Ends

/-! ## Runs of blanks -/

/-- Lines that look alike when collapsed do so without their block comments, too. -/
theorem dropBlocks_congr {line line' : Text} (h : collapse line = collapse line') :
    Prod.map collapse id (dropBlocks line) = Prod.map collapse id (dropBlocks line') := by
  induction line using loop_induction generalizing line' with
  | code line hopen =>
    have hopen' := cut?_eq_none_of_congr not_isBlank_blockOpen (by decide) h hopen
    rw [dropBlocks_of_none hopen, dropBlocks_of_none hopen', Prod.map_apply, Prod.map_apply, h]
  | unclosed line before inside hopen hclose =>
    obtain ⟨before', inside', hopen', hbefore, hinside⟩ :=
      exists_cut?_of_congr not_isBlank_blockOpen (by decide) h hopen
    have hclose' := cut?_eq_none_of_congr not_isBlank_blockClose (by decide) hinside hclose
    rw [dropBlocks_of_unclosed hopen hclose, dropBlocks_of_unclosed hopen' hclose',
      Prod.map_apply, Prod.map_apply, hbefore]
  | closed line before inside comment after hopen hclose ih =>
    obtain ⟨before', inside', hopen', hbefore, hinside⟩ :=
      exists_cut?_of_congr not_isBlank_blockOpen (by decide) h hopen
    obtain ⟨comment', after', hclose', -, hafter⟩ :=
      exists_cut?_of_congr not_isBlank_blockClose (by decide) hinside hclose
    rw [dropBlocks_of_closed hopen hclose, dropBlocks_of_closed hopen' hclose']
    exact ih (collapse_append_congr hbefore hafter)

/-- Lines that collapse to the same line have codes that collapse to the same code, and the same
flag. -/
theorem stripCode_congr {line line' : Text} (h : collapse line = collapse line') :
    Prod.map collapse id (stripCode line) = Prod.map collapse id (stripCode line') := by
  refine dropBlocks_congr ?_
  cases hline : line.cut? lineMark with
  | none =>
    have hline' := cut?_eq_none_of_congr not_isBlank_lineMark (by decide) h hline
    rwa [dropLine, dropLine, hline, hline']
  | some parts =>
    obtain ⟨code', comment', hline', hcode, -⟩ :=
      exists_cut?_of_congr not_isBlank_lineMark (by decide) h hline
    rwa [dropLine, dropLine, hline, hline']

/-! ## With a comment carried in -/

/-- Outside a block comment, every line is stripped as code. -/
theorem strip_false (line : Text) :
    strip false line = (some (stripCode line).1, (stripCode line).2) := rfl

/-- Inside a block comment, a line that does not close it leaves nothing. -/
theorem strip_true_of_unclosed {line : Text} (h : line.cut? blockClose = none) :
    strip true line = (none, true) := by
  simp [strip, h]

/-- Behind the end of a carried comment, a line goes on as if it began there. -/
theorem strip_true_of_closed {line comment after : Text}
    (h : line.cut? blockClose = some (comment, after)) : strip true line = strip false after := by
  simp [strip, h]

end Comment

/-! ## What a line contributes -/

/-- What a document gets from a line without comments: its code without surplus blanks, unless
there is none, and the flag for the next line. -/
def contribution (stripped : Option Text × Bool) : Option Text × Bool :=
  (stripped.1.bind fun code => nonempty? code.tidy, stripped.2)

/-- Outside a block comment, a line contributes its code unless only blanks are left of it. -/
theorem contribution_strip_false (line : Text) :
    contribution (strip false line) = (nonempty? (stripCode line).1.tidy, (stripCode line).2) := rfl

/-- A line contributes the same with blanks before it. -/
theorem contribution_blank_append {w : Text} (hw : ∀ c ∈ w, isBlank c) (inBlock : Bool)
    (line : Text) :
    contribution (strip inBlock (w ++ line)) = contribution (strip inBlock line) := by
  cases inBlock with
  | false =>
    rw [contribution_strip_false, contribution_strip_false, stripCode_blank_append hw,
      tidy_blank_append hw]
  | true =>
    have hnot : ∀ c ∈ w, blockClose.head? ≠ some c := by
      rintro c hc h
      obtain rfl := Option.some.inj h
      exact absurd (hw _ hc) (by decide)
    have hcut := cut?_append_of_head hnot (by decide) line
    cases hclose : line.cut? blockClose with
    | none =>
      rw [hclose, Option.map_none] at hcut
      rw [strip_true_of_unclosed hcut, strip_true_of_unclosed hclose]
    | some parts =>
      rw [hclose, Option.map_some] at hcut
      rw [strip_true_of_closed hcut, strip_true_of_closed hclose]

/-- A line contributes the same with blanks behind it. -/
theorem contribution_append_blank {w : Text} (hw : ∀ c ∈ w, isBlank c) (inBlock : Bool)
    (line : Text) :
    contribution (strip inBlock (line ++ w)) = contribution (strip inBlock line) := by
  have hcode : ∀ l, contribution (strip false (l ++ w)) = contribution (strip false l) := by
    intro l
    have hstrip := stripCode_append_blank hw l
    have hcode : (stripCode (l ++ w)).1.tidy = (stripCode l).1.tidy :=
      (Prod.ext_iff.1 hstrip).1
    have hflag : (stripCode (l ++ w)).2 = (stripCode l).2 := (Prod.ext_iff.1 hstrip).2
    rw [contribution_strip_false, contribution_strip_false, hcode, hflag]
  cases inBlock with
  | false => exact hcode line
  | true =>
    have hcut := cut?_append_blank not_isBlank_blockClose (by decide) hw line
    cases hclose : line.cut? blockClose with
    | none =>
      rw [hclose, Option.map_none] at hcut
      rw [strip_true_of_unclosed hcut, strip_true_of_unclosed hclose]
    | some parts =>
      rw [hclose, Option.map_some] at hcut
      rw [strip_true_of_closed hcut, strip_true_of_closed hclose, hcode]

/-- Lines that look alike when collapsed contribute the same. -/
theorem contribution_congr (inBlock : Bool) {line line' : Text}
    (h : collapse line = collapse line') :
    contribution (strip inBlock line) = contribution (strip inBlock line') := by
  have hcode : ∀ l l', collapse l = collapse l' →
      contribution (strip false l) = contribution (strip false l') := by
    intro l l' hl
    have hstrip := stripCode_congr hl
    have hcode : collapse (stripCode l).1 = collapse (stripCode l').1 :=
      (Prod.ext_iff.1 hstrip).1
    have hflag : (stripCode l).2 = (stripCode l').2 := (Prod.ext_iff.1 hstrip).2
    rw [contribution_strip_false, contribution_strip_false, tidy_congr hcode, hflag]
  cases inBlock with
  | false => exact hcode line line' h
  | true =>
    cases hclose : line.cut? blockClose with
    | none =>
      have hclose' := cut?_eq_none_of_congr not_isBlank_blockClose (by decide) h hclose
      rw [strip_true_of_unclosed hclose, strip_true_of_unclosed hclose']
    | some parts =>
      obtain ⟨comment', after', hclose', -, hafter⟩ :=
        exists_cut?_of_congr not_isBlank_blockClose (by decide) h hclose
      rw [strip_true_of_closed hclose, strip_true_of_closed hclose']
      exact hcode _ _ hafter

/-- Whether a line is trimmed before it is stripped makes no difference to what it contributes. -/
theorem contribution_trim (inBlock : Bool) (line : Text) :
    contribution (strip inBlock line.trim) = contribution (strip inBlock line) := by
  obtain ⟨v, w, hv, hw, hline⟩ := exists_eq_blank_trim_blank line
  calc contribution (strip inBlock line.trim)
      = contribution (strip inBlock (v ++ line.trim)) := (contribution_blank_append hv _ _).symm
    _ = contribution (strip inBlock (v ++ line.trim ++ w)) :=
        (contribution_append_blank hw _ _).symm
    _ = contribution (strip inBlock line) := by rw [← hline]

/-- **A raw line is cleaned by taking out its comments and tidying what is left.** That it is
trimmed before makes no difference. -/
theorem codeLine_eq (inBlock : Bool) (raw : Text) :
    codeLine inBlock raw = contribution (strip inBlock raw) := by
  have htidy : ∀ s : Text, (nonempty? s.trim).map collapse = nonempty? s.tidy := by
    intro s
    rw [tidy, nonempty?, nonempty?]
    by_cases hs : s.trim = []
    · simp [hs]
    · simp [hs]
  rw [← contribution_trim, codeLine]
  by_cases hraw : raw.trim = []
  · rw [hraw, nonempty?, if_pos rfl]
    cases inBlock with
    | false => rw [contribution_strip_false, stripCode, dropBlocks_of_none (by rfl)]; rfl
    | true => rfl
  · rw [nonempty?, if_neg hraw]
    simp only [htidy, contribution]

/-- Surplus blanks of a raw line do not show after its cleaning. -/
theorem codeLine_tidy (inBlock : Bool) (raw : Text) :
    codeLine inBlock raw.tidy = codeLine inBlock raw := by
  rw [codeLine_eq, codeLine_eq, ← contribution_trim inBlock raw]
  exact contribution_congr inBlock (collapse_collapse _)

/-- A line of blanks is passed over. -/
theorem codeLine_of_blank {raw : Text} (h : ∀ c ∈ raw, isBlank c) (inBlock : Bool) :
    codeLine inBlock raw = (none, inBlock) := by
  rw [codeLine, trim_eq_nil_iff.2 h]
  rfl

/-! ## Documents -/

/-- Whether a block comment is open after the lines of a document, if `inBlock` says whether one is
open before them. -/
def openAfter (inBlock : Bool) : List Text → Bool
  | [] => inBlock
  | raw :: raws => openAfter (codeLine inBlock raw).2 raws

/-- The first line contributes its own code and passes its flag on to the others. -/
theorem codeLines_cons (inBlock : Bool) (raw : Text) (raws : List Text) :
    codeLines inBlock (raw :: raws) =
      (codeLine inBlock raw).1.toList ++ codeLines (codeLine inBlock raw).2 raws := by
  rw [codeLines]
  rcases codeLine inBlock raw with ⟨_ | line, inBlock'⟩ <;> rfl

/-- A document is cleaned part by part, with the flag carried over. -/
theorem codeLines_append (inBlock : Bool) (raws raws' : List Text) :
    codeLines inBlock (raws ++ raws') =
      codeLines inBlock raws ++ codeLines (openAfter inBlock raws) raws' := by
  induction raws generalizing inBlock with
  | nil => rfl
  | cons raw raws ih =>
    rw [List.cons_append, codeLines_cons, codeLines_cons, ih, List.append_assoc, openAfter]

/-- The lines of a second document go on from the flag that the first one leaves. -/
theorem openAfter_append (inBlock : Bool) (raws raws' : List Text) :
    openAfter inBlock (raws ++ raws') = openAfter (openAfter inBlock raws) raws' := by
  induction raws generalizing inBlock with
  | nil => rfl
  | cons raw raws ih => exact ih _

end CodeSimilarity
