import CodeSimilarity.Comparison
import CodeSimilarity.Proofs.AlphaEquivalence
import CodeSimilarity.Proofs.Comments

set_option autoImplicit false
set_option relaxedAutoImplicit false

/-!
# Renaming identifiers cannot change a comparison

A renaming changes the length of a text and the place of everything in it, but no byte outside
words. All that is looked at before names are numbered lies outside words: line feeds, blanks and
the marks of comments. So each step from a text to its normal form commutes with a renaming, as
long as no comment glues the words on its two sides together.

## Main definitions

* `Renaming` — an injective map from names to names.
* `Renaming.apply` — a text with all its identifiers renamed.

## Main results

* `Renaming.lines_apply`, `Renaming.trim_apply`, `Renaming.collapse_apply`, `Renaming.cut?_apply`
  — renaming commutes with the operations on texts.
* `Renaming.dropBlocks_apply`, `Renaming.strip_apply` — renaming commutes with taking out
  comments that end apart.
* `Renaming.normalize_apply` — the normal form does not depend on the names.
* `comparison_of_renamed` — nor does anything that a comparison finds out.
-/

namespace CodeSimilarity

open Text Comment

/-! ## Renamings -/

/-- A renaming: an injective map from names to names. -/
structure Renaming where
  /-- The new name of a name. -/
  toFun : Text → Text
  /-- Names go to names. -/
  isName_toFun : ∀ w, IsName w → IsName (toFun w)
  /-- Different names go to different names. -/
  injOn : Set.InjOn toFun {w | IsName w}

namespace Renaming

variable (r : Renaming)

/-- The text with all its identifiers renamed, inside comments too. -/
def apply (s : Text) : Text :=
  substitute r.toFun s

/-- A renaming puts words in place of identifiers. -/
theorem wordValued (s : Text) : WordValued r.toFun s :=
  fun _ hp hi => (r.isName_toFun _ (isName_of_mem_pieces hp hi)).1

/-- A byte that is not a word byte stays where it is. -/
@[simp] theorem apply_cons {c : UInt8} (hc : ¬ isWord c) (s : Text) :
    r.apply (c :: s) = c :: r.apply s :=
  substitute_cons hc s

/-- Two texts that no word runs across are renamed one by one. -/
theorem apply_append {s t : Text} (h : Seam s t) : r.apply (s ++ t) = r.apply s ++ r.apply t :=
  substitute_append h

/-- A renamed word is a word. -/
theorem isWord_apply {w : Text} (hw : IsWord w) : IsWord (r.apply w) := by
  rw [apply, substitute_of_isWord hw]
  exact isWord_substPiece hw (r.wordValued w)

/-- Bytes outside words are kept. -/
theorem apply_of_no_word {s : Text} (hs : ∀ c ∈ s, ¬ isWord c) : r.apply s = s := by
  induction s with
  | nil => rfl
  | cons c s ih =>
    rw [apply_cons r (hs c List.mem_cons_self), ih fun d hd => hs d (List.mem_cons_of_mem _ hd)]

/-- Renaming empties no text. -/
@[simp] theorem apply_eq_nil_iff {s : Text} : r.apply s = [] ↔ s = [] := by
  constructor
  · intro h
    cases s using piece_induction with
    | nil => rfl
    | other c s hc _ => simp [apply_cons r hc] at h
    | word w s hw hs _ =>
      rw [apply_append r (.inr hs), List.append_eq_nil_iff] at h
      exact absurd h.1 (r.isWord_apply hw).1
  · rintro rfl
    rfl

/-- A renamed text begins with a byte outside words exactly if the text does. -/
theorem head?_apply {c : UInt8} (hc : ¬ isWord c) (s : Text) :
    (r.apply s).head? = some c ↔ s.head? = some c := by
  cases s using piece_induction with
  | nil => rfl
  | other d s hd _ => simp [apply_cons r hd]
  | word w s hw hs _ =>
    obtain ⟨d, v, rfl, hd, -⟩ := hw.exists_cons
    obtain ⟨e, u, he, hew, -⟩ := (r.isWord_apply hw).exists_cons
    rw [apply_append r (.inr hs), he]
    simp only [List.cons_append, List.head?_cons, Option.some.injEq]
    constructor
    · intro h
      exact absurd (h ▸ hew) hc
    · intro h
      exact absurd (h ▸ hd) hc

/-! ## Renaming and layout -/

/-- Renaming keeps the blanks before a text. -/
theorem dropWhile_apply (s : Text) :
    (r.apply s).dropWhile isBlank = r.apply (s.dropWhile isBlank) := by
  induction s using piece_induction with
  | nil => rfl
  | other c s hc ih =>
    rw [apply_cons r hc]
    by_cases hb : isBlank c
    · rw [List.dropWhile_cons_of_pos hb, List.dropWhile_cons_of_pos hb, ih]
    · rw [List.dropWhile_cons_of_neg hb, List.dropWhile_cons_of_neg hb, apply_cons r hc]
  | word w s hw hs _ =>
    rw [dropWhile_isBlank_append hw, apply_append r (.inr hs),
      dropWhile_isBlank_append (r.isWord_apply hw)]

/-- Renaming keeps the blanks behind a text. -/
theorem trimEnd_apply (s : Text) : trimEnd (r.apply s) = r.apply (trimEnd s) := by
  induction s using piece_induction with
  | nil => rfl
  | other c s hc ih =>
    rw [apply_cons r hc, trimEnd_cons, trimEnd_cons, ih]
    simp only [apply_eq_nil_iff]
    split
    · rfl
    · rw [apply_cons r hc]
  | word w s hw hs ih =>
    have hend : StartsApart (trimEnd s) := hs.of_isPrefix (trimEnd_isPrefix s)
    have hw' := r.isWord_apply hw
    rw [apply_append r (.inr hs), trimEnd_append_of_not_isBlank fun c => hw'.not_isBlank,
      trimEnd_append_of_not_isBlank fun c => hw.not_isBlank, ih, apply_append r (.inr hend)]

/-- Renaming commutes with trimming. -/
theorem trim_apply (s : Text) : (r.apply s).trim = r.apply s.trim := by
  rw [trim_eq, trim_eq, dropWhile_apply, trimEnd_apply]

/-- Renaming commutes with collapsing blanks. -/
theorem collapse_apply (s : Text) : collapse (r.apply s) = r.apply (collapse s) := by
  induction s using piece_induction with
  | nil => rfl
  | other c s hc ih =>
    have hspace : ¬ isWord Byte.space := by decide
    rw [apply_cons r hc, collapse_cons, collapse_cons, ih]
    simp only [pushCollapsed, head?_apply r hspace]
    split
    · split
      · rfl
      · rw [apply_cons r hspace]
    · rw [apply_cons r hc]
  | word w s hw hs ih =>
    have hw' := r.isWord_apply hw
    rw [apply_append r (.inr hs), collapse_append_of_not_isBlank fun c => hw'.not_isBlank,
      collapse_append_of_not_isBlank fun c => hw.not_isBlank, ih,
      apply_append r (.inr (startsApart_collapse hs))]

/-- Renaming commutes with cutting a text into lines. -/
theorem lines_apply (s : Text) : (r.apply s).lines = s.lines.map r.apply := by
  induction s using piece_induction with
  | nil => rfl
  | other c s hc ih =>
    obtain ⟨l, ls, hl⟩ := List.exists_cons_of_ne_nil (lines_ne_nil s)
    rw [apply_cons r hc, lines_cons, lines_cons, ih, hl, pushLine, pushLine]
    split
    · simp
    · simp [apply_cons r hc]
  | word w s hw hs ih =>
    obtain ⟨l, ls, hl⟩ := List.exists_cons_of_ne_nil (lines_ne_nil s)
    have hhead := (lines_parts s).1
    rw [hl] at ih hhead
    have hseam : Seam w l := .inr (hs.of_isPrefix hhead)
    rw [apply_append r (.inr hs), lines_append_of_no_newline (r.isWord_apply hw).newline_notMem,
      lines_append_of_no_newline hw.newline_notMem, ih, hl]
    simp [apply_append r hseam]

/-! ## Renaming and comments -/

/-- Renaming neither brings nor takes a mark at the front of a text. -/
theorem isPrefix_apply_iff {mark : Text} (hmark : ∀ c ∈ mark, ¬ isWord c) {s : Text} :
    mark <+: r.apply s ↔ mark <+: s := by
  induction mark generalizing s with
  | nil => simp
  | cons m mark ih =>
    have hm := hmark m List.mem_cons_self
    cases s using piece_induction with
    | nil => rfl
    | other c s hc _ =>
      rw [apply_cons r hc, List.cons_prefix_cons, List.cons_prefix_cons,
        ih fun c hc => hmark c (List.mem_cons_of_mem _ hc)]
    | word w s hw hs _ =>
      obtain ⟨d, v, rfl, hd, -⟩ := hw.exists_cons
      obtain ⟨e, u, he, hew, -⟩ := (r.isWord_apply hw).exists_cons
      rw [apply_append r (.inr hs), he, List.cons_append, List.cons_append, List.cons_prefix_cons,
        List.cons_prefix_cons]
      constructor
      · intro h
        exact absurd (h.1 ▸ hew) hm
      · intro h
        exact absurd (h.1 ▸ hd) hm

/-- Renaming commutes with cutting a text at a mark, if the mark holds no word byte. -/
theorem cut?_apply {mark : Text} (hne : mark ≠ []) (hmark : ∀ c ∈ mark, ¬ isWord c) (s : Text) :
    (r.apply s).cut? mark = (s.cut? mark).map (Prod.map r.apply r.apply) := by
  induction s using piece_induction with
  | nil => rfl
  | other c s hc ih =>
    by_cases hp : mark <+: c :: s
    · obtain ⟨t, ht⟩ := hp
      have hseam : Seam mark t := .inl fun d hd => hmark d (List.mem_of_mem_getLast? hd)
      rw [← ht, apply_append r hseam, r.apply_of_no_word hmark, cut?_mark_append hne,
        cut?_mark_append hne]
      rfl
    · have hp' : ¬ mark <+: c :: r.apply s := by
        rwa [← apply_cons r hc, isPrefix_apply_iff r hmark]
      rw [apply_cons r hc, cut?_cons_skip hp', cut?_cons_skip hp, ih, Option.map_map,
        Option.map_map]
      refine Option.map_congr fun p _ => ?_
      simp [apply_cons r hc]
  | word w s hw hs ih =>
    have hhead : ∀ v, IsWord v → ∀ c ∈ v, mark.head? ≠ some c := by
      intro v hv c hc h
      exact hmark c (List.mem_of_mem_head? h) (hv.2 c hc)
    rw [apply_append r (.inr hs), cut?_append_of_head (hhead _ (r.isWord_apply hw)) hne,
      cut?_append_of_head (hhead w hw) hne, ih, Option.map_map, Option.map_map]
    refine Option.map_congr fun p hp => ?_
    have hstart : StartsApart p.1 := hs.of_isPrefix (isPrefix_of_cut? hp)
    simp [apply_append r (.inr hstart : Seam w p.1)]

/-- A renamed line is cut at the same line comment. -/
theorem cut?_lineMark (s : Text) :
    (r.apply s).cut? lineMark = (s.cut? lineMark).map (Prod.map r.apply r.apply) :=
  r.cut?_apply (by decide) (List.any_eq_false.1 (by decide)) s

/-- A renamed line is cut at the same opening of a block comment. -/
theorem cut?_blockOpen (s : Text) :
    (r.apply s).cut? blockOpen = (s.cut? blockOpen).map (Prod.map r.apply r.apply) :=
  r.cut?_apply (by decide) (List.any_eq_false.1 (by decide)) s

/-- A renamed line is cut at the same closing of a block comment. -/
theorem cut?_blockClose (s : Text) :
    (r.apply s).cut? blockClose = (s.cut? blockClose).map (Prod.map r.apply r.apply) :=
  r.cut?_apply (by decide) (List.any_eq_false.1 (by decide)) s

/-- Renaming commutes with taking out the line comment. -/
theorem dropLine_apply (s : Text) : dropLine (r.apply s) = r.apply (dropLine s) := by
  rw [dropLine, dropLine, cut?_lineMark]
  cases s.cut? lineMark <;> rfl

/-- Renaming commutes with taking out block comments, if these end apart: what stands before and
after a comment then never makes up one word. -/
theorem dropBlocks_apply {line : Text} (hline : ¬ lineMark <:+: line)
    (hapart : ClosesApart line) :
    dropBlocks (r.apply line) = (r.apply (dropBlocks line).1, (dropBlocks line).2) := by
  induction line using block_induction with
  | code line hopen =>
    have hopen' : (r.apply line).cut? blockOpen = none := by rw [cut?_blockOpen, hopen]; rfl
    rw [dropBlocks_of_none hopen', dropBlocks_of_none hopen]
  | unclosed line before inside hopen hclose =>
    have hopen' : (r.apply line).cut? blockOpen = some (r.apply before, r.apply inside) := by
      rw [cut?_blockOpen, hopen]; rfl
    have hclose' : (r.apply inside).cut? blockClose = none := by rw [cut?_blockClose, hclose]; rfl
    rw [dropBlocks_of_unclosed hopen' hclose', dropBlocks_of_unclosed hopen hclose]
  | closed line before inside comment after hopen hclose ih =>
    have hafter := infix_of_closed hopen hclose
    have hline' : ¬ lineMark <:+: r.apply line := by
      rw [← cut?_eq_none_iff (by decide)] at hline ⊢
      rw [cut?_lineMark, hline]; rfl
    have hopen' : (r.apply line).cut? blockOpen = some (r.apply before, r.apply inside) := by
      rw [cut?_blockOpen, hopen]; rfl
    have hclose' :
        (r.apply inside).cut? blockClose = some (r.apply comment, r.apply after) := by
      rw [cut?_blockClose, hclose]; rfl
    have hlineAfter : ¬ lineMark <:+: after := fun h => hline (h.trans hafter)
    have hapartAfter := hapart.of_infix hafter
    have hseam : Seam before (dropBlocks after).1 :=
      .inr (startsApart_dropBlocks hlineAfter hapartAfter
        (hapart.startsApart_of_closed hopen hclose))
    rw [dropBlocks_of_closed_of_no_line hline' hopen' hclose',
      dropBlocks_of_closed_of_no_line hline hopen hclose, ih hlineAfter hapartAfter,
      apply_append r hseam]

/-- The code of a renamed line is the renamed code, if no word byte follows a closing mark. -/
theorem stripCode_apply {line : Text} (hapart : ClosesApart line) :
    stripCode (r.apply line) = (r.apply (stripCode line).1, (stripCode line).2) := by
  rw [stripCode, dropLine_apply, stripCode,
    dropBlocks_apply r (not_infix_dropLine line) (hapart.of_infix (dropLine_isPrefix line).isInfix)]

/-- Renaming commutes with taking out all comments of a line. -/
theorem strip_apply (inBlock : Bool) {line : Text} (hapart : ClosesApart line) :
    strip inBlock (r.apply line) =
      ((strip inBlock line).1.map r.apply, (strip inBlock line).2) := by
  cases inBlock with
  | false => simp [strip, stripCode_apply r hapart]
  | true =>
    simp only [strip, cut?_blockClose, if_true]
    rcases hcut : line.cut? blockClose with _ | ⟨comment, after⟩
    · rfl
    · have hafter : ClosesApart after := hapart.of_infix (isSuffix_of_cut? hcut).isInfix
      simp [stripCode_apply r hafter]

/-! ## Renaming and the normal form -/

/-- Renaming keeps a text empty or not empty. -/
theorem nonempty?_apply (s : Text) : nonempty? (r.apply s) = (nonempty? s).map r.apply := by
  simp only [nonempty?, apply_eq_nil_iff]
  split <;> rfl

/-- Renaming commutes with the cleaning of a raw line. -/
theorem codeLine_apply (inBlock : Bool) {raw : Text} (hapart : ClosesApart raw) :
    codeLine inBlock (r.apply raw) =
      ((codeLine inBlock raw).1.map r.apply, (codeLine inBlock raw).2) := by
  simp only [codeLine, trim_apply, nonempty?_apply]
  rcases hline : nonempty? raw.trim with _ | line
  · rfl
  · have hline' : line = raw.trim := by
      unfold nonempty? at hline
      split at hline
      · simp at hline
      · simpa using hline.symm
    have htrim : ClosesApart line := hline' ▸ hapart.of_infix (trim_isInfix raw)
    simp only [Option.map_some, strip_apply r inBlock htrim]
    cases (strip inBlock line).1 with
    | none => rfl
    | some code =>
      simp only [Option.map_some, Option.bind_some, trim_apply, nonempty?_apply, Option.map_map]
      refine congrArg (·, _) (Option.map_congr fun s _ => ?_)
      exact collapse_apply r s

/-- Renaming commutes with the cleaning of a document. -/
theorem codeLines_apply (inBlock : Bool) {raws : List Text}
    (hapart : ∀ raw ∈ raws, ClosesApart raw) :
    codeLines inBlock (raws.map r.apply) = (codeLines inBlock raws).map r.apply := by
  induction raws generalizing inBlock with
  | nil => rfl
  | cons raw raws ih =>
    have hraw := hapart raw List.mem_cons_self
    have hraws : ∀ raw ∈ raws, ClosesApart raw := fun s hs => hapart s (List.mem_cons_of_mem _ hs)
    rw [List.map_cons, codeLines, codeLine_apply r inBlock hraw, codeLines]
    rcases codeLine inBlock raw with ⟨_ | line, inBlock'⟩
    · exact ih inBlock' hraws
    · simp only [Option.map_some, List.map_cons, ih inBlock' hraws]

/-- **The normal form does not depend on the names.** -/
theorem normalize_apply {text : Text} (hapart : ClosesApart text) :
    normalize (r.apply text) = normalize text := by
  have hraws : ∀ raw ∈ text.lines, ClosesApart raw := by
    intro raw hraw
    exact hapart.of_infix (infix_of_mem_lines hraw)
  have hnames : identifiers (codeLines false text.lines) ⊆ {w | IsName w} := by
    intro w hw
    exact isName_of_mem_identifiers hw
  rw [normalize, normalizeLines, lines_apply, codeLines_apply r false hraws]
  exact Naming.canonicalizeLines_map (n := {}) r.injOn r.isName_toFun (by simp) hnames

end Renaming

/-- **Renaming identifiers cannot change a comparison.** -/
theorem comparison_of_renamed (r s : Renaming) {a b : Text} (ha : ClosesApart a)
    (hb : ClosesApart b) :
    normalize (r.apply a) = normalize a ∧
      (Comparison.ofTexts (r.apply a) (s.apply b)).score = (Comparison.ofTexts a b).score ∧
      (Comparison.ofTexts (r.apply a) (s.apply b)).segments = (Comparison.ofTexts a b).segments ∧
      ∀ stats : Stats, stats.record (Comparison.ofTexts (r.apply a) (s.apply b)) =
        stats.record (Comparison.ofTexts a b) := by
  have hcomparison :
      Comparison.ofTexts (r.apply a) (s.apply b) = Comparison.ofTexts a b := by
    rw [Comparison.ofTexts, Comparison.ofTexts, r.normalize_apply ha, s.normalize_apply hb]
  rw [hcomparison]
  exact ⟨r.normalize_apply ha, rfl, rfl, fun _ => rfl⟩

/-- The renaming that puts an `x` before every name. No reserved word begins with `x`. -/
def Renaming.prepend : Renaming where
  toFun w := 0x78 :: w
  isName_toFun w hw := by
    have hreserved : isReserved (0x78 :: w) = false := by
      simpa using Naming.not_isReserved_of_head (c := 0x78) (by decide) (w := 0x78 :: w) rfl
    refine ⟨⟨by simp, fun c hc => ?_⟩, ?_⟩
    · rcases List.mem_cons.1 hc with rfl | hc
      · decide
      · exact hw.1.2 c hc
    · simp only [isIdentifier, hreserved, List.head?_cons, Option.any_some]
      decide
  injOn _ _ _ _ h := (List.cons.inj h).2

/-- Two texts with one window in common, the first one with names in a comment, some of them
looking like placeholders, the second one with a comment that opens twice. Their renamed forms
share this window too. -/
theorem comparison_of_prepended :
    let a := ofAscii "int VAR_2; /* VAR_2\n y */\ny = VAR_2;\nreturn y;\n"
    let b := ofAscii "0\n/*/ q */ int q;\nw = q;\nreturn w;"
    let renamed := Comparison.ofTexts (Renaming.prepend.apply a) (Renaming.prepend.apply b)
    ClosesApart a ∧ ClosesApart b ∧
      Renaming.prepend.apply b = ofAscii "0\n/*/ xq */ int xq;\nxw = xq;\nreturn xw;" ∧
      renamed.segments =
        [⟨⟨0, 2⟩, ⟨1, 3⟩, (ofAscii "int VAR_1;\nVAR_2 = VAR_1;\nreturn VAR_2;").lines⟩] ∧
      renamed.score = (Comparison.ofTexts a b).score ∧
      normalize (Renaming.prepend.apply a) = normalize a := by
  intro a b renamed
  have ha : ClosesApart a := by decide
  have hb : ClosesApart b := by decide
  obtain ⟨hnormal, hscore, hsegments, -⟩ :=
    comparison_of_renamed Renaming.prepend Renaming.prepend ha hb
  have hwindow : (Comparison.ofTexts a b).segments =
      [⟨⟨0, 2⟩, ⟨1, 3⟩, (ofAscii "int VAR_1;\nVAR_2 = VAR_1;\nreturn VAR_2;").lines⟩] := by
    decide +kernel
  exact ⟨ha, hb, rfl, hsegments.trans hwindow, hscore, hnormal⟩

end CodeSimilarity
