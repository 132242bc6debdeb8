import CodeSimilarity.Comparison
import CodeSimilarity.Proofs.Cleaning
import Mathlib.Logic.Relation

set_option autoImplicit false
set_option relaxedAutoImplicit false

/-!
# Layout does not matter

Documents whose lines differ in surplus blanks alone, blank lines left out, have one normal form.

## Main definitions

* `tidyLines` — the lines of a document that are not blank, without surplus blanks.
* `LayoutEdit` — one change of the layout of a text: its indentation, a blank line, a run of blanks
  or a line ending.

## Main results

* `codeLines_tidyLines` — layout does not show after the cleaning of a document.
* `tidyLines_lines_of_layoutEdit` — an edit of the layout leaves the lines as they are, up to
  surplus blanks.
* `comparison_of_relayout` — layout has no say in a comparison.
-/

namespace CodeSimilarity

open Text

/-! ## Lines up to layout -/

/-- Whether a line holds nothing but blanks. -/
def isBlankLine (raw : Text) : Bool :=
  raw.all isBlank

/-- The lines of a document that are not blank, each trimmed and then collapsed. -/
def tidyLines (raws : List Text) : List Text :=
  (raws.filter fun raw => !isBlankLine raw).map fun raw => collapse raw.trim

/-- A line is blank exactly if all of its bytes are. -/
theorem isBlankLine_iff {raw : Text} : isBlankLine raw ↔ ∀ c ∈ raw, isBlank c := by
  simp [isBlankLine]

/-- The first line is left out if it is blank. -/
theorem tidyLines_cons (raw : Text) (raws : List Text) :
    tidyLines (raw :: raws) = (nonempty? raw.tidy).toList ++ tidyLines raws := by
  rw [nonempty?]
  by_cases hraw : isBlankLine raw
  · rw [if_pos (tidy_eq_nil_iff.2 (isBlankLine_iff.1 hraw))]
    simp [tidyLines, hraw]
  · rw [if_neg fun h => hraw (isBlankLine_iff.2 (tidy_eq_nil_iff.1 h))]
    simp [tidyLines, hraw, tidy]

/-- Two documents are tidied line by line, one after the other. -/
theorem tidyLines_append (raws raws' : List Text) :
    tidyLines (raws ++ raws') = tidyLines raws ++ tidyLines raws' := by
  simp [tidyLines]

/-- A line of blanks is left out. -/
theorem tidyLines_of_blank {raw : Text} (h : ∀ c ∈ raw, isBlank c) : tidyLines [raw] = [] := by
  rw [tidyLines_cons, tidy_eq_nil_iff.2 h]
  rfl

/-- **Layout does not show after the cleaning of a document.** -/
theorem codeLines_tidyLines (inBlock : Bool) (raws : List Text) :
    codeLines inBlock (tidyLines raws) = codeLines inBlock raws := by
  induction raws generalizing inBlock with
  | nil => rfl
  | cons raw raws ih =>
    rw [tidyLines_cons, nonempty?, codeLines_cons inBlock raw]
    split
    · next hraw =>
      rw [codeLine_of_blank (tidy_eq_nil_iff.1 hraw)]
      exact ih inBlock
    · rw [Option.toList_some, List.singleton_append, codeLines_cons, codeLine_tidy, ih]

/-! ## Edits of the layout -/

/-- Blanks that do not end a line. -/
def Spacing (b : Text) : Prop :=
  ∀ c ∈ b, isBlank c ∧ c ≠ Byte.newline

/-- The text ends where a line begins: at the front of the whole text or behind a line feed. -/
def EndsAtLineStart (u : Text) : Prop :=
  u = [] ∨ ∃ t, u = t ++ [Byte.newline]

/-- The text begins where a line ends: at a line feed or at the end of the whole text. -/
def StartsAtLineEnd (v : Text) : Prop :=
  v = [] ∨ ∃ t, v = Byte.newline :: t

/-- One change of the layout of a text. -/
inductive LayoutEdit : Text → Text → Prop
  /-- A line is indented. -/
  | indent (u b v : Text) (hu : EndsAtLineStart u) (hb : Spacing b) :
      LayoutEdit (u ++ v) (u ++ b ++ v)
  /-- Blanks are put at the end of a line. -/
  | trailing (u b v : Text) (hv : StartsAtLineEnd v) (hb : Spacing b) :
      LayoutEdit (u ++ v) (u ++ b ++ v)
  /-- A blank line is inserted before a line, be it inside a block comment. -/
  | blankLine (u b v : Text) (hu : EndsAtLineStart u) (hb : Spacing b) :
      LayoutEdit (u ++ v) (u ++ b ++ Byte.newline :: v)
  /-- A blank line is put behind the last line. -/
  | lastBlankLine (u b : Text) (hb : Spacing b) : LayoutEdit u (u ++ Byte.newline :: b)
  /-- A run of blanks is replaced by another one. -/
  | blanks (u b b' v : Text) (hb : Spacing b) (hb' : Spacing b') (hne : b ≠ []) (hne' : b' ≠ []) :
      LayoutEdit (u ++ b ++ v) (u ++ b' ++ v)
  /-- A line feed is replaced by a carriage return and a line feed. -/
  | lineEnding (u v : Text) :
      LayoutEdit (u ++ Byte.newline :: v) (u ++ 0x0D :: Byte.newline :: v)

/-- Spacing is made of blanks. -/
theorem Spacing.isBlank {b : Text} (hb : Spacing b) : ∀ c ∈ b, isBlank c :=
  fun c hc => (hb c hc).1

/-- Spacing ends no line. -/
theorem Spacing.newline_notMem {b : Text} (hb : Spacing b) : Byte.newline ∉ b :=
  fun h => (hb _ h).2 rfl

/-- What follows a text that ends a line is cut into lines on its own. -/
theorem exists_lines_of_endsAtLineStart {u : Text} (hu : EndsAtLineStart u) :
    ∃ ls, ∀ v, lines (u ++ v) = ls ++ lines v := by
  rcases hu with rfl | ⟨t, rfl⟩
  · exact ⟨[], fun v => rfl⟩
  · refine ⟨lines t, fun v => ?_⟩
    rw [List.append_assoc, List.singleton_append, lines_append_newline]

/-- Before a text at which a line ends, nothing is left of that line. -/
theorem exists_lines_of_startsAtLineEnd {v : Text} (hv : StartsAtLineEnd v) :
    ∃ ms, lines v = [] :: ms := by
  rcases hv with rfl | ⟨t, rfl⟩
  · exact ⟨[], rfl⟩
  · exact ⟨lines t, rfl⟩

/-- What is inserted within a line shows in no other line. -/
theorem exists_lines_insert (u : Text) :
    ∃ ls l, ∀ v m ms, lines v = m :: ms → lines (u ++ v) = ls ++ (l ++ m) :: ms ∧
      ∀ b, Byte.newline ∉ b → lines (u ++ b ++ v) = ls ++ (l ++ b ++ m) :: ms := by
  obtain ⟨ls, l, -, happend⟩ := exists_lines_append u
  refine ⟨ls, l, fun v m ms hv => ⟨happend v m ms hv, fun b hb => ?_⟩⟩
  have hbv : lines (b ++ v) = (b ++ m) :: ms := by rw [lines_append_of_no_newline hb, hv]; rfl
  rw [List.append_assoc, happend _ _ _ hbv, List.append_assoc]

/-- Lines that differ in surplus blanks only may stand for each other in a document. -/
theorem tidyLines_congr {raw raw' : Text} (h : raw.tidy = raw'.tidy) (ls ms : List Text) :
    tidyLines (ls ++ raw :: ms) = tidyLines (ls ++ raw' :: ms) := by
  rw [tidyLines_append, tidyLines_append, tidyLines_cons, tidyLines_cons, h]

/-- Replacing a run of blanks by another one does not show in a tidied line. -/
theorem tidy_blanks {b b' : Text} (hb : Spacing b) (hb' : Spacing b') (hne : b ≠ [])
    (hne' : b' ≠ []) (l m : Text) : tidy (l ++ b ++ m) = tidy (l ++ b' ++ m) := by
  have hrun : collapse b = collapse b' := by
    rw [collapse_of_blank hne hb.isBlank, collapse_of_blank hne' hb'.isBlank]
  exact tidy_congr (collapse_append_congr (collapse_append_congr rfl hrun) rfl)

/-- Blanks at the end of a line do not show in the tidied lines of a text. -/
theorem tidyLines_lines_trailing {b v : Text} (hv : StartsAtLineEnd v) (hb : Spacing b) (u : Text) :
    tidyLines (lines (u ++ b ++ v)) = tidyLines (lines (u ++ v)) := by
  obtain ⟨ls, l, hlines⟩ := exists_lines_insert u
  obtain ⟨ms, hms⟩ := exists_lines_of_startsAtLineEnd hv
  obtain ⟨hbefore, hinsert⟩ := hlines v [] ms hms
  rw [hbefore, hinsert b hb.newline_notMem, List.append_nil, List.append_nil]
  exact tidyLines_congr (tidy_append_blank hb.isBlank l) ls ms

/-- **An edit of the layout leaves the lines of a text as they are**, up to surplus blanks. -/
theorem tidyLines_lines_of_layoutEdit {s t : Text} (h : LayoutEdit s t) :
    tidyLines s.lines = tidyLines t.lines := by
  cases h with
  | indent u b v hu hb =>
    obtain ⟨ls, hls⟩ := exists_lines_of_endsAtLineStart hu
    obtain ⟨m, ms, hv⟩ := List.exists_cons_of_ne_nil (lines_ne_nil v)
    rw [List.append_assoc, hls, hls, lines_append_of_no_newline hb.newline_notMem, hv]
    exact tidyLines_congr (tidy_blank_append hb.isBlank m).symm ls ms
  | trailing u b v hv hb => exact (tidyLines_lines_trailing hv hb u).symm
  | blankLine u b v hu hb =>
    obtain ⟨ls, hls⟩ := exists_lines_of_endsAtLineStart hu
    rw [List.append_assoc, hls, hls, lines_append_newline, lines_of_no_newline hb.newline_notMem,
      tidyLines_append, tidyLines_append, tidyLines_append, tidyLines_of_blank hb.isBlank,
      List.nil_append]
  | lastBlankLine u b hb =>
    rw [lines_append_newline, lines_of_no_newline hb.newline_notMem, tidyLines_append,
      tidyLines_of_blank hb.isBlank, List.append_nil]
  | blanks u b b' v hb hb' hne hne' =>
    obtain ⟨ls, l, hlines⟩ := exists_lines_insert u
    obtain ⟨m, ms, hv⟩ := List.exists_cons_of_ne_nil (lines_ne_nil v)
    obtain ⟨-, hinsert⟩ := hlines v m ms hv
    rw [hinsert b hb.newline_notMem, hinsert b' hb'.newline_notMem]
    exact tidyLines_congr (tidy_blanks hb hb' hne hne' l m) ls ms
  | lineEnding u v =>
    have hcr : Spacing [0x0D] := by
      intro c hc
      obtain rfl := List.mem_singleton.1 hc
      decide
    have h := tidyLines_lines_trailing (.inr ⟨v, rfl⟩) hcr u
    rw [List.append_assoc, List.singleton_append] at h
    exact h.symm

/-- Any number of such edits, done or undone, leaves the normal form of a text as it is. -/
theorem normalize_of_eqvGen {s t : Text} (h : Relation.EqvGen LayoutEdit s t) :
    normalize s = normalize t := by
  have hlines : tidyLines s.lines = tidyLines t.lines := by
    induction h with
    | rel s t hedit => exact tidyLines_lines_of_layoutEdit hedit
    | refl s => rfl
    | symm s t _ ih => exact ih.symm
    | trans s t u _ _ ih ih' => exact ih.trans ih'
  rw [normalize, normalize, normalizeLines, normalizeLines, ← codeLines_tidyLines false s.lines,
    hlines, codeLines_tidyLines]

/-- **Layout has no say in a comparison.** Documents that are given by lines have one normal form if
their lines are equal once blank lines are left out and the others are trimmed and collapsed. So
texts have one normal form, and take each other's place in every comparison, if edits of the layout
lead from one to the other. -/
theorem comparison_of_relayout :
    (∀ L₁ L₂ : List Text, tidyLines L₁ = tidyLines L₂ → normalizeLines L₁ = normalizeLines L₂) ∧
      (∀ a a' : Text, Relation.EqvGen LayoutEdit a a' → normalize a = normalize a') ∧
      ∀ a a' b b' : Text, Relation.EqvGen LayoutEdit a a' → Relation.EqvGen LayoutEdit b b' →
        Comparison.ofTexts a b = Comparison.ofTexts a' b' := by
  refine ⟨fun L₁ L₂ h => ?_, fun a a' h => normalize_of_eqvGen h, fun a a' b b' ha hb => ?_⟩
  · rw [normalizeLines, ← codeLines_tidyLines, h, codeLines_tidyLines, normalizeLines]
  · rw [Comparison.ofTexts, normalize_of_eqvGen ha, normalize_of_eqvGen hb, Comparison.ofTexts]

/-- A comment over several lines and the code behind it, laid out in two ways; and a text whose
second line is indented and whose line feed gets a carriage return. -/
theorem comparison_of_crlf :
    tidyLines [ofAscii "/* a", ofAscii "", ofAscii "\tb */ f( x);"] =
        tidyLines [ofAscii "  /* a\r", ofAscii "b  */ f(\t x); "] ∧
      normalizeLines [ofAscii "/* a", ofAscii "", ofAscii "\tb */ f( x);"] =
        normalizeLines [ofAscii "  /* a\r", ofAscii "b  */ f(\t x); "] ∧
      Relation.EqvGen LayoutEdit (ofAscii "f(x); /*\n*/ y;") (ofAscii "f(x); /*\r\n  */ y;") ∧
      normalize (ofAscii "f(x); /*\n*/ y;") = normalize (ofAscii "f(x); /*\r\n  */ y;") ∧
      Comparison.ofTexts (ofAscii "f(x); /*\n*/ y;") (ofAscii "f(x); /*\n*/ y;") =
        Comparison.ofTexts (ofAscii "f(x); /*\r\n  */ y;") (ofAscii "f(x); /*\n*/ y;") := by
  have hlines : tidyLines [ofAscii "/* a", ofAscii "", ofAscii "\tb */ f( x);"] =
      tidyLines [ofAscii "  /* a\r", ofAscii "b  */ f(\t x); "] := by decide
  have hreturn : LayoutEdit (ofAscii "f(x); /*\n*/ y;") (ofAscii "f(x); /*\r\n*/ y;") :=
    .lineEnding (ofAscii "f(x); /*") (ofAscii "*/ y;")
  have hindent : LayoutEdit (ofAscii "f(x); /*\r\n*/ y;") (ofAscii "f(x); /*\r\n  */ y;") :=
    .indent (ofAscii "f(x); /*\r\n") (ofAscii "  ") (ofAscii "*/ y;")
      (.inr ⟨ofAscii "f(x); /*\r", rfl⟩) fun c hc => by
        obtain rfl : c = Byte.space := List.eq_of_mem_replicate (n := 2) hc
        decide
  have hedits := Relation.EqvGen.trans _ _ _ (.rel _ _ hreturn) (.rel _ _ hindent)
  obtain ⟨hlist, htext, hcomparison⟩ := comparison_of_relayout
  exact ⟨hlines, hlist _ _ hlines, hedits, htext _ _ hedits, hcomparison _ _ _ _ hedits (.refl _)⟩

end CodeSimilarity
