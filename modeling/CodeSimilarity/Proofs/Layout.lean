import CodeSimilarity.Proofs.Pieces

set_option autoImplicit false
set_option relaxedAutoImplicit false

/-!
# Layout and words

A word holds neither blanks nor line feeds, so the functions that normalise layout pass over a
word at the front of a text.

## Main results

* `Text.trimEnd_append_of_not_isBlank`, `Text.collapse_append_of_not_isBlank`,
  `Text.lines_append_of_no_newline` — what is passed over.
* `Text.lines_append_newline`, `Text.lines_unlines` — a text is cut into lines at its line feeds
  alone.
-/

namespace CodeSimilarity.Text

/-- A blank is no word byte. -/
theorem not_isWord_of_isBlank {c : UInt8} (hc : isBlank c) : ¬ isWord c := by
  have hc' : c.toNat = 32 ∨ 9 ≤ c.toNat ∧ c.toNat ≤ 13 := by
    simpa [isBlank, Byte.space, UInt8.le_iff_toNat_le, ← UInt8.toNat_inj] using hc
  simp only [isWord, isWordStart, isDigit, Bool.or_eq_true, Bool.and_eq_true, decide_eq_true_eq,
    beq_iff_eq, UInt8.le_iff_toNat_le, ← UInt8.toNat_inj, UInt8.reduceToNat]
  omega

/-- A word holds no blank. -/
theorem IsWord.not_isBlank {w : Text} (hw : IsWord w) {c : UInt8} (hc : c ∈ w) : ¬ isBlank c := by
  intro hb
  exact not_isWord_of_isBlank hb (hw.2 c hc)

/-- The front of a text that begins outside a word begins outside a word. -/
theorem StartsApart.of_isPrefix {s t : Text} (h : s <+: t) (ht : StartsApart t) :
    StartsApart s := by
  obtain ⟨r, rfl⟩ := h
  cases s with
  | nil => exact startsApart_nil
  | cons c s => exact (startsApart_cons c s).2 ((startsApart_cons c (s ++ r)).1 ht)

/-! ## Blanks at the ends -/

/-- The text without its trailing blanks. -/
def trimEnd (s : Text) : Text :=
  (s.reverse.dropWhile isBlank).reverse

/-- Trimming drops the blanks before a text and then those behind it. -/
theorem trim_eq (s : Text) : s.trim = trimEnd (s.dropWhile isBlank) := rfl

/-- A byte stays unless it is a blank with only blanks after it. -/
theorem trimEnd_cons (c : UInt8) (s : Text) :
    trimEnd (c :: s) = if trimEnd s = [] ∧ isBlank c then [] else c :: trimEnd s := by
  simp only [trimEnd, List.reverse_cons, List.dropWhile_append, List.isEmpty_iff,
    List.reverse_eq_nil_iff]
  by_cases hs : s.reverse.dropWhile isBlank = []
  · by_cases hc : isBlank c <;> simp [hs, hc]
  · simp [hs]

/-- Trimming the end of a text leaves a prefix of it. -/
theorem trimEnd_isPrefix (s : Text) : trimEnd s <+: s := by
  have h := List.dropWhile_suffix isBlank (l := s.reverse)
  simpa [trimEnd] using List.reverse_prefix.2 h

/-- Bytes that are not blank stay in front of what is trimmed. -/
theorem trimEnd_append_of_not_isBlank {w : Text} (hw : ∀ c ∈ w, ¬ isBlank c) (s : Text) :
    trimEnd (w ++ s) = w ++ trimEnd s := by
  induction w with
  | nil => rfl
  | cons c w ih =>
    have hc := hw c List.mem_cons_self
    rw [List.cons_append, trimEnd_cons, if_neg fun h => hc h.2,
      ih fun d hd => hw d (List.mem_cons_of_mem _ hd), List.cons_append]

/-- A word at the front of a text stops the search for blanks. -/
theorem dropWhile_isBlank_append {w : Text} (hw : IsWord w) (s : Text) :
    (w ++ s).dropWhile isBlank = w ++ s := by
  obtain ⟨c, v, rfl, hc, -⟩ := hw.exists_cons
  have hb : ¬ isBlank c := fun hb => not_isWord_of_isBlank hb hc
  rw [List.cons_append, List.dropWhile_cons_of_neg hb]

/-! ## Runs of blanks -/

/-- A byte that is not a blank is put before a collapsed text as it is. -/
theorem pushCollapsed_of_not_isBlank {c : UInt8} (hc : ¬ isBlank c) (s : Text) :
    pushCollapsed c s = c :: s := if_neg hc

/-- Bytes that are not blank stay in front of what is collapsed. -/
theorem collapse_append_of_not_isBlank {w : Text} (hw : ∀ c ∈ w, ¬ isBlank c) (s : Text) :
    collapse (w ++ s) = w ++ collapse s := by
  induction w with
  | nil => rfl
  | cons c w ih =>
    rw [List.cons_append, collapse_cons, ih fun d hd => hw d (List.mem_cons_of_mem _ hd),
      pushCollapsed_of_not_isBlank (hw c List.mem_cons_self), List.cons_append]

/-- Collapsing keeps a beginning outside a word. -/
theorem startsApart_collapse {s : Text} (hs : StartsApart s) : StartsApart (collapse s) := by
  cases s with
  | nil => exact startsApart_nil
  | cons c s =>
    rw [collapse_cons, pushCollapsed]
    split
    · split
      · next h =>
        intro d hd
        rw [Option.mem_def, h, Option.some.injEq] at hd
        subst hd
        decide
      · exact (startsApart_cons _ _).2 (by decide)
    · exact (startsApart_cons _ _).2 ((startsApart_cons c s).1 hs)

/-! ## Lines -/

/-- Bytes that are no line feeds join the first line. -/
theorem lines_append_of_no_newline {w : Text} (hw : Byte.newline ∉ w) (s : Text) :
    lines (w ++ s) = (w ++ (lines s).headD []) :: (lines s).tail := by
  induction w with
  | nil =>
    obtain ⟨l, ls, h⟩ := List.exists_cons_of_ne_nil (lines_ne_nil s)
    simp [h]
  | cons c w ih =>
    rw [List.mem_cons, not_or] at hw
    rw [List.cons_append, lines_cons, ih hw.2, pushLine, if_neg fun h => hw.1 h.symm]
    rfl

/-- A word holds no line feed. -/
theorem IsWord.newline_notMem {w : Text} (hw : IsWord w) : Byte.newline ∉ w :=
  fun h => hw.not_isBlank h (by decide)

/-- The first line is the front of the text, and every other line is a part of it. -/
theorem lines_parts (s : Text) :
    (lines s).headD [] <+: s ∧ ∀ l ∈ (lines s).tail, l <:+: s := by
  induction s with
  | nil => simp
  | cons c s ih =>
    obtain ⟨l, ls, hl⟩ := List.exists_cons_of_ne_nil (lines_ne_nil s)
    rw [hl, List.headD_cons, List.tail_cons] at ih
    rw [lines_cons, hl, pushLine]
    split
    · refine ⟨List.nil_prefix, fun m hm => ?_⟩
      rcases List.mem_cons.1 hm with rfl | hm
      · exact ih.1.isInfix.trans (List.infix_cons List.infix_rfl)
      · exact (ih.2 m hm).trans (List.infix_cons List.infix_rfl)
    · refine ⟨?_, fun m hm => (ih.2 m hm).trans (List.infix_cons List.infix_rfl)⟩
      simpa using ih.1

/-- Every line is a part of the text. -/
theorem infix_of_mem_lines {s l : Text} (h : l ∈ lines s) : l <:+: s := by
  obtain ⟨m, ms, hm⟩ := List.exists_cons_of_ne_nil (lines_ne_nil s)
  have hparts := lines_parts s
  rw [hm] at h hparts
  rcases List.mem_cons.1 h with rfl | h
  · exact hparts.1.isInfix
  · exact hparts.2 l h

/-- What follows a text joins its last line. -/
theorem exists_lines_append (s : Text) :
    ∃ ls l, lines s = ls ++ [l] ∧
      ∀ t m ms, lines t = m :: ms → lines (s ++ t) = ls ++ (l ++ m) :: ms := by
  induction s with
  | nil => exact ⟨[], [], rfl, fun t m ms h => h⟩
  | cons c s ih =>
    obtain ⟨ls, l, hs, happend⟩ := ih
    by_cases hc : c = Byte.newline
    · refine ⟨[] :: ls, l, by rw [lines_cons, hs, pushLine, if_pos hc, List.cons_append], ?_⟩
      intro t m ms ht
      rw [List.cons_append, lines_cons, happend t m ms ht, pushLine, if_pos hc, List.cons_append]
    · cases ls with
      | nil =>
        refine ⟨[], c :: l, by simp [hs, pushLine, hc], fun t m ms ht => ?_⟩
        simp [happend t m ms ht, pushLine, hc]
      | cons k ls =>
        refine ⟨(c :: k) :: ls, l, by simp [hs, pushLine, hc], fun t m ms ht => ?_⟩
        simp [happend t m ms ht, pushLine, hc]

/-- A line feed keeps the lines on its two sides apart. -/
theorem lines_append_newline (s t : Text) :
    lines (s ++ Byte.newline :: t) = lines s ++ lines t := by
  obtain ⟨ls, l, hs, happend⟩ := exists_lines_append s
  rw [happend (Byte.newline :: t) [] (lines t) rfl, hs, List.append_nil, List.append_assoc,
    List.singleton_append]

/-- A text without line feeds is one line. -/
theorem lines_of_no_newline {s : Text} (hs : Byte.newline ∉ s) : lines s = [s] := by
  simpa using lines_append_of_no_newline hs []

/-- Joined lines are the first line and, behind a line feed, the others joined. -/
theorem unlines_cons (l : Text) {ls : List Text} (h : ls ≠ []) :
    unlines (l :: ls) = l ++ Byte.newline :: unlines ls := by
  obtain ⟨m, ms, rfl⟩ := List.exists_cons_of_ne_nil h
  simp [unlines, List.intercalate]

/-- One line is the whole text. -/
theorem unlines_singleton (l : Text) : unlines [l] = l := by
  simp [unlines, List.intercalate]

/-- The lines of joined lines are these lines, if there are any and no line feed is in them. -/
theorem lines_unlines {ls : List Text} (hne : ls ≠ []) (hls : ∀ l ∈ ls, Byte.newline ∉ l) :
    lines (unlines ls) = ls := by
  induction ls with
  | nil => exact absurd rfl hne
  | cons l ls ih =>
    obtain ⟨hl, hls⟩ := List.forall_mem_cons.1 hls
    by_cases hnil : ls = []
    · rw [hnil, unlines_singleton, lines_of_no_newline hl]
    · rw [unlines_cons l hnil, lines_append_newline, lines_of_no_newline hl, ih hnil hls,
        List.singleton_append]

/-- Trimming gives a part of the text. -/
theorem trim_isInfix (s : Text) : s.trim <:+: s :=
  (trimEnd_isPrefix _).isInfix.trans (List.dropWhile_suffix isBlank).isInfix

end CodeSimilarity.Text
