import CodeSimilarity.Shingle
import CodeSimilarity.Proofs.FingerprintScan
import CodeSimilarity.Proofs.Layout

set_option autoImplicit false
set_option relaxedAutoImplicit false

/-!
# Fingerprints of lines

The scan may look beyond the end of a line: for a group that belongs to the last word of the line,
and for the parenthesis that closes a group. Where neither happens, a line feed stands between the
fingerprints of what is before it and of what is behind it.

## Main definitions

* `IsSelfContained` — a line closes its groups and belongs to no word before it.

## Main results

* `fingerprint_append_newline` — the fingerprint at a line feed that no group crosses.
* `fingerprint_unlines` — the fingerprint of any number of lines.
* `fingerprint_of_lines` — both, with the lines of a window.
-/

namespace CodeSimilarity

open Text

variable {s t line : Text} {lines : List Text}

/-- A line feed is a blank before a group. -/
theorem opensGroup_newline_cons : OpensGroup (Byte.newline :: t) ↔ OpensGroup t := by
  have hdrop : (Byte.newline :: t).dropWhile isBlank = t.dropWhile isBlank :=
    List.dropWhile_cons_of_pos (by decide)
  rw [OpensGroup, hdrop, OpensGroup]

/-- A line feed makes a joint, unless a group follows. -/
theorem joint_newline (h : ¬ OpensGroup t) : Joint s (Byte.newline :: t) where
  word := .inr ((startsApart_cons _ t).2 (by decide))
  comparison _ _ _ := by
    rw [List.head?_cons]
    decide
  group := fun hopens => h (opensGroup_newline_cons.1 hopens)

/-- A line feed is kept. -/
theorem fingerprint_newline_cons (t : Text) :
    fingerprint (Byte.newline :: t) = Byte.newline :: fingerprint t :=
  fingerprint_operator (by decide) fun hc => absurd hc (by decide)

/-- **At a line feed that no group crosses**, the fingerprint is put together from those of the
texts before and behind it. -/
theorem fingerprint_append_newline (hs : ClosesGroups s) (ht : ¬ OpensGroup t) :
    fingerprint (s ++ Byte.newline :: t) = fingerprint s ++ Byte.newline :: fingerprint t := by
  rw [fingerprint_append (joint_newline ht) hs, fingerprint_newline_cons]

/-! ## Several lines -/

/-- No group crosses the ends of the line: it closes its groups, and its first byte that is not
blank opens none for a word before it. -/
structure IsSelfContained (line : Text) : Prop where
  closes : ClosesGroups line
  apart : ¬ OpensGroup line

/-- Lines that open no group for a word before them do not open one together. -/
theorem not_opensGroup_unlines (h : ∀ line ∈ lines, ¬ OpensGroup line) :
    ¬ OpensGroup (unlines lines) := by
  induction lines with
  | nil => decide
  | cons line lines ih =>
    obtain ⟨hline, hlines⟩ := List.forall_mem_cons.1 h
    by_cases hnil : lines = []
    · rwa [hnil, unlines_singleton]
    · rw [unlines_cons line hnil, opensGroup_append_iff, opensGroup_newline_cons]
      rintro (hopens | ⟨-, hopens⟩)
      · exact hline hopens
      · exact ih hlines hopens

/-- **The fingerprint of self-contained lines** consists of their fingerprints, line by line. -/
theorem fingerprint_unlines (h : ∀ line ∈ lines, IsSelfContained line) :
    fingerprint (unlines lines) = unlines (lines.map fingerprint) := by
  induction lines with
  | nil => exact fingerprint_nil
  | cons line lines ih =>
    obtain ⟨hline, hlines⟩ := List.forall_mem_cons.1 h
    by_cases hnil : lines = []
    · rw [hnil, unlines_singleton, List.map_singleton, unlines_singleton]
    · have happart := not_opensGroup_unlines fun l hl => (hlines l hl).apart
      rw [unlines_cons line hnil, fingerprint_append_newline hline.closes happart, ih hlines,
        List.map_cons, unlines_cons _ (by simpa using hnil)]

/-- **Fingerprints are local to lines unless a group crosses a line end**: at such a line feed the
fingerprint falls into two, and a window of self-contained lines has the fingerprints of its lines,
joined by line feeds. -/
theorem fingerprint_of_lines :
    (∀ s t, ClosesGroups s → ¬ OpensGroup t →
      fingerprint (s ++ Byte.newline :: t) = fingerprint s ++ Byte.newline :: fingerprint t) ∧
      ∀ (lines : List Text) (start : Nat),
        (∀ line ∈ (lines.drop start).take windowSize, IsSelfContained line) →
          fingerprint (windowAt lines start) =
            unlines (((lines.drop start).take windowSize).map fingerprint) := by
  refine ⟨?_, ?_⟩
  · intro s t hs ht
    exact fingerprint_append_newline hs ht
  · intro lines start hlines
    exact fingerprint_unlines hlines

/-- A surplus closing parenthesis before the line feed and an open group behind it cross nothing;
the lines of a window may hold whole groups. -/
theorem fingerprint_of_lines_surplus :
    (ClosesGroups (ofAscii "f(a(b)) ) x") ∧ ¬ OpensGroup (ofAscii " y = g(") ∧
        ∀ line ∈ (([ofAscii "while (a)", ofAscii "b = c(d);", ofAscii "e"].drop 0).take
          windowSize), IsSelfContained line) ∧
      fingerprint (ofAscii "f(a(b)) ) x" ++ Byte.newline :: ofAscii " y = g(") =
        fingerprint (ofAscii "f(a(b)) ) x") ++ Byte.newline :: fingerprint (ofAscii " y = g(") ∧
      fingerprint (windowAt [ofAscii "while (a)", ofAscii "b = c(d);", ofAscii "e"] 0) =
        unlines ((([ofAscii "while (a)", ofAscii "b = c(d);", ofAscii "e"].drop 0).take
          windowSize).map fingerprint) := by
  have hs : ClosesGroups (ofAscii "f(a(b)) ) x") := by decide
  have ht : ¬ OpensGroup (ofAscii " y = g(") := by decide
  have hlines : ∀ line ∈ (([ofAscii "while (a)", ofAscii "b = c(d);", ofAscii "e"].drop 0).take
      windowSize), IsSelfContained line := by
    intro line hline
    simp only [windowSize, List.drop_zero, List.take_succ_cons, List.take_zero, List.mem_cons,
      List.not_mem_nil, or_false] at hline
    rcases hline with rfl | rfl | rfl
    all_goals exact ⟨by decide, by decide⟩
  obtain ⟨hjoined, hwindow⟩ := fingerprint_of_lines
  exact ⟨⟨hs, ht, hlines⟩, hjoined _ _ hs ht, hwindow _ 0 hlines⟩

end CodeSimilarity
