import CodeSimilarity.Proofs.Cleaning
import CodeSimilarity.Proofs.Coverage
import CodeSimilarity.Proofs.Naming
import Mathlib.Data.List.Perm.Subperm

set_option autoImplicit false
set_option relaxedAutoImplicit false

/-!
# Appending code

Code that is appended to two documents cannot hide what they share. The lines of their normal
forms stay where they are, with the same placeholders, so every pair of windows stays a pair, and
more pairs can only make the segments grow together.

## Main results

* `normalize_isPrefix` — a normal form is a prefix of that of the longer text.
* `raw_subset_of_isPrefix` — the pairs of windows stay.
* `exists_segment_of_isPrefix` — each segment lies within one of the longer documents.
* `matches_survive_appending` — the three together, with the counts.
-/

namespace CodeSimilarity

open Text

/-! ## Normal forms -/

/-- A document is canonicalized part by part, with the naming carried over. -/
theorem Naming.canonicalizeLines_append (n : Naming) (lines lines' : List Text) :
    n.canonicalizeLines (lines ++ lines') =
      n.canonicalizeLines lines ++ (n.after lines).canonicalizeLines lines' := by
  induction lines generalizing n with
  | nil => rfl
  | cons line lines ih =>
    rw [List.cons_append, canonicalizeLines, canonicalizeLines, ih, List.cons_append, after]

/-- **What is appended changes nothing before it.** The first line of `x` may still belong to a
block comment of `a`, which makes no difference to `a`. -/
theorem normalize_isPrefix (a x : Text) : normalize a <+: normalize (a ++ Byte.newline :: x) := by
  simp only [normalize, normalizeLines, lines_append_newline, codeLines_append,
    Naming.canonicalizeLines_append]
  exact List.prefix_append _ _

/-! ## Windows -/

variable {lines lines' linesA linesA' linesB linesB' : List Text}

/-- More lines have at least as many windows. -/
theorem windowCount_mono {n m : ℕ} (h : n ≤ m) : windowCount n ≤ windowCount m := by
  unfold windowCount
  omega

/-- The windows of a document are windows of a longer one. -/
theorem window_of_isPrefix (h : lines <+: lines') {p : ℕ} (hp : p < windowCount lines.length) :
    (lines'.drop p).take windowSize = (lines.drop p).take windowSize := by
  obtain ⟨rest, rfl⟩ := h
  have hlength : p + windowSize ≤ lines.length := by
    simp only [windowCount, windowSize] at hp ⊢
    omega
  rw [List.drop_append_of_le_length (by omega), List.take_append_of_le_length]
  rw [List.length_drop]
  omega

/-- Appended lines leave the digests of the windows before them as they are. -/
theorem shingle_of_isPrefix (h : lines <+: lines') {p : ℕ} (hp : p < windowCount lines.length) :
    shingle lines' p = shingle lines p := by
  rw [shingle, windowAt, window_of_isPrefix h hp, ← windowAt, ← shingle]

/-- Appended lines take no window away from a digest. -/
theorem windowsWith_subset_of_isPrefix (h : lines <+: lines') (d : Digest) :
    DigestIndex.windowsWith lines d ⊆ DigestIndex.windowsWith lines' d := by
  intro p hp
  obtain ⟨hp, hd⟩ := DigestIndex.mem_windowsWith.1 hp
  exact DigestIndex.mem_windowsWith.2
    ⟨hp.trans_le (windowCount_mono h.length_le), (shingle_of_isPrefix h hp).trans hd⟩

/-! ## Comparisons of longer documents -/

/-- **Pairs of windows stay.** -/
theorem raw_subset_of_isPrefix (hA : linesA <+: linesA') (hB : linesB <+: linesB') :
    (Comparison.ofLines linesA linesB).raw ⊆ (Comparison.ofLines linesA' linesB').raw := by
  intro s hs
  obtain ⟨p, q, hp, hq, hpq, rfl⟩ := mem_raw_ofLines.1 hs
  refine mem_raw_ofLines.2 ⟨p, q, hp.trans_le (windowCount_mono hA.length_le),
    hq.trans_le (windowCount_mono hB.length_le), ?_, ?_⟩
  · rw [shingle_of_isPrefix hA hp, shingle_of_isPrefix hB hq, hpq]
  · rw [Segment.ofWindows, Segment.ofWindows, window_of_isPrefix hA hp]

/-- No pair of windows is counted twice, so their number does not decrease. -/
theorem length_raw_le_of_isPrefix (hA : linesA <+: linesA') (hB : linesB <+: linesB') :
    (Comparison.ofLines linesA linesB).raw.length ≤
      (Comparison.ofLines linesA' linesB').raw.length := by
  have hsub := (nodup_starts_raw linesA linesB).subperm
    (List.map_subset Segment.starts (raw_subset_of_isPrefix hA hB))
  simpa only [List.length_map] using hsub.length_le

/-- Matched digests stay matched. -/
theorem digests_subset_of_isPrefix (hA : linesA <+: linesA') (hB : linesB <+: linesB') :
    (Comparison.ofLines linesA linesB).overlap.matched.map Match.digest ⊆
      (Comparison.ofLines linesA' linesB').overlap.matched.map Match.digest := by
  intro d hd
  obtain ⟨hneA, hneB⟩ := mem_digests_ofLines.1 hd
  obtain ⟨p, hp⟩ := List.exists_mem_of_ne_nil _ hneA
  obtain ⟨q, hq⟩ := List.exists_mem_of_ne_nil _ hneB
  exact mem_digests_ofLines.2
    ⟨List.ne_nil_of_mem (windowsWith_subset_of_isPrefix hA d hp),
      List.ne_nil_of_mem (windowsWith_subset_of_isPrefix hB d hq)⟩

/-- Appended lines do not lower the number of shared digests. -/
theorem intersection_le_of_isPrefix (hA : linesA <+: linesA') (hB : linesB <+: linesB') :
    (Comparison.ofLines linesA linesB).overlap.intersection ≤
      (Comparison.ofLines linesA' linesB').overlap.intersection := by
  have hnodup := List.pairwise_map.2 (pairwise_digest_matched linesA linesB)
  have hsub := List.Nodup.subperm hnodup (digests_subset_of_isPrefix hA hB)
  simpa only [Overlap.intersection, List.length_map] using hsub.length_le

/-- **A segment lies within one segment of the longer documents.** -/
theorem exists_segment_of_isPrefix (hA : linesA <+: linesA') (hB : linesB <+: linesB')
    {s : Segment} (hs : s ∈ (Comparison.ofLines linesA linesB).segments) :
    ∃ o ∈ (Comparison.ofLines linesA' linesB').segments, s.inA ≤ o.inA ∧ s.inB ≤ o.inB := by
  refine Segment.exists_mem_merge_of_subset (raw_subset_of_isPrefix hA hB) (fun t ht => ?_) hs
  obtain ⟨p, q, -, -, -, rfl⟩ := mem_raw_ofLines.1 ht
  rw [inA_ofWindows]
  exact Int.le_add_of_nonneg_right (by decide)

/-- **Appending code cannot hide a match**: every segment of two texts lies within one segment of
the longer texts, every matched digest stays matched, and neither the number of matched digests
nor that of pairs of windows decreases. -/
theorem matches_survive_appending (a b x y : Text) :
    let before := Comparison.ofTexts a b
    let after := Comparison.ofTexts (a ++ Byte.newline :: x) (b ++ Byte.newline :: y)
    (∀ s ∈ before.segments, ∃ o ∈ after.segments, s.inA ≤ o.inA ∧ s.inB ≤ o.inB) ∧
      before.overlap.matched.map Match.digest ⊆ after.overlap.matched.map Match.digest ∧
      before.overlap.intersection ≤ after.overlap.intersection ∧
      before.raw.length ≤ after.raw.length := by
  have hA := normalize_isPrefix a x
  have hB := normalize_isPrefix b y
  exact ⟨fun s hs => exists_segment_of_isPrefix hA hB hs, digests_subset_of_isPrefix hA hB,
    intersection_le_of_isPrefix hA hB, length_raw_le_of_isPrefix hA hB⟩

/-- A copy with another name, where both texts end inside a block comment. -/
theorem matches_survive_appending_commented :
    ⟨⟨0, 2⟩, ⟨0, 2⟩, (ofAscii "VAR_1\n2\n3").lines⟩ ∈
        (Comparison.ofTexts (ofAscii "i\n2\n3/*") (ofAscii "j\n2\n3/*")).segments ∧
      ∃ o ∈ (Comparison.ofTexts (ofAscii "i\n2\n3/*" ++ Byte.newline :: ofAscii "4*/5")
          (ofAscii "j\n2\n3/*" ++ Byte.newline :: ofAscii "*/6")).segments,
        ⟨0, 2⟩ ≤ o.inA ∧ ⟨0, 2⟩ ≤ o.inB := by
  have hmem : ⟨⟨0, 2⟩, ⟨0, 2⟩, (ofAscii "VAR_1\n2\n3").lines⟩ ∈
      (Comparison.ofTexts (ofAscii "i\n2\n3/*") (ofAscii "j\n2\n3/*")).segments := by
    decide +kernel
  exact ⟨hmem, (matches_survive_appending _ _ _ _).1 _ hmem⟩

end CodeSimilarity
