import CodeSimilarity.Proofs.Coverage
import CodeSimilarity.Proofs.Jaccard

set_option autoImplicit false
set_option relaxedAutoImplicit false

/-!
# The counts behind a comparison

Each count of a comparison is taken at another stage: of lines, of windows, of digests, of pairs of
windows, of segments. The counts fit together, whatever the record held before.

## Main definitions

* `equalWindows` — the pairs of windows of two documents that have one digest.
* `Stats.Describes` — what the counts owe to two documents and to each other.

## Main results

* `length_raw_ofLines` — there are as many raw segments as pairs of windows with one digest.
* `intersection_eq_zero_iff` — a common digest and a raw segment imply each other.
* `four_mul_length_segments_le` — segments and the gaps between them take four lines each.
* `stats_describe_comparison` — the counts of a comparison describe it.
-/

namespace CodeSimilarity

open Text

variable {linesA linesB : List Text}

/-! ## Digests -/

/-- A document enters one digest for each of its windows. -/
theorem length_entriesOf (lines : List Text) :
    (DigestIndex.entriesOf lines).length = windowCount lines.length := by
  simp [DigestIndex.entriesOf]

/-- The size of an index is the number of digests that were entered. -/
theorem size_ofLines (lines : List Text) :
    (DigestIndex.ofLines lines).size =
      (DigestIndex.digestSet (DigestIndex.entriesOf lines)).card := by
  rw [DigestIndex.ofLines_eq_addAll, DigestIndex.size_addAll]

/-- A document has at most as many digests as windows. -/
theorem size_ofLines_le (lines : List Text) :
    (DigestIndex.ofLines lines).size ≤ windowCount lines.length := by
  rw [size_ofLines, ← length_entriesOf]
  exact (List.toFinset_card_le _).trans (List.length_map _).le

/-- A document has a digest exactly if it has a window. -/
theorem size_ofLines_eq_zero_iff (lines : List Text) :
    (DigestIndex.ofLines lines).size = 0 ↔ windowCount lines.length = 0 := by
  rw [size_ofLines, Finset.card_eq_zero, DigestIndex.digestSet, List.toFinset_eq_empty_iff,
    List.map_eq_nil_iff, ← List.length_eq_zero_iff, length_entriesOf]

/-- No more digests are common than either document has. -/
theorem intersection_le_size (linesA linesB : List Text) :
    (Comparison.ofLines linesA linesB).overlap.intersection ≤
      min (DigestIndex.ofLines linesA).size (DigestIndex.ofLines linesB).size := by
  change ((DigestIndex.ofLines linesA).overlap (DigestIndex.ofLines linesB)).intersection ≤ _
  rw [size_ofLines, size_ofLines, DigestIndex.ofLines_eq_addAll, DigestIndex.ofLines_eq_addAll,
    DigestIndex.intersection_overlap]
  exact le_min (Finset.card_le_card Finset.inter_subset_left)
    (Finset.card_le_card Finset.inter_subset_right)

/-! ## Raw segments -/

/-- The pairs of windows of two documents that have one digest. -/
def equalWindows (linesA linesB : List Text) : Finset (ℕ × ℕ) :=
  (Finset.range (windowCount linesA.length) ×ˢ Finset.range (windowCount linesB.length)).filter
    fun w => shingle linesA w.1 = shingle linesB w.2

/-- **There are as many raw segments** as pairs of windows with one digest. -/
theorem length_raw_ofLines (linesA linesB : List Text) :
    (Comparison.ofLines linesA linesB).raw.length = (equalWindows linesA linesB).card := by
  have hstarts : ((Comparison.ofLines linesA linesB).raw.map Segment.starts).toFinset =
      (equalWindows linesA linesB).image (Prod.map Nat.cast Nat.cast) := by
    ext starts
    simp only [List.mem_toFinset, mem_starts_raw, Finset.mem_image, equalWindows,
      Finset.mem_filter, Finset.mem_product, Finset.mem_range, Prod.exists, Prod.map_apply]
    constructor
    · rintro ⟨p, q, hp, hq, hpq, rfl⟩
      exact ⟨p, q, ⟨⟨hp, hq⟩, hpq⟩, rfl⟩
    · rintro ⟨p, q, ⟨⟨hp, hq⟩, hpq⟩, rfl⟩
      exact ⟨p, q, hp, hq, hpq, rfl⟩
  have hinjective : Function.Injective (Prod.map Nat.cast Nat.cast : ℕ × ℕ → ℤ × ℤ) :=
    Nat.cast_injective.prodMap Nat.cast_injective
  calc (Comparison.ofLines linesA linesB).raw.length
      = ((Comparison.ofLines linesA linesB).raw.map Segment.starts).length :=
        (List.length_map _).symm
    _ = ((Comparison.ofLines linesA linesB).raw.map Segment.starts).toFinset.card :=
        (List.toFinset_card_of_nodup (nodup_starts_raw linesA linesB)).symm
    _ = (equalWindows linesA linesB).card := by
        rw [hstarts, Finset.card_image_of_injective _ hinjective]

/-- **A common digest and a raw segment** imply each other. -/
theorem intersection_eq_zero_iff (linesA linesB : List Text) :
    (Comparison.ofLines linesA linesB).overlap.intersection = 0 ↔
      (Comparison.ofLines linesA linesB).raw = [] := by
  constructor
  · intro hzero
    refine List.eq_nil_iff_forall_not_mem.2 fun s hs => ?_
    obtain ⟨p, q, hp, hq, hpq, -⟩ := mem_raw_ofLines.1 hs
    exact (intersection_pos hp hq hpq).ne' hzero
  · intro hnil
    refine List.length_eq_zero_iff.2 (List.eq_nil_iff_forall_not_mem.2 fun m hm => ?_)
    obtain ⟨hA, hB⟩ := mem_digests_ofLines.1 (List.mem_map_of_mem hm)
    obtain ⟨p, hp, hpd⟩ := DigestIndex.windowsWith_ne_nil_iff.1 hA
    obtain ⟨q, hq, hqd⟩ := DigestIndex.windowsWith_ne_nil_iff.1 hB
    have hraw := mem_raw_ofLines.2 ⟨p, q, hp, hq, hpd.trans hqd.symm, rfl⟩
    rw [hnil] at hraw
    exact List.not_mem_nil hraw

/-! ## Merged segments -/

/-- Ranges of three lines at least, with a line between any two of them, take four lines each. -/
theorem Segment.four_mul_length_le {segments : List Segment} {start stop : ℤ}
    (hstart : start ≤ stop + 1)
    (hrange : ∀ s ∈ segments, start ≤ s.inA.first ∧ s.inA.first + 2 ≤ s.inA.last ∧
      s.inA.last < stop)
    (hgap : segments.Pairwise fun s t => s.inA.last + 2 ≤ t.inA.first) :
    start + 4 * segments.length ≤ stop + 1 := by
  induction segments generalizing start with
  | nil => simpa using hstart
  | cons s rest ih =>
    obtain ⟨hhead, htail⟩ := List.pairwise_cons.1 hgap
    obtain ⟨⟨hfirst, hlast, hstop⟩, hrest⟩ := List.forall_mem_cons.1 hrange
    -- the rest starts behind the gap that follows `s`
    have hbehind := ih (by omega) (fun t ht => ⟨hhead t ht, (hrest t ht).2⟩) htail
    rw [List.length_cons]
    omega

/-- Segments are at least three lines long and at least one line apart, so there are no more of them
than quarters of the document. -/
theorem four_mul_length_segments_le (linesA linesB : List Text) :
    4 * (Comparison.ofLines linesA linesB).segments.length ≤ linesA.length + 1 := by
  have hle : (0 : ℤ) + 4 * (Comparison.ofLines linesA linesB).segments.length ≤
      linesA.length + 1 :=
    Segment.four_mul_length_le (by omega) (fun s hs => (justified_of_mem hs).rangeA)
      (pairwise_segments linesA linesB)
  omega

/-! ## The record of counts -/

/-- The counts describe the comparison of two normal forms, and agree with each other. -/
structure Stats.Describes (s : Stats) (linesA linesB : List Text) : Prop where
  linesA_eq : s.linesA = linesA.length
  linesB_eq : s.linesB = linesB.length
  windowsA_eq : (s.windowsA : ℤ) = max 0 (s.linesA - 2)
  windowsB_eq : (s.windowsB : ℤ) = max 0 (s.linesB - 2)
  shinglesA_le : s.shinglesA ≤ s.windowsA
  shinglesB_le : s.shinglesB ≤ s.windowsB
  shinglesA_eq_zero_iff : s.shinglesA = 0 ↔ s.windowsA = 0
  shinglesB_eq_zero_iff : s.shinglesB = 0 ↔ s.windowsB = 0
  nodup_matchedDigests : s.matchedDigests.Nodup
  length_matchedDigests : s.matchedDigests.length = s.intersection
  /-- The matched digests are those of some window of both documents. -/
  mem_matchedDigests : ∀ d, d ∈ s.matchedDigests ↔
    (∃ p < s.windowsA, shingle linesA p = d) ∧ ∃ q < s.windowsB, shingle linesB q = d
  intersection_le : s.intersection ≤ min s.shinglesA s.shinglesB
  unionSize_eq : (s.unionSize : ℤ) = s.shinglesA + s.shinglesB - s.intersection
  /-- The score is the double nearest to the quotient of the two counts. -/
  score_eq : if s.unionSize = 0 then (Comparison.ofLines linesA linesB).score = 0
    else (Comparison.ofLines linesA linesB).score.IsNearest (s.intersection / s.unionSize)
  rawSegments_eq : s.rawSegments = (equalWindows linesA linesB).card
  mergedSegments_eq : s.mergedSegments = (Comparison.ofLines linesA linesB).segments.length
  mergedSegments_le : s.mergedSegments ≤ s.rawSegments
  four_mul_mergedSegments_le : 4 * s.mergedSegments ≤ s.linesA + 1
  /-- There are common digests, raw segments and merged segments, or none of them. -/
  all_zero_or_pos : s.intersection = 0 ∧ s.rawSegments = 0 ∧ s.mergedSegments = 0 ∨
    0 < s.intersection ∧ 0 < s.rawSegments ∧ 0 < s.mergedSegments

/-- There are two windows fewer than lines, and none in fewer than three lines. -/
theorem windowCount_eq (n : ℕ) : (windowCount n : ℤ) = max 0 (n - 2) := by
  unfold windowCount windowSize
  omega

/-- Common digests, raw segments and merged segments come together. -/
theorem all_zero_or_pos (linesA linesB : List Text) :
    let c := Comparison.ofLines linesA linesB
    c.overlap.intersection = 0 ∧ c.raw.length = 0 ∧ c.segments.length = 0 ∨
      0 < c.overlap.intersection ∧ 0 < c.raw.length ∧ 0 < c.segments.length := by
  intro c
  have hinter : c.overlap.intersection = 0 ↔ c.raw = [] := intersection_eq_zero_iff linesA linesB
  have hmerged : c.segments = [] ↔ c.raw = [] := Segment.merge_eq_nil_iff
  by_cases hraw : c.raw = []
  · left
    rw [hinter, List.length_eq_zero_iff, List.length_eq_zero_iff, hmerged]
    exact ⟨hraw, hraw, hraw⟩
  · right
    rw [Nat.pos_iff_ne_zero, Ne, hinter, List.length_pos_iff, List.length_pos_iff, Ne, Ne, hmerged]
    exact ⟨hraw, hraw, hraw⟩

/-- A recorded comparison is described as it is, whatever the record held before. -/
theorem describes_record (previous : Stats) (linesA linesB : List Text) :
    (previous.record (Comparison.ofLines linesA linesB)).Describes linesA linesB where
  linesA_eq := rfl
  linesB_eq := rfl
  windowsA_eq := windowCount_eq linesA.length
  windowsB_eq := windowCount_eq linesB.length
  shinglesA_le := size_ofLines_le linesA
  shinglesB_le := size_ofLines_le linesB
  shinglesA_eq_zero_iff := size_ofLines_eq_zero_iff linesA
  shinglesB_eq_zero_iff := size_ofLines_eq_zero_iff linesB
  nodup_matchedDigests := List.pairwise_map.2 (pairwise_digest_matched linesA linesB)
  length_matchedDigests := List.length_map _
  mem_matchedDigests d := mem_digests_ofLines.trans
    (and_congr DigestIndex.windowsWith_ne_nil_iff DigestIndex.windowsWith_ne_nil_iff)
  intersection_le := intersection_le_size linesA linesB
  unionSize_eq := by
    have hle := intersection_le_size linesA linesB
    simp only [Stats.record, Overlap.unionSize, Comparison.ofLines, DigestIndex.overlap] at hle ⊢
    omega
  score_eq := (isJaccard_ofLines linesA linesB).score_eq
  rawSegments_eq := length_raw_ofLines linesA linesB
  mergedSegments_eq := rfl
  mergedSegments_le := Segment.length_merge_le _
  four_mul_mergedSegments_le := four_mul_length_segments_le linesA linesB
  all_zero_or_pos := all_zero_or_pos linesA linesB

/-- **A document of less than three lines** has no score and no segments. -/
theorem score_and_segments_of_short (h : linesA.length < 3 ∨ linesB.length < 3) :
    (Comparison.ofLines linesA linesB).score = 0 ∧
      (Comparison.ofLines linesA linesB).segments = [] := by
  have hzero : (Comparison.ofLines linesA linesB).overlap.intersection = 0 := by
    have hle := intersection_le_size linesA linesB
    have hA := size_ofLines_le linesA
    have hB := size_ofLines_le linesB
    unfold windowCount windowSize at hA hB
    omega
  constructor
  · rw [Comparison.score, Overlap.score, hzero, Binary64.ofRatio_zero, ite_self]
  · exact Segment.merge_eq_nil_iff.2 ((intersection_eq_zero_iff linesA linesB).1 hzero)

/-- **The counts of a comparison** describe it and agree with each other, whatever the record held
before, and nothing of that stays but the wish to see durations. A document of less than three
lines has no score and no segments. -/
theorem stats_describe_comparison (previous : Stats) (a b : Text) :
    (previous.record (Comparison.ofTexts a b)).Describes (normalize a) (normalize b) ∧
      previous.record (Comparison.ofTexts a b) =
        Stats.record { timed := previous.timed } (Comparison.ofTexts a b) ∧
      ((normalize a).length < 3 ∨ (normalize b).length < 3 →
        (Comparison.ofTexts a b).score = 0 ∧ (Comparison.ofTexts a b).segments = []) := by
  refine ⟨describes_record previous _ _, rfl, fun hshort => ?_⟩
  exact score_and_segments_of_short hshort

/-- A text of two lines and a comment, compared with a record that was used before. -/
theorem stats_describe_comparison_short :
    Stats.record { intersection := 5, rawSegments := 7 }
        (Comparison.ofTexts (ofAscii "x;\n// y\nz;") (ofAscii "1\n2\n3")) =
      Stats.record {} (Comparison.ofTexts (ofAscii "x;\n// y\nz;") (ofAscii "1\n2\n3")) ∧
    (normalize (ofAscii "x;\n// y\nz;")).length < 3 ∧
    (Comparison.ofTexts (ofAscii "x;\n// y\nz;") (ofAscii "1\n2\n3")).score = 0 ∧
    (Comparison.ofTexts (ofAscii "x;\n// y\nz;") (ofAscii "1\n2\n3")).segments = [] := by
  have hshort : (normalize (ofAscii "x;\n// y\nz;")).length < 3 := by decide +kernel
  obtain ⟨-, hfresh, hnone⟩ := stats_describe_comparison { intersection := 5, rawSegments := 7 }
    (ofAscii "x;\n// y\nz;") (ofAscii "1\n2\n3")
  exact ⟨hfresh, hshort, hnone (.inl hshort)⟩

end CodeSimilarity
