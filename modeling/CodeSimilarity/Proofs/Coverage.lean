import CodeSimilarity.Proofs.Merging
import CodeSimilarity.Proofs.Windows

set_option autoImplicit false
set_option relaxedAutoImplicit false

/-!
# What the segments of a comparison say

A comparison shows some segments of the two documents. Nothing that the documents share is missing
from them, and nothing is in them without a reason.

## Main definitions

* `PairWithin` — two windows with one digest that lie within the two ranges of a segment.
* `Justified` — every line of a segment belongs to such a pair.
* `SharedRun` — windows of the two documents that follow each other and have the same digests.
* `Segment.Covers` — a segment holds the lines of such a run.

## Main results

* `segments_justified` — every segment of a comparison is justified, and no two touch.
* `exists_covers_of_sharedRun` — a shared run lies in one segment.
* `segments_self` — a document and its copy have one segment.
* `copied_block_covered` — no copied block is missed.
-/

namespace CodeSimilarity

open Segment Text

variable {linesA linesB : List Text}

/-! ## Segments are justified -/

/-- The window of document A at line `p` and that of document B at line `q` have one digest and
lie within the ranges of the segment `s`. -/
structure PairWithin (linesA linesB : List Text) (s : Segment) (p q : ℕ) : Prop where
  windowA : p < windowCount linesA.length
  windowB : q < windowCount linesB.length
  shingle_eq : shingle linesA p = shingle linesB q
  inA : s.inA.first ≤ p ∧ (p : ℤ) + 2 ≤ s.inA.last
  inB : s.inB.first ≤ q ∧ (q : ℤ) + 2 ≤ s.inB.last

/-- A segment is justified: its ranges are ranges of the documents and hold a window at least,
every line of its range in document A belongs to a window that is paired with one of document B
within the ranges, and so do the windows at the ends of both ranges. -/
structure Justified (linesA linesB : List Text) (s : Segment) : Prop where
  rangeA : 0 ≤ s.inA.first ∧ s.inA.first + 2 ≤ s.inA.last ∧ s.inA.last < linesA.length
  rangeB : 0 ≤ s.inB.first ∧ s.inB.first + 2 ≤ s.inB.last ∧ s.inB.last < linesB.length
  line : ∀ k : ℤ, s.inA.first ≤ k → k ≤ s.inA.last →
    ∃ p q : ℕ, PairWithin linesA linesB s p q ∧ p ≤ k ∧ k ≤ p + 2
  firstA : ∃ p q : ℕ, PairWithin linesA linesB s p q ∧ (p : ℤ) = s.inA.first
  lastA : ∃ p q : ℕ, PairWithin linesA linesB s p q ∧ (p : ℤ) = s.inA.last - 2
  firstB : ∃ p q : ℕ, PairWithin linesA linesB s p q ∧ (q : ℤ) = s.inB.first
  lastB : ∃ p q : ℕ, PairWithin linesA linesB s p q ∧ (q : ℤ) = s.inB.last - 2

/-- The segment of two windows covers the first one's lines in document A. -/
theorem inA_ofWindows (p q : ℕ) : (ofWindows linesA p q).inA = ⟨p, p + 2⟩ := by
  simp only [ofWindows, LineRange.ofWindow, windowSize, LineRange.mk.injEq, true_and]
  omega

/-- The segment of two windows covers the second one's lines in document B. -/
theorem inB_ofWindows (p q : ℕ) : (ofWindows linesA p q).inB = ⟨q, q + 2⟩ := by
  simp only [ofWindows, LineRange.ofWindow, windowSize, LineRange.mk.injEq, true_and]
  omega

/-- The members of a group of raw segments are pairs of windows within its hull. -/
theorem exists_pairWithin {o t : Segment} {group : List Segment}
    (hraw : ∀ t ∈ group, t ∈ (Comparison.ofLines linesA linesB).raw) (hhull : IsHull o group)
    (ht : t ∈ group) :
    ∃ p q : ℕ, PairWithin linesA linesB o p q ∧ (t.inA.first = p ∧ t.inA.last = p + 2) ∧
      t.inB.first = q ∧ t.inB.last = q + 2 := by
  obtain ⟨p, q, hp, hq, hpq, rfl⟩ := mem_raw_ofLines.1 (hraw t ht)
  have hA := hhull.inA_le _ ht
  have hB := hhull.inB_le _ ht
  rw [inA_ofWindows, LineRange.mk_le] at hA
  rw [inB_ofWindows, LineRange.mk_le] at hB
  rw [inA_ofWindows, inB_ofWindows]
  exact ⟨p, q, ⟨hp, hq, hpq, hA, hB⟩, ⟨rfl, rfl⟩, rfl, rfl⟩

/-- The hull of a group of raw segments is justified. -/
theorem justified_of_isHull {o : Segment} {group : List Segment}
    (hraw : ∀ t ∈ group, t ∈ (Comparison.ofLines linesA linesB).raw) (hhull : IsHull o group) :
    Justified linesA linesB o := by
  -- each bound of the hull is that of a member, which is a pair of windows
  have hfirstA : ∃ p q : ℕ, PairWithin linesA linesB o p q ∧ (p : ℤ) = o.inA.first := by
    obtain ⟨t, ht, hbound⟩ := hhull.firstA
    obtain ⟨p, q, hw, hA, hB⟩ := exists_pairWithin hraw hhull ht
    exact ⟨p, q, hw, by omega⟩
  have hlastA : ∃ p q : ℕ, PairWithin linesA linesB o p q ∧ (p : ℤ) = o.inA.last - 2 := by
    obtain ⟨t, ht, hbound⟩ := hhull.lastA
    obtain ⟨p, q, hw, hA, hB⟩ := exists_pairWithin hraw hhull ht
    exact ⟨p, q, hw, by omega⟩
  have hfirstB : ∃ p q : ℕ, PairWithin linesA linesB o p q ∧ (q : ℤ) = o.inB.first := by
    obtain ⟨t, ht, hbound⟩ := hhull.firstB
    obtain ⟨p, q, hw, hA, hB⟩ := exists_pairWithin hraw hhull ht
    exact ⟨p, q, hw, by omega⟩
  have hlastB : ∃ p q : ℕ, PairWithin linesA linesB o p q ∧ (q : ℤ) = o.inB.last - 2 := by
    obtain ⟨t, ht, hbound⟩ := hhull.lastB
    obtain ⟨p, q, hw, hA, hB⟩ := exists_pairWithin hraw hhull ht
    exact ⟨p, q, hw, by omega⟩
  refine ⟨?_, ?_, ?_, hfirstA, hlastA, hfirstB, hlastB⟩
  · obtain ⟨p, q, hw, hp⟩ := hfirstA
    obtain ⟨p', q', hw', hp'⟩ := hlastA
    have hlength := hw'.windowA
    have hin := hw.inA
    simp only [windowCount, windowSize] at hlength
    omega
  · obtain ⟨p, q, hw, hq⟩ := hfirstB
    obtain ⟨p', q', hw', hq'⟩ := hlastB
    have hlength := hw'.windowB
    have hin := hw.inB
    simp only [windowCount, windowSize] at hlength
    omega
  · intro k hk hk'
    obtain ⟨t, ht, hcover⟩ := hhull.filled k hk hk'
    obtain ⟨p, q, hw, hA, hB⟩ := exists_pairWithin hraw hhull ht
    exact ⟨p, q, hw, by omega⟩

/-- Every segment of a comparison is justified. -/
theorem justified_of_mem {s : Segment} (h : s ∈ (Comparison.ofLines linesA linesB).segments) :
    Justified linesA linesB s := by
  obtain ⟨group, hraw, hhull⟩ := exists_hull_of_mem_merge h
  exact justified_of_isHull hraw hhull

/-- Between two segments of a comparison lies a line of document A. -/
theorem pairwise_segments (linesA linesB : List Text) :
    (Comparison.ofLines linesA linesB).segments.Pairwise fun s t =>
      s.inA.last + 2 ≤ t.inA.first :=
  (pairwise_merge _).imp fun h => by omega

/-- **Every segment of a comparison is justified**, and the segments ascend in document A without
touching each other. -/
theorem segments_justified (a b : Text) :
    (∀ s ∈ (Comparison.ofTexts a b).segments, Justified (normalize a) (normalize b) s) ∧
      (Comparison.ofTexts a b).segments.Pairwise fun s t => s.inA.last + 2 ≤ t.inA.first := by
  constructor
  · intro s hs
    exact justified_of_mem hs
  · exact pairwise_segments _ _

/-- A text that stands, with one name replaced, behind another line. -/
theorem segments_justified_shifted :
    ⟨⟨0, 2⟩, ⟨1, 3⟩, (ofAscii "VAR_1\n2\n3").lines⟩ ∈
        (Comparison.ofTexts (ofAscii "i\n2\n3") (ofAscii "0\nj\n2\n3")).segments ∧
      Justified (normalize (ofAscii "i\n2\n3")) (normalize (ofAscii "0\nj\n2\n3"))
        ⟨⟨0, 2⟩, ⟨1, 3⟩, (ofAscii "VAR_1\n2\n3").lines⟩ := by
  have hmem : ⟨⟨0, 2⟩, ⟨1, 3⟩, (ofAscii "VAR_1\n2\n3").lines⟩ ∈
      (Comparison.ofTexts (ofAscii "i\n2\n3") (ofAscii "0\nj\n2\n3")).segments := by
    decide +kernel
  exact ⟨hmem, (segments_justified _ _).1 _ hmem⟩

/-! ## No copied block is missed -/

/-- From line `p` of document A and line `q` of document B on, `m` windows of the two documents
have the same digests, one after the other. -/
def SharedRun (linesA linesB : List Text) (p q m : ℕ) : Prop :=
  ∀ k < m, p + k < windowCount linesA.length ∧ q + k < windowCount linesB.length ∧
    shingle linesA (p + k) = shingle linesB (q + k)

instance {p q m : ℕ} : Decidable (SharedRun linesA linesB p q m) :=
  inferInstanceAs (Decidable (∀ k < m, _))

/-- The segment holds the lines of `m` windows from line `p` of document A and from line `q` of
document B on. -/
def Segment.Covers (s : Segment) (p q m : ℕ) : Prop :=
  ⟨p, p + m + 1⟩ ≤ s.inA ∧ ⟨q, q + m + 1⟩ ≤ s.inB

/-- A block of the same lines is a run of the same windows. -/
theorem sharedRun_of_lines {p q m : ℕ} (hA : p + m + 2 ≤ linesA.length)
    (hB : q + m + 2 ≤ linesB.length)
    (h : (linesA.drop p).take (m + 2) = (linesB.drop q).take (m + 2)) :
    SharedRun linesA linesB p q m := by
  intro k hk
  -- the window `k` lines into a block of `m + 2` lines lies within the block
  have hwindow : ∀ (lines : List Text) (r : ℕ), (lines.drop (r + k)).take windowSize =
      (((lines.drop r).take (m + 2)).drop k).take windowSize := by
    intro lines r
    rw [List.drop_take, List.take_take, List.drop_drop, windowSize]
    congr 1
    omega
  refine ⟨?_, ?_, ?_⟩
  · unfold windowCount windowSize
    omega
  · unfold windowCount windowSize
    omega
  · unfold shingle windowAt
    rw [hwindow, hwindow, h]

/-- **A run of shared windows lies in one segment**: windows that follow each other overlap, so
the segments that hold their pairs touch, and are the same. -/
theorem exists_covers_of_sharedRun {p q m : ℕ} (hm : 1 ≤ m) (h : SharedRun linesA linesB p q m) :
    ∃ s ∈ (Comparison.ofLines linesA linesB).segments, s.Covers p q m := by
  have hcover : ∀ k < m, ∃ o ∈ (Comparison.ofLines linesA linesB).segments,
      ⟨p + k, p + k + 2⟩ ≤ o.inA ∧ ⟨q + k, q + k + 2⟩ ≤ o.inB := by
    intro k hk
    obtain ⟨hp, hq, hpq⟩ := h k hk
    have hraw := mem_raw_ofLines.2 ⟨p + k, q + k, hp, hq, hpq, rfl⟩
    obtain ⟨o, ho, hA, hB⟩ := exists_mem_merge hraw
    exact ⟨o, ho, by simpa [inA_ofWindows] using hA, by simpa [inB_ofWindows] using hB⟩
  obtain ⟨s, hs, hstart⟩ := hcover 0 (by omega)
  -- the segment of the first pair holds those of all pairs, one after the other
  have hall : ∀ k < m, ⟨p + k, p + k + 2⟩ ≤ s.inA ∧ ⟨q + k, q + k + 2⟩ ≤ s.inB := by
    intro k
    induction k with
    | zero => exact fun _ => hstart
    | succ k ih =>
      intro hk
      obtain ⟨hkA, -⟩ := ih (by omega)
      obtain ⟨o, ho, hoA, hoB⟩ := hcover (k + 1) hk
      have hso : s = o := by
        rw [LineRange.mk_le] at hkA hoA
        exact eq_of_touch hs ho (by omega) (by omega)
      exact hso ▸ ⟨hoA, hoB⟩
  obtain ⟨hlastA, hlastB⟩ := hall (m - 1) (by omega)
  simp only [LineRange.mk_le] at hstart hlastA hlastB
  exact ⟨s, hs, LineRange.mk_le.2 (by omega), LineRange.mk_le.2 (by omega)⟩

/-! ### Copies of a whole document -/

/-- A document and its copy share all their digests. -/
theorem intersection_self (lines : List Text) :
    (Comparison.ofLines lines lines).overlap.intersection =
      (Comparison.ofLines lines lines).overlap.unionSize := by
  have hlength : (Comparison.ofLines lines lines).overlap.intersection =
      (DigestIndex.ofLines lines).size := by
    refine List.filterMap_length_eq_length.2 fun p hp => ?_
    have hfind : (DigestIndex.ofLines lines).find? p.digest = some p.starts :=
      (DigestIndex.mem_iff_find? (DigestIndex.nodup_ofLines lines)).1 hp
    simp [hfind]
  rw [Overlap.unionSize, hlength]
  exact (Nat.add_sub_cancel _ _).symm

/-- A window of both documents with one digest shows in the intersection. -/
theorem intersection_pos {p q : ℕ} (hp : p < windowCount linesA.length)
    (hq : q < windowCount linesB.length) (hpq : shingle linesA p = shingle linesB q) :
    0 < (Comparison.ofLines linesA linesB).overlap.intersection := by
  obtain ⟨m, hm, -⟩ := exists_mem_matched_ofLines hp hq hpq
  exact List.length_pos_of_mem hm

/-- A document of three lines at least and its copy have one segment, which spans both. -/
theorem segments_self {lines : List Text} (h : 3 ≤ lines.length) :
    ∃ s, (Comparison.ofLines lines lines).segments = [s] ∧
      s.inA = ⟨0, lines.length - 1⟩ ∧ s.inB = ⟨0, lines.length - 1⟩ := by
  have hrun : SharedRun lines lines 0 0 (lines.length - 2) :=
    sharedRun_of_lines (by omega) (by omega) rfl
  obtain ⟨s, hs, hA, hB⟩ := exists_covers_of_sharedRun (by omega) hrun
  rw [LineRange.mk_le] at hA hB
  have hsame : ∀ t ∈ (Comparison.ofLines lines lines).segments, t = s := by
    intro t ht
    have hrange := (justified_of_mem ht).rangeA
    exact eq_of_touch ht hs (by omega) (by omega)
  have hsegments : (Comparison.ofLines lines lines).segments = [s] := by
    have hgap := pairwise_segments lines lines
    obtain ⟨x, xs, hlist⟩ := List.exists_cons_of_ne_nil (List.ne_nil_of_mem hs)
    rw [hlist] at hsame hgap ⊢
    have hx : x = s := hsame x List.mem_cons_self
    cases xs with
    | nil => rw [hx]
    | cons y ys =>
      have hy : y = s := hsame y (by simp)
      have hxy := (List.pairwise_cons.1 hgap).1 y List.mem_cons_self
      rw [hx, hy] at hxy
      omega
  obtain ⟨hfirstA, -, hlastA⟩ := (justified_of_mem hs).rangeA
  obtain ⟨hfirstB, -, hlastB⟩ := (justified_of_mem hs).rangeB
  refine ⟨s, hsegments, ?_, ?_⟩
  · exact LineRange.le_antisymm ⟨hfirstA, Int.le_sub_one_of_lt hlastA⟩
      (LineRange.mk_le.2 (by omega))
  · exact LineRange.le_antisymm ⟨hfirstB, Int.le_sub_one_of_lt hlastB⟩
      (LineRange.mk_le.2 (by omega))

/-- **No copied block is missed**: a run of shared windows, and so a block of the same lines, lies
in one segment, and two documents with one normal form of three lines at least share all their
digests and have one segment, which spans both. -/
theorem copied_block_covered (a b : Text) :
    (∀ p q m : ℕ, 1 ≤ m → SharedRun (normalize a) (normalize b) p q m →
      ∃ s ∈ (Comparison.ofTexts a b).segments, s.Covers p q m) ∧
    (∀ p q m : ℕ, 1 ≤ m →
      p + m + 2 ≤ (normalize a).length → q + m + 2 ≤ (normalize b).length →
      ((normalize a).drop p).take (m + 2) = ((normalize b).drop q).take (m + 2) →
      ∃ s ∈ (Comparison.ofTexts a b).segments, s.Covers p q m) ∧
    (normalize a = normalize b → 3 ≤ (normalize a).length →
      (Comparison.ofTexts a b).overlap.intersection =
          (Comparison.ofTexts a b).overlap.unionSize ∧
        0 < (Comparison.ofTexts a b).overlap.unionSize ∧
        ∃ s, (Comparison.ofTexts a b).segments = [s] ∧
          s.inA = ⟨0, (normalize a).length - 1⟩ ∧ s.inB = ⟨0, (normalize b).length - 1⟩) := by
  refine ⟨?_, ?_, ?_⟩
  · intro p q m hm hrun
    exact exists_covers_of_sharedRun hm hrun
  · intro p q m hm hA hB hblock
    exact exists_covers_of_sharedRun hm (sharedRun_of_lines hA hB hblock)
  · intro hab hlength
    rw [Comparison.ofTexts, ← hab]
    have hwindow : 0 < windowCount (normalize a).length := by
      unfold windowCount windowSize
      omega
    have hpositive := intersection_pos hwindow hwindow rfl
    have hall := intersection_self (normalize a)
    exact ⟨hall, hall ▸ hpositive, segments_self hlength⟩

/-- A block behind another line is found, and so is a whole text in which a name was replaced. -/
theorem copied_block_covered_shifted :
    (SharedRun (normalize (ofAscii "f;\n1\n2\n3")) (normalize (ofAscii "0\ng;\n1\n2\n3")) 0 1 2 ∧
      ∃ s ∈ (Comparison.ofTexts (ofAscii "f;\n1\n2\n3") (ofAscii "0\ng;\n1\n2\n3")).segments,
        s.Covers 0 1 2) ∧
    (((normalize (ofAscii "f;\n1\n2\n3")).drop 1).take 3 =
        ((normalize (ofAscii "0\ng;\n1\n2\n3")).drop 2).take 3 ∧
      ∃ s ∈ (Comparison.ofTexts (ofAscii "f;\n1\n2\n3") (ofAscii "0\ng;\n1\n2\n3")).segments,
        s.Covers 1 2 1) ∧
    normalize (ofAscii "f;\n1\n2\n3") = normalize (ofAscii "g;\n1\n2\n3") ∧
      ∃ s, (Comparison.ofTexts (ofAscii "f;\n1\n2\n3") (ofAscii "g;\n1\n2\n3")).segments = [s] ∧
        s.inA = ⟨0, 3⟩ ∧ s.inB = ⟨0, 3⟩ := by
  have hA : normalize (ofAscii "f;\n1\n2\n3") = (ofAscii "VAR_1;\n1\n2\n3").lines := by
    decide +kernel
  have hA' : normalize (ofAscii "g;\n1\n2\n3") = (ofAscii "VAR_1;\n1\n2\n3").lines := by
    decide +kernel
  have hB : normalize (ofAscii "0\ng;\n1\n2\n3") = (ofAscii "0\nVAR_1;\n1\n2\n3").lines := by
    decide +kernel
  have hrun : SharedRun (normalize (ofAscii "f;\n1\n2\n3"))
      (normalize (ofAscii "0\ng;\n1\n2\n3")) 0 1 2 := by
    rw [hA, hB]
    decide +kernel
  have hblock : ((normalize (ofAscii "f;\n1\n2\n3")).drop 1).take 3 =
      ((normalize (ofAscii "0\ng;\n1\n2\n3")).drop 2).take 3 := by
    rw [hA, hB]
    rfl
  obtain ⟨hcoversRun, hcoversBlock, -⟩ :=
    copied_block_covered (ofAscii "f;\n1\n2\n3") (ofAscii "0\ng;\n1\n2\n3")
  obtain ⟨-, -, hcopy⟩ := copied_block_covered (ofAscii "f;\n1\n2\n3") (ofAscii "g;\n1\n2\n3")
  obtain ⟨-, -, hspan⟩ := hcopy (hA.trans hA'.symm) (by rw [hA]; decide)
  rw [hA, hA'] at hspan
  refine ⟨⟨hrun, hcoversRun 0 1 2 (by decide) hrun⟩, ⟨hblock, ?_⟩, hA.trans hA'.symm, hspan⟩
  exact hcoversBlock 1 2 1 (by decide) (by rw [hA]; decide) (by rw [hB]; decide) hblock

end CodeSimilarity
