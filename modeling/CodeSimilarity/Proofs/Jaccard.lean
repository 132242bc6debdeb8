import CodeSimilarity.Proofs.FirstNames
import CodeSimilarity.Proofs.Rounding
import CodeSimilarity.Proofs.Windows
import Mathlib.Data.Finset.Card

set_option autoImplicit false
set_option relaxedAutoImplicit false

/-!
# The score is a Jaccard index

An index keeps a list of postings, and an overlap is found by walking over the postings of one
document. What comes out depends on the sets of digests alone: the number of common digests, the
number of digests in either, and the score. Exchanging the documents exchanges the two sides of each
match, and nothing else.

## Main definitions

* `DigestIndex.firstDigests`, `DigestIndex.digestSet` — the digests that were entered.
* `Overlap.IsJaccard` — what an overlap counts, said about two sets of digests.
* `Match.swap` — a match with the documents exchanged.

## Main results

* `DigestIndex.postings_addAll` — an index written out from what was entered.
* `DigestIndex.matched_overlap` — the common digests written out.
* `DigestIndex.isJaccard_overlap`, `DigestIndex.matched_overlap_swap` — the counts, and the same
  with the documents exchanged.
* `score_is_jaccard_and_symmetric` — the two together, also for two texts.
-/

namespace CodeSimilarity

/-- A match with the documents exchanged. -/
def Match.swap (m : Match) : Match where
  digest := m.digest
  inA := m.inB
  inB := m.inA

/-- What an overlap says about two sets of digests. -/
structure Overlap.IsJaccard (o : Overlap) (s t : Finset Digest) : Prop where
  intersection_eq : o.intersection = (s ∩ t).card
  unionSize_eq : o.unionSize = (s ∪ t).card
  intersection_le : o.intersection ≤ o.unionSize
  all_common_iff : o.intersection = o.unionSize ∧ 0 < o.unionSize ↔ s = t ∧ s.Nonempty
  none_common_iff : o.intersection = 0 ↔ Disjoint s t
  score_eq : if o.unionSize = 0 then o.score = 0
    else o.score.IsNearest (o.intersection / o.unionSize)

namespace DigestIndex

/-! ## The postings of an index -/

/-- The digests that were entered, each once, the first entered one first. -/
def firstDigests (entries : List (Digest × Int)) : List Digest :=
  (entries.map Prod.fst).eraseDups

/-- The set of the digests that were entered. -/
def digestSet (entries : List (Digest × Int)) : Finset Digest :=
  (entries.map Prod.fst).toFinset

variable {entries entriesA entriesB : List (Digest × Int)}

/-- No digest is listed twice. -/
theorem nodup_firstDigests (entries : List (Digest × Int)) : (firstDigests entries).Nodup :=
  nodup_eraseDups _

/-- The listed digests are those that were entered. -/
theorem mem_firstDigests {d : Digest} : d ∈ firstDigests entries ↔ d ∈ digestSet entries := by
  rw [firstDigests, List.mem_eraseDups, digestSet, List.mem_toFinset]

/-- The listed digests make up the set of those that were entered. -/
theorem toFinset_firstDigests (entries : List (Digest × Int)) :
    (firstDigests entries).toFinset = digestSet entries := by
  ext d
  rw [List.mem_toFinset, mem_firstDigests]

/-- A digest is listed with its first entry, behind those before it. -/
theorem firstDigests_concat (entries : List (Digest × Int)) (e : Digest × Int) :
    firstDigests (entries ++ [e]) =
      if e.1 ∈ firstDigests entries then firstDigests entries
      else firstDigests entries ++ [e.1] := by
  have hmem : e.1 ∈ firstDigests entries ↔ e.1 ∈ entries.map Prod.fst := List.mem_eraseDups
  rw [firstDigests, List.map_append, List.eraseDups_append, ← firstDigests]
  by_cases h : e.1 ∈ entries.map Prod.fst
  · simp [List.removeAll, hmem, h]
  · simp [List.removeAll, hmem, h, List.eraseDups_cons]

/-- The digests of an index stand in the order in which they were first entered. -/
theorem map_digest_addAll (entries : List (Digest × Int)) :
    (addAll {} entries).postings.map Posting.digest = firstDigests entries := by
  induction entries using List.reverseRecOn with
  | nil => rfl
  | append_singleton entries e ih =>
    rw [addAll_concat, add, map_digest_insert, ih, firstDigests_concat]

/-- Only a digest that was never entered has no starts. -/
theorem startsOf_eq_nil_iff {d : Digest} : startsOf d entries = [] ↔ d ∉ digestSet entries := by
  simp only [startsOf, digestSet, List.map_eq_nil_iff, List.filter_eq_nil_iff, List.mem_toFinset,
    List.mem_map, decide_eq_true_eq, not_exists, not_and]

/-- Looking a digest up in an index gives the starts that were entered with it. -/
theorem find?_addAll_empty (entries : List (Digest × Int)) (d : Digest) :
    (addAll {} entries).find? d =
      if d ∈ digestSet entries then some (startsOf d entries) else none := by
  rw [find?_addAll]
  by_cases h : startsOf d entries = []
  · rw [if_pos h, if_neg (startsOf_eq_nil_iff.1 h)]
    rfl
  · rw [if_neg h, if_pos (not_not.1 fun hd => h (startsOf_eq_nil_iff.2 hd))]
    rfl

/-- **An index written out**: one posting for each digest, in the order of first entry, with all
the starts that were entered with the digest. -/
theorem postings_addAll (entries : List (Digest × Int)) :
    (addAll {} entries).postings =
      (firstDigests entries).map fun d => ⟨d, startsOf d entries⟩ := by
  have hnodup : ((addAll {} entries).postings.map Posting.digest).Nodup :=
    map_digest_addAll entries ▸ nodup_firstDigests entries
  have hstarts : ∀ p ∈ (addAll {} entries).postings, p.starts = startsOf p.digest entries := by
    intro p hp
    have hfind : (addAll {} entries).find? p.digest = some p.starts :=
      (mem_iff_find? hnodup).1 hp
    have hd : p.digest ∈ digestSet entries := by
      rw [← mem_firstDigests, ← map_digest_addAll]
      exact List.mem_map_of_mem hp
    rw [find?_addAll_empty, if_pos hd] at hfind
    exact (Option.some.inj hfind).symm
  rw [← map_digest_addAll, List.map_map]
  refine ((List.map_congr_left fun p hp => ?_).trans (List.map_id _)).symm
  rw [Function.comp_apply, ← hstarts p hp, id]

/-! ## The common digests -/

/-- The match of a digest in two documents, given by what was entered for them. -/
def matchOf (entriesA entriesB : List (Digest × Int)) (d : Digest) : Match where
  digest := d
  inA := startsOf d entriesA
  inB := startsOf d entriesB

/-- **The common digests**, each once and with all its starts in both documents, in the order in
which document A has them first. -/
theorem matched_overlap (entriesA entriesB : List (Digest × Int)) :
    ((addAll {} entriesA).overlap (addAll {} entriesB)).matched =
      ((firstDigests entriesA).filter (· ∈ digestSet entriesB)).map
        (matchOf entriesA entriesB) := by
  have hkeep : ∀ l : List Digest, l.filterMap (fun d =>
      ((addAll {} entriesB).find? d).map fun starts => ⟨d, startsOf d entriesA, starts⟩) =
        (l.filter (· ∈ digestSet entriesB)).map (matchOf entriesA entriesB) := by
    intro l
    induction l with
    | nil => rfl
    | cons d l ih =>
      by_cases hd : d ∈ digestSet entriesB
      · rw [List.filterMap_cons_some (b := matchOf entriesA entriesB d), ih,
          List.filter_cons_of_pos (by simpa using hd), List.map_cons]
        rw [find?_addAll_empty, if_pos hd]
        rfl
      · rw [List.filterMap_cons_none, ih, List.filter_cons_of_neg (by simpa using hd)]
        rw [find?_addAll_empty, if_neg hd]
        rfl
  rw [overlap, postings_addAll, List.filterMap_map]
  exact hkeep _

/-- The listed digests that were also entered elsewhere are as many as the two sets share. -/
theorem length_filter_firstDigests (entriesA entriesB : List (Digest × Int)) :
    ((firstDigests entriesA).filter (· ∈ digestSet entriesB)).length =
      (digestSet entriesA ∩ digestSet entriesB).card := by
  rw [← List.toFinset_card_of_nodup ((nodup_firstDigests entriesA).filter _), List.toFinset_filter,
    toFinset_firstDigests]
  congr 1
  ext d
  simp

/-- The intersection that is counted is the number of digests that both sets have. -/
theorem intersection_overlap (entriesA entriesB : List (Digest × Int)) :
    ((addAll {} entriesA).overlap (addAll {} entriesB)).intersection =
      (digestSet entriesA ∩ digestSet entriesB).card := by
  rw [Overlap.intersection, matched_overlap, List.length_map, length_filter_firstDigests]

/-- An index has as many postings as digests were entered. -/
theorem size_addAll (entries : List (Digest × Int)) :
    (addAll {} entries).size = (digestSet entries).card := by
  rw [size, postings_addAll, List.length_map, ← toFinset_firstDigests,
    List.toFinset_card_of_nodup (nodup_firstDigests entries)]

/-- The union that is counted is the number of digests that one of the sets has. -/
theorem unionSize_overlap (entriesA entriesB : List (Digest × Int)) :
    ((addAll {} entriesA).overlap (addAll {} entriesB)).unionSize =
      (digestSet entriesA ∪ digestSet entriesB).card := by
  rw [Overlap.unionSize, intersection_overlap, Finset.card_union]
  simp only [overlap, size_addAll]

/-- **An overlap counts two sets of digests**: its score is their Jaccard index. -/
theorem isJaccard_overlap (entriesA entriesB : List (Digest × Int)) :
    ((addAll {} entriesA).overlap (addAll {} entriesB)).IsJaccard (digestSet entriesA)
      (digestSet entriesB) := by
  have hinter := intersection_overlap entriesA entriesB
  have hunion := unionSize_overlap entriesA entriesB
  generalize (addAll {} entriesA).overlap (addAll {} entriesB) = o at hinter hunion
  generalize digestSet entriesA = s at hinter hunion
  generalize digestSet entriesB = t at hinter hunion
  have hle : o.intersection ≤ o.unionSize := by
    rw [hinter, hunion]
    exact Finset.card_le_card (Finset.inter_subset_union)
  refine ⟨hinter, hunion, hle, ?_, ?_, ?_⟩
  · have hall : (s ∩ t).card = (s ∪ t).card ↔ s = t := by
      refine ⟨fun h => ?_, fun h => by rw [h, Finset.inter_self, Finset.union_self]⟩
      exact inf_eq_sup.1 (Finset.eq_of_subset_of_card_le Finset.inter_subset_union h.ge)
    rw [hinter, hunion, hall]
    refine and_congr_right fun h => ?_
    rw [h, Finset.union_self, Finset.card_pos]
  · rw [hinter, Finset.card_eq_zero, Finset.disjoint_iff_inter_eq_empty]
  · by_cases hzero : o.unionSize = 0
    · rw [if_pos hzero, Overlap.score, if_pos hzero]
    · have hpos : 0 < o.unionSize := Nat.pos_of_ne_zero hzero
      rw [if_neg hzero, Overlap.score, if_neg hzero]
      refine Binary64.isNearest_ofRatio hpos (hle.trans_lt ?_)
      exact lt_mul_of_one_lt_right hpos Binary64.one_lt_overflow

/-- **Exchanging the documents exchanges the two sides of each match**, in another order. -/
theorem matched_overlap_swap (entriesA entriesB : List (Digest × Int)) :
    ((addAll {} entriesB).overlap (addAll {} entriesA)).matched.Perm
      (((addAll {} entriesA).overlap (addAll {} entriesB)).matched.map Match.swap) := by
  rw [matched_overlap, matched_overlap, List.map_map]
  refine List.Perm.map _ ((List.perm_ext_iff_of_nodup ((nodup_firstDigests _).filter _)
    ((nodup_firstDigests _).filter _)).2 fun d => ?_)
  simp only [List.mem_filter, mem_firstDigests, decide_eq_true_eq]
  exact and_comm

end DigestIndex

/-! ## Two documents -/

/-- Two documents are compared by the sets of their digests. -/
theorem isJaccard_ofLines (linesA linesB : List Text) :
    (Comparison.ofLines linesA linesB).overlap.IsJaccard
      (DigestIndex.digestSet (DigestIndex.entriesOf linesA))
      (DigestIndex.digestSet (DigestIndex.entriesOf linesB)) := by
  have h := DigestIndex.isJaccard_overlap (DigestIndex.entriesOf linesA)
    (DigestIndex.entriesOf linesB)
  rwa [← DigestIndex.ofLines_eq_addAll, ← DigestIndex.ofLines_eq_addAll] at h

/-- Exchanging two documents keeps the score. -/
theorem score_ofLines_swap (linesA linesB : List Text) :
    (Comparison.ofLines linesB linesA).score = (Comparison.ofLines linesA linesB).score := by
  simp only [Comparison.score, Comparison.ofLines, Overlap.score, DigestIndex.ofLines_eq_addAll,
    DigestIndex.intersection_overlap, DigestIndex.unionSize_overlap]
  rw [Finset.inter_comm, Finset.union_comm]

/-- Exchanging two documents transposes the pairs of windows. -/
theorem starts_raw_swap (linesA linesB : List Text) :
    ((Comparison.ofLines linesB linesA).raw.map Segment.starts).Perm
      (((Comparison.ofLines linesA linesB).raw.map Segment.starts).map Prod.swap) := by
  refine (List.perm_ext_iff_of_nodup (nodup_starts_raw _ _)
    ((nodup_starts_raw _ _).map Prod.swap_injective)).2 fun starts => ?_
  rw [mem_starts_raw, List.mem_map]
  constructor
  · rintro ⟨q, p, hq, hp, hpq, rfl⟩
    exact ⟨(↑p, ↑q), mem_starts_raw.2 ⟨p, q, hp, hq, hpq.symm, rfl⟩, rfl⟩
  · rintro ⟨starts', hstarts, rfl⟩
    obtain ⟨p, q, hp, hq, hpq, rfl⟩ := mem_starts_raw.1 hstarts
    exact ⟨q, p, hq, hp, hpq.symm, rfl⟩

/-- **The score is the Jaccard index of the two sets of digests, and exchanging the documents
transposes the outcome.** -/
theorem score_is_jaccard_and_symmetric :
    (∀ entriesA entriesB : List (Digest × Int),
      let a := DigestIndex.addAll {} entriesA
      let b := DigestIndex.addAll {} entriesB
      (a.overlap b).IsJaccard (DigestIndex.digestSet entriesA) (DigestIndex.digestSet entriesB) ∧
      (a.overlap b).matched =
        ((DigestIndex.firstDigests entriesA).filter (· ∈ DigestIndex.digestSet entriesB)).map
          (DigestIndex.matchOf entriesA entriesB) ∧
      (b.overlap a).intersection = (a.overlap b).intersection ∧
      (b.overlap a).unionSize = (a.overlap b).unionSize ∧
      (b.overlap a).matched.Perm ((a.overlap b).matched.map Match.swap)) ∧
    ∀ a b : Text,
      (Comparison.ofTexts b a).score = (Comparison.ofTexts a b).score ∧
      ((Comparison.ofTexts b a).raw.map Segment.starts).Perm
        (((Comparison.ofTexts a b).raw.map Segment.starts).map Prod.swap) := by
  constructor
  · intro entriesA entriesB a b
    have hab := DigestIndex.isJaccard_overlap entriesA entriesB
    have hba := DigestIndex.isJaccard_overlap entriesB entriesA
    refine ⟨hab, DigestIndex.matched_overlap entriesA entriesB, ?_, ?_,
      DigestIndex.matched_overlap_swap entriesA entriesB⟩
    · rw [hba.intersection_eq, hab.intersection_eq, Finset.inter_comm]
    · rw [hba.unionSize_eq, hab.unionSize_eq, Finset.union_comm]
  · intro a b
    exact ⟨score_ofLines_swap _ _, starts_raw_swap _ _⟩

end CodeSimilarity
