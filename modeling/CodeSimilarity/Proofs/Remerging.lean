import CodeSimilarity.Proofs.TouchingGroups
import Mathlib.Data.List.Sort

set_option autoImplicit false
set_option relaxedAutoImplicit false

/-!
# Merging again, in another order, and in parts

Segments that are merged can be merged again without a change, the order in which they were given
does not show in the ranges, and some of them may be merged beforehand. The order of the quoted
lines is the only thing that can differ.

## Main definitions

* `Segment.ranges` — the two ranges of a segment.
* `Segment.Absorbs` — a segment lies within a merged one.

## Main results

* `Segment.merge_of_pairwise` — segments with gaps between them are merged already.
* `Segment.map_ranges_merge` — segments that absorb each other merge to the same ranges.
* `Segment.merge_again` — merging is idempotent, insensitive to order and incremental.

## Design

The ranges of merged segments are settled by what lies within them: if the segments of each of
two lists lie within merged segments of the other, both lists merge to the same ranges. Permuting
the segments and merging some of them beforehand are two cases of this.
-/

namespace CodeSimilarity

namespace Segment

variable {segments segments' xs ys : List Segment}

/-! ## Segments that are merged already -/

/-- A merged segment holds a line. -/
theorem first_le_last_of_mem_merge (hrange : ∀ t ∈ segments, t.inA.first ≤ t.inA.last)
    {o : Segment} (ho : o ∈ merge segments) : o.inA.first ≤ o.inA.last := by
  obtain ⟨group, hgroup, hhull⟩ := exists_hull_of_mem_merge ho
  obtain ⟨t, ht, hfirst⟩ := hhull.firstA
  have htrange := hrange t (hgroup t ht)
  have hlast := (hhull.inA_le t ht).2
  omega

/-- Segments with gaps between them are groups of their own. -/
theorem groups_of_pairwise
    (hgap : segments.Pairwise fun s t => s.inA.last + 1 < t.inA.first) :
    groups segments = segments.map fun s => [s] := by
  induction segments with
  | nil => rfl
  | cons s rest ih =>
    obtain ⟨hhead, htail⟩ := List.pairwise_cons.1 hgap
    rw [List.map_cons, ← ih htail, groups]
    cases rest with
    | nil => rfl
    | cons t rest =>
      have ht := hhead t List.mem_cons_self
      rw [groupsFrom, if_neg (by omega)]
      rfl

/-- **Segments with gaps between them are merged already.** -/
theorem merge_of_pairwise (hrange : ∀ t ∈ segments, t.inA.first ≤ t.inA.last)
    (hgap : segments.Pairwise fun s t => s.inA.last + 1 < t.inA.first) :
    merge segments = segments := by
  have hsort : sort segments = segments := by
    refine List.mergeSort_of_pairwise (hgap.imp_of_mem fun {s t} hs _ hst => ?_)
    have hsrange := hrange s hs
    exact decide_eq_true (by omega)
  rw [merge, hsort, groups_of_pairwise hgap, List.filterMap_map]
  exact List.filterMap_some

/-- Merging merged segments again changes nothing. -/
theorem merge_merge (hrange : ∀ t ∈ segments, t.inA.first ≤ t.inA.last) :
    merge (merge segments) = merge segments :=
  merge_of_pairwise (fun _ ho => first_le_last_of_mem_merge hrange ho) (pairwise_merge segments)

/-! ## Segments that absorb each other -/

/-- The two ranges of a segment. -/
def ranges (s : Segment) : LineRange × LineRange :=
  (s.inA, s.inB)

/-- A segment lies within one of the merged segments, in both documents. -/
def Absorbs (segments : List Segment) (t : Segment) : Prop :=
  ∃ o ∈ merge segments, t.inA ≤ o.inA ∧ t.inB ≤ o.inB

/-- What absorbs some segments absorbs their merged segments. -/
theorem absorbs_merge (hrange : ∀ t ∈ segments, t.inA.first ≤ t.inA.last)
    (h : ∀ t ∈ segments, Absorbs segments' t) {o : Segment} (ho : o ∈ merge segments) :
    Absorbs segments' o := by
  obtain ⟨group, hgroup, hhull⟩ := exists_hull_of_mem_merge ho
  exact exists_mem_merge_of_isHull hhull (fun t ht => hrange t (hgroup t ht))
    fun t ht => h t (hgroup t ht)

/-- Merged segments that hold one segment are the same. -/
theorem eq_of_inA_le {o o' t : Segment} (ho : o ∈ merge segments) (ho' : o' ∈ merge segments)
    (ht : t.inA.first ≤ t.inA.last) (h : t.inA ≤ o.inA) (h' : t.inA ≤ o'.inA) : o = o' := by
  obtain ⟨hfirst, hlast⟩ := h
  obtain ⟨hfirst', hlast'⟩ := h'
  exact eq_of_touch ho ho' (by omega) (by omega)

/-- If two lists absorb each other, the ranges of each merged segment come up in both. -/
theorem exists_ranges_eq (hxs : ∀ t ∈ xs, t.inA.first ≤ t.inA.last)
    (hys : ∀ t ∈ ys, t.inA.first ≤ t.inA.last) (h : ∀ t ∈ xs, Absorbs ys t)
    (h' : ∀ t ∈ ys, Absorbs xs t) {o : Segment} (ho : o ∈ merge xs) :
    ∃ o' ∈ merge ys, o'.ranges = o.ranges := by
  obtain ⟨o', ho', hA, hB⟩ := absorbs_merge hxs h ho
  obtain ⟨o'', ho'', hA', hB'⟩ := absorbs_merge hys h' ho'
  obtain rfl : o = o'' := eq_of_inA_le ho ho'' (first_le_last_of_mem_merge hxs ho)
    ⟨Int.le_refl _, Int.le_refl _⟩ (LineRange.le_trans hA hA')
  exact ⟨o', ho', congrArg₂ Prod.mk (LineRange.le_antisymm hA' hA) (LineRange.le_antisymm hB' hB)⟩

/-- The ranges of merged segments ascend strictly. -/
theorem pairwise_ranges_merge (hrange : ∀ t ∈ segments, t.inA.first ≤ t.inA.last) :
    ((merge segments).map ranges).Pairwise fun r r' => r.1.first < r'.1.first := by
  refine List.pairwise_map.2 ((pairwise_merge segments).imp_of_mem fun {o o'} ho _ hgap => ?_)
  have horange := first_le_last_of_mem_merge hrange ho
  change o.inA.first < o'.inA.first
  omega

/-- **Segments that absorb each other merge to the same ranges.** -/
theorem map_ranges_merge (hxs : ∀ t ∈ xs, t.inA.first ≤ t.inA.last)
    (hys : ∀ t ∈ ys, t.inA.first ≤ t.inA.last) (h : ∀ t ∈ xs, Absorbs ys t)
    (h' : ∀ t ∈ ys, Absorbs xs t) : (merge xs).map ranges = (merge ys).map ranges := by
  have : Std.Irrefl fun r r' : LineRange × LineRange => r.1.first < r'.1.first :=
    ⟨fun _ => Int.lt_irrefl _⟩
  have : Std.Antisymm fun r r' : LineRange × LineRange => r.1.first < r'.1.first :=
    ⟨fun _ _ hlt hlt' => absurd hlt (Int.lt_asymm hlt')⟩
  refine (pairwise_ranges_merge hxs).eq_of_mem_iff (pairwise_ranges_merge hys) fun r => ?_
  simp only [List.mem_map]
  constructor
  · rintro ⟨o, ho, rfl⟩
    exact exists_ranges_eq hxs hys h h' ho
  · rintro ⟨o, ho, rfl⟩
    exact exists_ranges_eq hys hxs h' h ho

/-- Two lists of segments with the same ranges can be compared segment by segment. -/
theorem forall₂_of_map_ranges_eq {R : Segment → Segment → Prop}
    (h : xs.map ranges = ys.map ranges)
    (hR : ∀ o ∈ xs, ∀ o' ∈ ys, o.ranges = o'.ranges → R o o') : List.Forall₂ R xs ys := by
  rw [← List.forall₂_eq_eq_eq, List.forall₂_map_left_iff, List.forall₂_map_right_iff] at h
  refine List.forall₂_iff_zip.2 ⟨h.length_eq, fun {o o'} hzip => ?_⟩
  obtain ⟨ho, ho'⟩ := List.of_mem_zip hzip
  exact hR o ho o' ho' (List.forall₂_zip h hzip)

/-! ## Another order -/

/-- Two merged segments of one group quote the same lines, each as often. -/
theorem IsMergeOf.quote_perm {o o' : Segment} {group : List Segment} (h : IsMergeOf o group)
    (h' : IsMergeOf o' group) : o.quote.Perm o'.quote := by
  have hpos := List.length_pos_of_ne_nil h.nonempty
  obtain hlone | hseveral : group.length = 1 ∨ 2 ≤ group.length := by omega
  · obtain ⟨t, rfl⟩ := List.length_eq_one_iff.1 hlone
    rw [h.eq_of_lone t rfl, h'.eq_of_lone t rfl]
  · refine (List.perm_ext_iff_of_nodup (h.nodup_quote hseveral) (h'.nodup_quote hseveral)).2 ?_
    exact fun line => (h.mem_quote line).trans (h'.mem_quote line).symm

/-- **The order of the segments** shows at most in the order of the quoted lines. -/
theorem forall₂_merge_of_perm (hys : ∀ t ∈ ys, t.inA.first ≤ t.inA.last) (hperm : xs.Perm ys) :
    List.Forall₂ (fun o o' => o.inA = o'.inA ∧ o.inB = o'.inB ∧ o.quote.Perm o'.quote)
      (merge xs) (merge ys) := by
  have hxs : ∀ t ∈ xs, t.inA.first ≤ t.inA.last := fun t ht => hys t (hperm.mem_iff.1 ht)
  have hranges := map_ranges_merge hxs hys (fun t ht => exists_mem_merge (hperm.mem_iff.1 ht))
    fun t ht => exists_mem_merge (hperm.mem_iff.2 ht)
  refine forall₂_of_map_ranges_eq hranges fun o ho o' ho' heq => ?_
  obtain ⟨hA, hB⟩ : o.inA = o'.inA ∧ o.inB = o'.inB := Prod.mk.inj heq
  have hgathered : (gathered xs o).Perm (gathered ys o') := by
    rw [gathered, gathered, hA]
    exact hperm.filter _
  have hmerge := (isMergeOf_gathered hxs ho).of_perm hgathered
  exact ⟨hA, hB, hmerge.quote_perm (isMergeOf_gathered hys ho')⟩

/-! ## Some segments merged beforehand -/

/-- The lines of a merged segment are those of the segments within it. -/
theorem mem_quote_merge (hrange : ∀ t ∈ segments, t.inA.first ≤ t.inA.last) {o : Segment}
    (ho : o ∈ merge segments) {line : Text} :
    line ∈ o.quote ↔ ∃ t ∈ segments, t.inA ≤ o.inA ∧ line ∈ t.quote := by
  simp only [(isMergeOf_gathered hrange ho).mem_quote line, mem_gathered, and_assoc]

section Incremental

variable (hxs : ∀ t ∈ xs, t.inA.first ≤ t.inA.last) (hys : ∀ t ∈ ys, t.inA.first ≤ t.inA.last)

include hxs

/-- Merged segments lie within what they merge to together with others. -/
theorem forall_absorbs_append : ∀ t ∈ merge xs ++ ys, Absorbs (xs ++ ys) t := by
  refine List.forall_mem_append.2 ⟨fun t ht => ?_, fun t ht => ?_⟩
  · exact absorbs_merge hxs (fun u hu => exists_mem_merge (List.mem_append_left ys hu)) ht
  · exact exists_mem_merge (List.mem_append_right xs ht)

omit hxs in
/-- Segments lie within what their merged segments merge to together with others. -/
theorem forall_absorbs_merge_append : ∀ t ∈ xs ++ ys, Absorbs (merge xs ++ ys) t := by
  refine List.forall_mem_append.2 ⟨fun t ht => ?_, fun t ht => ?_⟩
  · obtain ⟨u, hu, htuA, htuB⟩ := exists_mem_merge ht
    obtain ⟨o, ho, huoA, huoB⟩ := exists_mem_merge (List.mem_append_left ys hu)
    exact ⟨o, ho, LineRange.le_trans htuA huoA, LineRange.le_trans htuB huoB⟩
  · exact exists_mem_merge (List.mem_append_right _ ht)

include hys

/-- Merged segments have ordered ranges if all segments do. -/
theorem forall_first_le_last_merge_append :
    ∀ t ∈ merge xs ++ ys, t.inA.first ≤ t.inA.last :=
  List.forall_mem_append.2 ⟨fun _ => first_le_last_of_mem_merge hxs, hys⟩

/-- Merged segments with one range in document A quote the same lines, if some of the segments
were merged beforehand. -/
theorem mem_quote_merge_append {o o' : Segment} (ho : o ∈ merge (merge xs ++ ys))
    (ho' : o' ∈ merge (xs ++ ys)) (hA : o.inA = o'.inA) (line : Text) :
    line ∈ o.quote ↔ line ∈ o'.quote := by
  rw [mem_quote_merge (forall_first_le_last_merge_append hxs hys) ho,
    mem_quote_merge (List.forall_mem_append.2 ⟨hxs, hys⟩) ho', ← hA]
  constructor
  · rintro ⟨t, ht, hle, hline⟩
    rcases List.mem_append.1 ht with ht | ht
    · obtain ⟨u, hu, hut, hline⟩ := (mem_quote_merge hxs ht).1 hline
      exact ⟨u, List.mem_append_left ys hu, LineRange.le_trans hut hle, hline⟩
    · exact ⟨t, List.mem_append_right xs ht, hle, hline⟩
  · rintro ⟨t, ht, hle, hline⟩
    rcases List.mem_append.1 ht with ht | ht
    · -- the merged segment that holds `t` lies within some merged segment, which is `o`
      obtain ⟨u, hu, htu, -⟩ := exists_mem_merge ht
      obtain ⟨p, hp, hup, -⟩ := exists_mem_merge (List.mem_append_left ys hu)
      obtain rfl : o = p := eq_of_inA_le ho hp (hxs t ht) hle (LineRange.le_trans htu hup)
      exact ⟨u, List.mem_append_left ys hu, hup, (mem_quote_merge hxs hu).2 ⟨t, ht, htu, hline⟩⟩
    · exact ⟨t, List.mem_append_right _ ht, hle, hline⟩

/-- **Merging some of the segments beforehand** shows at most in the order and the number of the
quoted lines. -/
theorem forall₂_merge_append :
    List.Forall₂ (fun o o' => o.inA = o'.inA ∧ o.inB = o'.inB ∧
        ∀ line, line ∈ o.quote ↔ line ∈ o'.quote)
      (merge (merge xs ++ ys)) (merge (xs ++ ys)) := by
  have hranges := map_ranges_merge (forall_first_le_last_merge_append hxs hys)
    (List.forall_mem_append.2 ⟨hxs, hys⟩) (forall_absorbs_append hxs) forall_absorbs_merge_append
  refine forall₂_of_map_ranges_eq hranges fun o ho o' ho' heq => ?_
  obtain ⟨hA, hB⟩ : o.inA = o'.inA ∧ o.inB = o'.inB := Prod.mk.inj heq
  exact ⟨hA, hB, mem_quote_merge_append hxs hys ho ho' hA⟩

end Incremental

/-- **Merging is idempotent, insensitive to order and incremental**: merging again changes
nothing, the order of the segments shows at most in the order of the quoted lines, and segments
may be merged beforehand without a change of the ranges or of the set of the quoted lines. -/
theorem merge_again (xs ys : List Segment) (hxs : ∀ t ∈ xs, t.inA.first ≤ t.inA.last)
    (hys : ∀ t ∈ ys, t.inA.first ≤ t.inA.last) :
    merge (merge xs) = merge xs ∧
      (∀ xs' : List Segment, xs'.Perm xs →
        List.Forall₂ (fun o o' => o.inA = o'.inA ∧ o.inB = o'.inB ∧ o.quote.Perm o'.quote)
          (merge xs') (merge xs)) ∧
      List.Forall₂ (fun o o' => o.inA = o'.inA ∧ o.inB = o'.inB ∧
          ∀ line, line ∈ o.quote ↔ line ∈ o'.quote)
        (merge (merge xs ++ ys)) (merge (xs ++ ys)) := by
  refine ⟨merge_merge hxs, ?_, forall₂_merge_append hxs hys⟩
  intro xs' hperm
  exact forall₂_merge_of_perm hxs hperm

/-- Two segments side by side, given in either order, and one that links to both of them. -/
theorem merge_again_swapped :
    (∀ t ∈ ([⟨⟨3, 5⟩, ⟨0, 2⟩, [[0x61]]⟩, ⟨⟨0, 2⟩, ⟨4, 6⟩, [[0x62]]⟩] : List Segment),
        t.inA.first ≤ t.inA.last) ∧
      (∀ t ∈ ([⟨⟨2, 7⟩, ⟨9, 9⟩, [[0x61], [0x63]]⟩] : List Segment), t.inA.first ≤ t.inA.last) ∧
      List.Forall₂ (fun o o' => o.inA = o'.inA ∧ o.inB = o'.inB ∧ o.quote.Perm o'.quote)
        (merge [⟨⟨0, 2⟩, ⟨4, 6⟩, [[0x62]]⟩, ⟨⟨3, 5⟩, ⟨0, 2⟩, [[0x61]]⟩])
        (merge [⟨⟨3, 5⟩, ⟨0, 2⟩, [[0x61]]⟩, ⟨⟨0, 2⟩, ⟨4, 6⟩, [[0x62]]⟩]) ∧
      List.Forall₂ (fun o o' => o.inA = o'.inA ∧ o.inB = o'.inB ∧
          ∀ line, line ∈ o.quote ↔ line ∈ o'.quote)
        (merge (merge [⟨⟨3, 5⟩, ⟨0, 2⟩, [[0x61]]⟩, ⟨⟨0, 2⟩, ⟨4, 6⟩, [[0x62]]⟩] ++
          [⟨⟨2, 7⟩, ⟨9, 9⟩, [[0x61], [0x63]]⟩]))
        (merge [⟨⟨3, 5⟩, ⟨0, 2⟩, [[0x61]]⟩, ⟨⟨0, 2⟩, ⟨4, 6⟩, [[0x62]]⟩,
          ⟨⟨2, 7⟩, ⟨9, 9⟩, [[0x61], [0x63]]⟩]) := by
  have hxs : ∀ t ∈ ([⟨⟨3, 5⟩, ⟨0, 2⟩, [[0x61]]⟩, ⟨⟨0, 2⟩, ⟨4, 6⟩, [[0x62]]⟩] : List Segment),
      t.inA.first ≤ t.inA.last := by decide
  have hys : ∀ t ∈ ([⟨⟨2, 7⟩, ⟨9, 9⟩, [[0x61], [0x63]]⟩] : List Segment),
      t.inA.first ≤ t.inA.last := by decide
  obtain ⟨-, hswap, happend⟩ := merge_again _ _ hxs hys
  exact ⟨hxs, hys, hswap _ (.swap _ _ _), happend⟩

end Segment

end CodeSimilarity
