import CodeSimilarity.Proofs.FirstNames
import CodeSimilarity.Proofs.Merging
import Mathlib.Data.List.Perm.Basic
import Mathlib.Logic.Relation

set_option autoImplicit false
set_option relaxedAutoImplicit false

/-!
# Merged segments as maximal groups of touching segments

Merging goes through sorted segments once and looks at one accumulated range. What comes out does
not show this order: the merged segments are the classes of the relation that links two segments
by a chain in which each segment overlaps or adjoins the next in document A.

## Main definitions

* `Segment.gathered` — the segments that lie within a given one in document A.
* `Segment.IsMergeOf` — what a merged segment owes to its group, quotation included.
* `LineRange.Touches`, `Segment.Linked` — ranges without a gap between them, and chains of these.

## Main results

* `Segment.map_gathered` — the groups are what the merged segments gather.
* `Segment.isMergeOf_gathered` — a merged segment is made of what it gathers.
* `Segment.IsHull.linked` — the segments of a group are linked.
* `Segment.merge_gathers_linked` — the merged segments are the maximal linked groups.

## Design

Between two merged segments there is a line that belongs to neither, so the range of a merged
segment alone tells which segments went into it. Groups are therefore read off the result, as
`gathered segments o`, and never followed through the pass that finds them.
-/

namespace CodeSimilarity

/-- Two ranges of lines overlap or stand side by side. -/
def LineRange.Touches (r r' : LineRange) : Prop :=
  r.first ≤ r'.last + 1 ∧ r'.first ≤ r.last + 1

/-- Touching goes both ways. -/
theorem LineRange.Touches.symm {r r' : LineRange} (h : r.Touches r') : r'.Touches r :=
  And.symm h

namespace Segment

variable {segments : List Segment} {gs : List (List Segment)}

/-! ## What a segment gathers -/

/-- The segments that lie within `o` in document A, in their order. -/
def gathered (segments : List Segment) (o : Segment) : List Segment :=
  segments.filter fun t => t.inA ≤ o.inA

/-- A segment gathers those that lie within it in document A. -/
theorem mem_gathered {o t : Segment} :
    t ∈ gathered segments o ↔ t ∈ segments ∧ t.inA ≤ o.inA := by
  simp [gathered]

/-- What a segment gathers is among the segments. -/
theorem gathered_subset (segments : List Segment) (o : Segment) :
    gathered segments o ⊆ segments :=
  List.filter_subset_self segments

/-- From two lists, a segment gathers from one after the other. -/
theorem gathered_append (segments segments' : List Segment) (o : Segment) :
    gathered (segments ++ segments') o = gathered segments o ++ gathered segments' o :=
  List.filter_append ..

/-- The hull of a group gathers all of the group. -/
theorem IsHull.gathered_eq {o : Segment} {group : List Segment} (h : IsHull o group) :
    gathered group o = group :=
  List.filter_eq_self.2 fun t ht => decide_eq_true (h.inA_le t ht)

/-- The hull of a group gathers nothing of a group on the other side of a gap. -/
theorem IsHull.gathered_eq_nil {o o' : Segment} {group : List Segment} (h : IsHull o' group)
    (hrange : ∀ t ∈ group, t.inA.first ≤ t.inA.last)
    (hgap : o.inA.last < o'.inA.first ∨ o'.inA.last < o.inA.first) : gathered group o = [] := by
  refine List.filter_eq_nil_iff.2 fun t ht hle => ?_
  obtain ⟨hfirst, hlast⟩ : t.inA ≤ o.inA := of_decide_eq_true hle
  obtain ⟨hfirst', hlast'⟩ := h.inA_le t ht
  have htrange := hrange t ht
  omega

/-- **Groups with gaps between them** are what their hulls gather from all of them. -/
theorem forall₂_gathered {os : List Segment} (h : List.Forall₂ IsHull os gs)
    (hgap : os.Pairwise fun s t => s.inA.last + 1 < t.inA.first)
    (hrange : ∀ t ∈ gs.flatten, t.inA.first ≤ t.inA.last) :
    List.Forall₂ (fun o group => gathered gs.flatten o = group) os gs := by
  induction h with
  | nil => exact .nil
  | @cons o group os gs hhull hrest ih =>
    obtain ⟨hhead, htail⟩ := List.pairwise_cons.1 hgap
    rw [List.flatten_cons] at hrange
    obtain ⟨hgroup, hothers⟩ := List.forall_mem_append.1 hrange
    have hbehind : gathered gs.flatten o = [] := by
      rw [gathered, List.filter_flatten, List.flatten_eq_nil_iff, List.forall_mem_map]
      intro g hg
      obtain ⟨o', ho', hhull'⟩ := exists_of_mem_left hrest.flip hg
      have hgap' := hhead o' ho'
      exact hhull'.gathered_eq_nil (fun t ht => hothers t (List.mem_flatten_of_mem hg ht))
        (.inl (by omega))
    have hbefore : ∀ o' ∈ os, gathered group o' = [] := by
      intro o' ho'
      have hgap' := hhead o' ho'
      exact hhull.gathered_eq_nil hgroup (.inr (by omega))
    refine .cons ?_ ?_
    · rw [List.flatten_cons, gathered_append, hhull.gathered_eq, hbehind, List.append_nil]
    · refine ((List.forall₂_and_left _ _).2 ⟨hbefore, ih htail hothers⟩).imp ?_
      rintro o' g ⟨hnone, heq⟩
      rw [List.flatten_cons, gathered_append, hnone, heq, List.nil_append]

/-- **The groups of sorted segments** are what the merged segments gather. -/
theorem map_gathered (hrange : ∀ t ∈ segments, t.inA.first ≤ t.inA.last) :
    (merge segments).map (gathered (sort segments)) = groups (sort segments) := by
  have h := forall₂_gathered (forall₂_merge segments) (pairwise_merge segments) fun t ht =>
    hrange t (mem_sort.1 (by rwa [flatten_groups] at ht))
  rw [flatten_groups] at h
  rwa [← List.forall₂_eq_eq_eq, List.forall₂_map_left_iff]

/-- What holds of each merged segment and its group holds of it and what it gathers. -/
theorem of_forall₂_groups {R : Segment → List Segment → Prop}
    (hrange : ∀ t ∈ segments, t.inA.first ≤ t.inA.last)
    (h : List.Forall₂ R (merge segments) (groups (sort segments))) {o : Segment}
    (ho : o ∈ merge segments) : R o (gathered (sort segments) o) := by
  rw [← map_gathered hrange, List.forall₂_map_right_iff, List.forall₂_same] at h
  exact h o ho

/-! ## Merged segments -/

/-- `IsMergeOf o group`: the ranges of `o` are the hull of those of the group, its lines are the
lines of the group, each once if there are several segments, and a lone segment is unchanged. -/
structure IsMergeOf (o : Segment) (group : List Segment) : Prop extends IsHull o group where
  nonempty : group ≠ []
  mem_quote : ∀ line, line ∈ o.quote ↔ ∃ t ∈ group, line ∈ t.quote
  nodup_quote : 2 ≤ group.length → o.quote.Nodup
  eq_of_lone : ∀ t, group = [t] → o = t

/-- The quotation of a group holds the lines that its members quote. -/
theorem mem_groupQuote {group : List Segment} {line : Text} :
    line ∈ groupQuote group ↔ ∃ t ∈ group, line ∈ t.quote := by
  cases group with
  | nil => simp [groupQuote]
  | cons s rest => cases rest <;> simp [groupQuote, List.mem_eraseDups]

/-- Several segments are quoted without repetitions. -/
theorem nodup_groupQuote {group : List Segment} (h : 2 ≤ group.length) :
    (groupQuote group).Nodup := by
  match group, h with
  | s :: t :: rest, _ => exact nodup_eraseDups _

/-- The segment that covers a group is made of it, if its ranges are the hull. -/
theorem IsHull.isMergeOf {o : Segment} {group : List Segment} (h : IsHull o group)
    (hcover : cover? group = some o) : IsMergeOf o group := by
  cases group with
  | nil => simp [cover?] at hcover
  | cons s rest =>
    obtain rfl : ofGroup s rest = o := Option.some.inj hcover
    exact
      { toIsHull := h
        nonempty := List.cons_ne_nil s rest
        mem_quote := fun _ => mem_groupQuote
        nodup_quote := nodup_groupQuote
        eq_of_lone := by
          rintro t heq
          obtain ⟨rfl, rfl⟩ := List.cons.inj heq
          rfl }

/-- A merged segment does not depend on the order of its group. -/
theorem IsMergeOf.of_perm {o : Segment} {group group' : List Segment} (h : IsMergeOf o group)
    (hperm : group.Perm group') : IsMergeOf o group' where
  inA_le t ht := h.inA_le t (hperm.mem_iff.2 ht)
  inB_le t ht := h.inB_le t (hperm.mem_iff.2 ht)
  firstA := by simpa only [hperm.mem_iff] using h.firstA
  lastA := by simpa only [hperm.mem_iff] using h.lastA
  firstB := by simpa only [hperm.mem_iff] using h.firstB
  lastB := by simpa only [hperm.mem_iff] using h.lastB
  filled := by simpa only [hperm.mem_iff] using h.filled
  nonempty hnil := h.nonempty (hnil ▸ hperm).eq_nil
  mem_quote := by simpa only [hperm.mem_iff] using h.mem_quote
  nodup_quote := hperm.length_eq ▸ h.nodup_quote
  eq_of_lone t heq := h.eq_of_lone t (List.perm_singleton.1 (heq ▸ hperm))

/-- Every group is covered. -/
theorem Grouped.forall₂_cover (h : Grouped segments gs) :
    List.Forall₂ (fun o group => cover? group = some o) (gs.filterMap cover?) gs := by
  induction h with
  | nil => exact .nil
  | cons linked gap rest ih => exact .cons rfl ih

/-- From sorted segments, a segment gathers the same ones. -/
theorem perm_gathered_sort (segments : List Segment) (o : Segment) :
    (gathered (sort segments) o).Perm (gathered segments o) :=
  (List.mergeSort_perm _ _).filter _

/-- **A merged segment is made of what it gathers.** -/
theorem isMergeOf_gathered (hrange : ∀ t ∈ segments, t.inA.first ≤ t.inA.last) {o : Segment}
    (ho : o ∈ merge segments) : IsMergeOf o (gathered segments o) := by
  have hhull := of_forall₂_groups hrange (forall₂_merge segments) ho
  have hcover := of_forall₂_groups hrange (grouped_groups (sort segments)).forall₂_cover ho
  exact (hhull.isMergeOf hcover).of_perm (perm_gathered_sort segments o)

/-- **Each segment is gathered once.** -/
theorem perm_flatMap_gathered (hrange : ∀ t ∈ segments, t.inA.first ≤ t.inA.last) :
    ((merge segments).flatMap (gathered segments)).Perm segments := by
  have hsorted : (merge segments).flatMap (gathered (sort segments)) = sort segments := by
    rw [List.flatMap_def, map_gathered hrange, flatten_groups]
  refine (List.Perm.flatMap_left _ fun o _ => (perm_gathered_sort segments o).symm).trans ?_
  rw [hsorted]
  exact List.mergeSort_perm _ _

/-! ## Chains of touching segments -/

/-- A chain of segments leads from one segment to another, each touching the next in
document A. -/
def Linked (segments : List Segment) : Segment → Segment → Prop :=
  Relation.ReflTransGen fun s t => s ∈ segments ∧ t ∈ segments ∧ s.inA.Touches t.inA

/-- A chain leads back as well. -/
theorem Linked.symm {s t : Segment} (h : Linked segments s t) : Linked segments t s := by
  induction h with
  | refl => exact .refl
  | tail _ hstep ih =>
    obtain ⟨hs, ht, htouch⟩ := hstep
    exact .head ⟨ht, hs, htouch.symm⟩ ih

/-- A chain is left if there are more segments. -/
theorem Linked.mono {segments' : List Segment} (hsub : segments ⊆ segments') {s t : Segment}
    (h : Linked segments s t) : Linked segments' s t :=
  Relation.ReflTransGen.mono (fun _ _ ⟨hs, ht, htouch⟩ => ⟨hsub hs, hsub ht, htouch⟩) _ _ h

section Hull

variable {o : Segment} {group : List Segment} (h : IsHull o group)
  (hrange : ∀ t ∈ group, t.inA.first ≤ t.inA.last)

include h hrange

/-- Every segment of a group is linked to one that starts where the hull starts.

**Proof sketch.** The line before a segment that starts later belongs to some segment of the
group, which starts earlier and touches it. -/
theorem IsHull.linked_first {u t : Segment} (hu : u ∈ group) (hfirst : u.inA.first = o.inA.first)
    (ht : t ∈ group) : Linked group u t := by
  induction hn : (t.inA.first - o.inA.first).toNat using Nat.strong_induction_on
    generalizing t with
  | _ n ih =>
    obtain ⟨hle, hle'⟩ := h.inA_le t ht
    have hut := hrange u hu
    have htr := hrange t ht
    by_cases heq : t.inA.first = o.inA.first
    · exact .single ⟨hu, ht, by omega, by omega⟩
    · obtain ⟨w, hw, hwfirst, hwlast⟩ := h.filled (t.inA.first - 1) (by omega) (by omega)
      have hlink : Linked group u w := ih (w.inA.first - o.inA.first).toNat (by omega) hw rfl
      exact hlink.tail ⟨hw, ht, by omega, by omega⟩

/-- **The segments of a group are linked.** -/
theorem IsHull.linked {s t : Segment} (hs : s ∈ group) (ht : t ∈ group) : Linked group s t := by
  obtain ⟨u, hu, hfirst⟩ := h.firstA
  exact (h.linked_first hrange hu hfirst hs).symm.trans (h.linked_first hrange hu hfirst ht)

end Hull

/-- **Segments end in one merged segment exactly if they are linked.** -/
theorem exists_gathered_iff_linked (hrange : ∀ t ∈ segments, t.inA.first ≤ t.inA.last)
    {s t : Segment} (hs : s ∈ segments) (ht : t ∈ segments) :
    (∃ o ∈ merge segments, s ∈ gathered segments o ∧ t ∈ gathered segments o) ↔
      Linked segments s t := by
  constructor
  · rintro ⟨o, ho, hso, hto⟩
    have hsub := gathered_subset segments o
    have hhull := (isMergeOf_gathered hrange ho).toIsHull
    exact (hhull.linked (fun u hu => hrange u (hsub hu)) hso hto).mono hsub
  · intro hlinked
    obtain ⟨o, ho, hso, -⟩ := exists_mem_merge hs
    refine ⟨o, ho, mem_gathered.2 ⟨hs, hso⟩, mem_gathered.2 ⟨ht, ?_⟩⟩
    clear ht
    induction hlinked with
    | refl => exact hso
    | tail _ hstep ih =>
      obtain ⟨-, hmem, htouch, htouch'⟩ := hstep
      obtain ⟨o', ho', hle, -⟩ := exists_mem_merge hmem
      obtain ⟨hfirst, hlast⟩ := ih
      obtain ⟨hfirst', hlast'⟩ := hle
      obtain rfl : o = o' := eq_of_touch ho ho' (by omega) (by omega)
      exact ⟨hfirst', hlast'⟩

/-- **The merged segments are the maximal linked groups**: each of them is made of the segments
that it gathers, each segment is gathered once, a line of document A lies between two of them,
and two segments end in the same one exactly if they are linked. -/
theorem merge_gathers_linked (segments : List Segment)
    (hrange : ∀ t ∈ segments, t.inA.first ≤ t.inA.last) :
    (∀ o ∈ merge segments, IsMergeOf o (gathered segments o)) ∧
      ((merge segments).flatMap (gathered segments)).Perm segments ∧
      ((merge segments).Pairwise fun o o' => o.inA.last + 1 < o'.inA.first) ∧
      ∀ s ∈ segments, ∀ t ∈ segments,
        (∃ o ∈ merge segments, s ∈ gathered segments o ∧ t ∈ gathered segments o) ↔
          Linked segments s t := by
  refine ⟨?_, perm_flatMap_gathered hrange, pairwise_merge segments, ?_⟩
  · intro o ho
    exact isMergeOf_gathered hrange ho
  · intro s hs t ht
    exact exists_gathered_iff_linked hrange hs ht

/-- A segment within a long one and a segment right behind the long one, which do not touch each
other, end in one merged segment. -/
theorem merge_gathers_linked_nested :
    (∀ t ∈ ([⟨⟨10, 12⟩, ⟨0, 2⟩, []⟩, ⟨⟨2, 3⟩, ⟨4, 5⟩, []⟩, ⟨⟨0, 9⟩, ⟨6, 9⟩, []⟩] : List Segment),
        t.inA.first ≤ t.inA.last) ∧
      ∃ o ∈ merge [⟨⟨10, 12⟩, ⟨0, 2⟩, []⟩, ⟨⟨2, 3⟩, ⟨4, 5⟩, []⟩, ⟨⟨0, 9⟩, ⟨6, 9⟩, []⟩],
        ⟨⟨2, 3⟩, ⟨4, 5⟩, []⟩ ∈
            gathered [⟨⟨10, 12⟩, ⟨0, 2⟩, []⟩, ⟨⟨2, 3⟩, ⟨4, 5⟩, []⟩, ⟨⟨0, 9⟩, ⟨6, 9⟩, []⟩] o ∧
          ⟨⟨10, 12⟩, ⟨0, 2⟩, []⟩ ∈
            gathered [⟨⟨10, 12⟩, ⟨0, 2⟩, []⟩, ⟨⟨2, 3⟩, ⟨4, 5⟩, []⟩, ⟨⟨0, 9⟩, ⟨6, 9⟩, []⟩] o := by
  have hrange : ∀ t ∈ ([⟨⟨10, 12⟩, ⟨0, 2⟩, []⟩, ⟨⟨2, 3⟩, ⟨4, 5⟩, []⟩, ⟨⟨0, 9⟩, ⟨6, 9⟩, []⟩] :
      List Segment), t.inA.first ≤ t.inA.last := by decide
  obtain ⟨-, -, -, hlinked⟩ := merge_gathers_linked _ hrange
  refine ⟨hrange, (hlinked _ (by decide) _ (by decide)).2 ?_⟩
  have hlong : ⟨⟨0, 9⟩, ⟨6, 9⟩, []⟩ ∈
      ([⟨⟨10, 12⟩, ⟨0, 2⟩, []⟩, ⟨⟨2, 3⟩, ⟨4, 5⟩, []⟩, ⟨⟨0, 9⟩, ⟨6, 9⟩, []⟩] : List Segment) := by
    decide
  exact .tail (.single ⟨by decide, hlong, by decide, by decide⟩)
    ⟨hlong, by decide, by decide, by decide⟩

end Segment

end CodeSimilarity
