import CodeSimilarity.Segment
import Mathlib.Data.List.Basic
import Mathlib.Data.List.Forall2
import Mathlib.Data.Nat.Init

set_option autoImplicit false
set_option relaxedAutoImplicit false

/-!
# Merged segments as hulls of groups

Merging sorts the segments, splits them greedily into groups and covers each group. What a merged
segment owes to its group is collected in one predicate, `Segment.IsHull`, and what the merged
segments owe to each other is one gap between any two.

## Main definitions

* `Segment.LinkedFrom` — segments that join a group without leaving a gap.
* `Segment.Grouped` — the greedy split into groups, as a relation.
* `Segment.IsHull` — the ranges of a segment are those of a group, neither wider nor narrower.

## Main results

* `Segment.grouped_groups` — what the split into groups gives.
* `Segment.exists_hull_of_mem_merge` — a merged segment is the hull of some of the segments.
* `Segment.exists_mem_merge` — every segment lies within a merged one.
* `Segment.pairwise_merge`, `Segment.eq_of_touch` — merged segments do not even touch.
* `Segment.exists_mem_merge_of_subset` — more segments only merge further.
-/

namespace CodeSimilarity

/-- One range of lines lies within another. -/
instance : LE LineRange :=
  ⟨fun r r' => r'.first ≤ r.first ∧ r.last ≤ r'.last⟩

instance (r r' : LineRange) : Decidable (r ≤ r') :=
  inferInstanceAs (Decidable (r'.first ≤ r.first ∧ r.last ≤ r'.last))

/-- A range lies within another if the other begins no later and ends no earlier. -/
@[simp] theorem LineRange.mk_le {first last : Int} {r : LineRange} :
    ⟨first, last⟩ ≤ r ↔ r.first ≤ first ∧ last ≤ r.last := Iff.rfl

/-- A range within a range within a third lies within the third. -/
theorem LineRange.le_trans {r r' r'' : LineRange} (h : r ≤ r') (h' : r' ≤ r'') : r ≤ r'' :=
  ⟨Int.le_trans h'.1 h.1, Int.le_trans h.2 h'.2⟩

/-- Two ranges within each other are the same. -/
theorem LineRange.le_antisymm {r r' : LineRange} (h : r ≤ r') (h' : r' ≤ r) : r = r' := by
  cases r
  cases r'
  exact congrArg₂ mk (Int.le_antisymm h'.1 h.1) (Int.le_antisymm h.2 h'.2)

namespace Segment

/-! ## Sorting -/

/-- Sorting keeps the segments. -/
theorem mem_sort {segments : List Segment} {s : Segment} : s ∈ sort segments ↔ s ∈ segments :=
  List.mem_mergeSort

/-- The sorted segments ascend by their first line in document A. -/
theorem pairwise_sort (segments : List Segment) :
    (sort segments).Pairwise fun s t => s.inA.first ≤ t.inA.first := by
  have htrans : ∀ s t u : Segment, decide (s.inA.first ≤ t.inA.first) →
      decide (t.inA.first ≤ u.inA.first) → decide (s.inA.first ≤ u.inA.first) := by
    simp only [decide_eq_true_eq]
    omega
  have htotal : ∀ s t : Segment,
      decide (s.inA.first ≤ t.inA.first) || decide (t.inA.first ≤ s.inA.first) := by
    simp only [Bool.or_eq_true, decide_eq_true_eq]
    omega
  exact (List.pairwise_mergeSort htrans htotal segments).imp of_decide_eq_true

/-! ## Groups -/

/-- Where a group ends that has reached line `reach` before the segments `ts` join it. -/
def reachFrom (reach : Int) (ts : List Segment) : Int :=
  ts.foldl (fun last t => max last t.inA.last) reach

/-- The segments `ts` join, one after the other, a group that has reached line `reach`: no line
of document A lies between the group and the next segment. -/
def LinkedFrom : (reach : Int) → List Segment → Prop
  | _, [] => True
  | reach, t :: ts => t.inA.first ≤ reach + 1 ∧ LinkedFrom (max reach t.inA.last) ts

/-- A group takes the segments that link to it and leaves the rest to the next group, which
starts behind a gap. -/
theorem groupsFrom_eq (group : List Segment) (reach : Int) (rest : List Segment) :
    ∃ taken left, rest = taken ++ left ∧ LinkedFrom reach taken ∧
      (∀ t ∈ left.head?, reachFrom reach taken + 1 < t.inA.first) ∧
      groupsFrom group reach rest = (group.reverse ++ taken) :: groups left := by
  induction rest generalizing group reach with
  | nil => exact ⟨[], [], rfl, trivial, by simp, by simp [groupsFrom, groups]⟩
  | cons s rest ih =>
    by_cases h : s.inA.first ≤ reach + 1
    · obtain ⟨taken, left, rfl, hlinked, hgap, heq⟩ := ih (s :: group) (max reach s.inA.last)
      refine ⟨s :: taken, left, rfl, ⟨h, hlinked⟩, hgap, ?_⟩
      rw [groupsFrom, if_pos h, heq]
      simp
    · refine ⟨[], s :: rest, rfl, trivial, ?_, ?_⟩
      · simp only [List.head?_cons, Option.mem_some_iff, forall_eq', reachFrom, List.foldl_nil]
        omega
      · rw [groupsFrom, if_neg h]
        simp [groups]

/-- `Grouped segments gs`: the groups `gs` make up `segments`, each is linked, and behind each
there is a gap. -/
inductive Grouped : List Segment → List (List Segment) → Prop
  | nil : Grouped [] []
  | cons {s : Segment} {taken left : List Segment} {gs : List (List Segment)}
      (linked : LinkedFrom s.inA.last taken)
      (gap : ∀ t ∈ left.head?, reachFrom s.inA.last taken + 1 < t.inA.first)
      (rest : Grouped left gs) : Grouped (s :: (taken ++ left)) ((s :: taken) :: gs)

/-- The groups that merging forms are grouped as they should be. -/
theorem grouped_groups (segments : List Segment) : Grouped segments (groups segments) := by
  induction hn : segments.length using Nat.strong_induction_on generalizing segments with
  | _ n ih =>
    cases segments with
    | nil => exact .nil
    | cons s rest =>
      obtain ⟨taken, left, rfl, hlinked, hgap, heq⟩ := groupsFrom_eq [s] s.inA.last rest
      rw [groups, heq]
      refine .cons hlinked hgap (ih _ ?_ left rfl)
      simp only [← hn, List.length_cons, List.length_append]
      omega

/-! ## Hulls -/

/-- `IsHull o group`: the ranges of `o` are the least that hold those of the group, and every
line of `o` in document A is a line of some segment of the group. -/
structure IsHull (o : Segment) (group : List Segment) : Prop where
  inA_le : ∀ t ∈ group, t.inA ≤ o.inA
  inB_le : ∀ t ∈ group, t.inB ≤ o.inB
  firstA : ∃ t ∈ group, t.inA.first = o.inA.first
  lastA : ∃ t ∈ group, t.inA.last = o.inA.last
  firstB : ∃ t ∈ group, t.inB.first = o.inB.first
  lastB : ∃ t ∈ group, t.inB.last = o.inB.last
  filled : ∀ k, o.inA.first ≤ k → k ≤ o.inA.last → ∃ t ∈ group, t.inA.first ≤ k ∧ k ≤ t.inA.last

/-- Folding an operation that selects the greater of two values, in a transitive order, gives a
greatest one among the start and the values of the list. -/
private theorem foldl_select {α : Type} {R : Int → Int → Prop} {op : Int → Int → Int}
    (htrans : ∀ a b c, R a b → R b c → R a c) (hrefl : ∀ a, R a a)
    (hleft : ∀ a b, R a (op a b)) (hright : ∀ a b, R b (op a b))
    (hselect : ∀ a b, op a b = a ∨ op a b = b) (f : α → Int) (a : Int) (ts : List α) :
    let m := ts.foldl (fun m t => op m (f t)) a
    R a m ∧ (∀ t ∈ ts, R (f t) m) ∧ (m = a ∨ ∃ t ∈ ts, f t = m) := by
  induction ts generalizing a with
  | nil => exact ⟨hrefl a, by simp, .inl rfl⟩
  | cons t ts ih =>
    obtain ⟨hstart, hall, hattained⟩ := ih (op a (f t))
    refine ⟨htrans _ _ _ (hleft _ _) hstart, ?_, ?_⟩
    · intro u hu
      rcases List.mem_cons.1 hu with rfl | hu
      · exact htrans _ _ _ (hright _ _) hstart
      · exact hall u hu
    · rcases hattained with h | ⟨u, hu, h⟩
      · rcases hselect a (f t) with hs | hs
        · exact .inl (h.trans hs)
        · exact .inr ⟨t, List.mem_cons_self, (h.trans hs).symm⟩
      · exact .inr ⟨u, List.mem_cons_of_mem _ hu, h⟩

/-- A running maximum is an upper bound that is attained. -/
theorem foldl_max_spec (f : Segment → Int) (a : Int) (ts : List Segment) :
    a ≤ ts.foldl (fun m t => max m (f t)) a ∧
      (∀ t ∈ ts, f t ≤ ts.foldl (fun m t => max m (f t)) a) ∧
      (ts.foldl (fun m t => max m (f t)) a = a ∨
        ∃ t ∈ ts, f t = ts.foldl (fun m t => max m (f t)) a) :=
  foldl_select (R := (· ≤ ·)) (fun _ _ _ => Int.le_trans) Int.le_refl Int.le_max_left
    Int.le_max_right (fun a b => by omega) f a ts

/-- A running minimum is a lower bound that is attained. -/
theorem foldl_min_spec (f : Segment → Int) (a : Int) (ts : List Segment) :
    ts.foldl (fun m t => min m (f t)) a ≤ a ∧
      (∀ t ∈ ts, ts.foldl (fun m t => min m (f t)) a ≤ f t) ∧
      (ts.foldl (fun m t => min m (f t)) a = a ∨
        ∃ t ∈ ts, f t = ts.foldl (fun m t => min m (f t)) a) :=
  foldl_select (R := (· ≥ ·)) (fun _ _ _ h h' => Int.le_trans h' h) Int.le_refl Int.min_le_left
    Int.min_le_right (fun a b => by omega) f a ts

/-- Linked segments leave no line between them uncovered. -/
theorem LinkedFrom.exists_mem {reach : Int} {ts : List Segment} (h : LinkedFrom reach ts) {k : Int}
    (hk : reach < k) (hk' : k ≤ reachFrom reach ts) :
    ∃ t ∈ ts, t.inA.first ≤ k ∧ k ≤ t.inA.last := by
  induction ts generalizing reach with
  | nil => simp only [reachFrom, List.foldl_nil] at hk'; omega
  | cons t ts ih =>
    obtain ⟨ht, hts⟩ := h
    by_cases hkt : k ≤ t.inA.last
    · exact ⟨t, List.mem_cons_self, by omega, hkt⟩
    · obtain ⟨u, hu, hcover⟩ := ih hts (by omega) hk'
      exact ⟨u, List.mem_cons_of_mem _ hu, hcover⟩

/-- The segment that covers a linked group is its hull. -/
theorem isHull_ofGroup {s : Segment} {rest : List Segment} (hlinked : LinkedFrom s.inA.last rest)
    (hsorted : ∀ t ∈ rest, s.inA.first ≤ t.inA.first) : IsHull (ofGroup s rest) (s :: rest) := by
  obtain ⟨hlastA, hlastsA, hattA⟩ := foldl_max_spec (fun t => t.inA.last) s.inA.last rest
  obtain ⟨hfirstB, hfirstsB, hattFB⟩ := foldl_min_spec (fun t => t.inB.first) s.inB.first rest
  obtain ⟨hlastB, hlastsB, hattLB⟩ := foldl_max_spec (fun t => t.inB.last) s.inB.last rest
  have hself : s ∈ s :: rest := List.mem_cons_self
  refine
    { inA_le := ?_
      inB_le := ?_
      firstA := ⟨s, hself, rfl⟩
      lastA := ?_
      firstB := ?_
      lastB := ?_
      filled := ?_ }
  · intro t ht
    rcases List.mem_cons.1 ht with rfl | ht
    · exact ⟨Int.le_refl _, hlastA⟩
    · exact ⟨hsorted t ht, hlastsA t ht⟩
  · intro t ht
    rcases List.mem_cons.1 ht with rfl | ht
    · exact ⟨hfirstB, hlastB⟩
    · exact ⟨hfirstsB t ht, hlastsB t ht⟩
  · rcases hattA with h | ⟨t, ht, h⟩
    · exact ⟨s, hself, h.symm⟩
    · exact ⟨t, List.mem_cons_of_mem _ ht, h⟩
  · rcases hattFB with h | ⟨t, ht, h⟩
    · exact ⟨s, hself, h.symm⟩
    · exact ⟨t, List.mem_cons_of_mem _ ht, h⟩
  · rcases hattLB with h | ⟨t, ht, h⟩
    · exact ⟨s, hself, h.symm⟩
    · exact ⟨t, List.mem_cons_of_mem _ ht, h⟩
  · intro k hk hk'
    by_cases hks : k ≤ s.inA.last
    · exact ⟨s, hself, hk, hks⟩
    · obtain ⟨t, ht, hcover⟩ := hlinked.exists_mem (by omega) hk'
      exact ⟨t, List.mem_cons_of_mem _ ht, hcover⟩

/-! ## Merging -/

/-- A member of the left list has a partner in the right one. -/
theorem exists_of_mem_left {α β : Type} {R : α → β → Prop} {l : List α} {l' : List β}
    (h : List.Forall₂ R l l') {a : α} (ha : a ∈ l) : ∃ b ∈ l', R a b := by
  induction h with
  | nil => simp at ha
  | cons hab _ ih =>
    rcases List.mem_cons.1 ha with rfl | ha
    · exact ⟨_, List.mem_cons_self, hab⟩
    · obtain ⟨b, hb, hr⟩ := ih ha
      exact ⟨b, List.mem_cons_of_mem _ hb, hr⟩

/-- Two members of a list whose members are related pairwise are related in one of the two orders,
unless they are the same. -/
private theorem eq_or_rel {α : Type} {R : α → α → Prop} {l : List α} (h : l.Pairwise R) {a b : α}
    (ha : a ∈ l) (hb : b ∈ l) : a = b ∨ R a b ∨ R b a := by
  induction h with
  | nil => simp at ha
  | cons hhead _ ih =>
    rcases List.mem_cons.1 ha with rfl | ha' <;> rcases List.mem_cons.1 hb with rfl | hb'
    · exact .inl rfl
    · exact .inr (.inl (hhead b hb'))
    · exact .inr (.inr (hhead a ha'))
    · exact ih ha' hb'

variable {segments : List Segment} {gs : List (List Segment)}

/-- The groups joined give the segments back. -/
theorem Grouped.flatten_eq (h : Grouped segments gs) : gs.flatten = segments := by
  induction h with
  | nil => rfl
  | cons linked gap rest ih => simp [ih]

/-- The groups of ascending segments are covered by their hulls. -/
theorem Grouped.forall₂_isHull (h : Grouped segments gs)
    (hsorted : segments.Pairwise fun s t => s.inA.first ≤ t.inA.first) :
    List.Forall₂ IsHull (gs.filterMap cover?) gs := by
  induction h with
  | nil => exact .nil
  | cons linked gap rest ih =>
    obtain ⟨hs, htail⟩ := List.pairwise_cons.1 hsorted
    refine .cons (isHull_ofGroup linked fun t ht => hs t (List.mem_append_left _ ht)) ?_
    exact ih (List.pairwise_append.1 htail).2.1

/-- Behind each hull of a group there is a line that no later hull reaches. -/
theorem Grouped.pairwise_gap (h : Grouped segments gs)
    (hsorted : segments.Pairwise fun s t => s.inA.first ≤ t.inA.first) :
    (gs.filterMap cover?).Pairwise fun s t => s.inA.last + 1 < t.inA.first := by
  induction h with
  | nil => exact .nil
  | @cons s taken left gs linked gap rest ih =>
    have hleft := (List.pairwise_append.1 (List.pairwise_cons.1 hsorted).2).2.1
    refine .cons (fun o ho => ?_) (ih hleft)
    obtain ⟨g, hg, hhull⟩ := exists_of_mem_left (rest.forall₂_isHull hleft) ho
    obtain ⟨t, ht, hfirst⟩ := hhull.firstA
    have htleft : t ∈ left := rest.flatten_eq ▸ List.mem_flatten_of_mem hg ht
    obtain ⟨u, us, rfl⟩ := List.exists_cons_of_ne_nil (List.ne_nil_of_mem htleft)
    have hgap : reachFrom s.inA.last taken + 1 < u.inA.first := gap u rfl
    have hut : u.inA.first ≤ t.inA.first := by
      rcases List.mem_cons.1 htleft with rfl | ht'
      · exact Int.le_refl _
      · exact (List.pairwise_cons.1 hleft).1 t ht'
    rw [← hfirst]
    exact Int.lt_of_lt_of_le hgap hut

/-- Each merged segment is the hull of one group. -/
theorem forall₂_merge (segments : List Segment) :
    List.Forall₂ IsHull (merge segments) (groups (sort segments)) :=
  (grouped_groups _).forall₂_isHull (pairwise_sort segments)

/-- **Merged segments are separated**: between two of them there is a line of document A that
belongs to neither. -/
theorem pairwise_merge (segments : List Segment) :
    (merge segments).Pairwise fun s t => s.inA.last + 1 < t.inA.first :=
  (grouped_groups _).pairwise_gap (pairwise_sort segments)

/-- **A merged segment is a hull** of some of the segments. -/
theorem exists_hull_of_mem_merge {o : Segment} (h : o ∈ merge segments) :
    ∃ group, (∀ t ∈ group, t ∈ segments) ∧ IsHull o group := by
  obtain ⟨g, hg, hhull⟩ := exists_of_mem_left (forall₂_merge segments) h
  refine ⟨g, fun t ht => ?_, hhull⟩
  rw [← mem_sort, ← flatten_groups (sort segments)]
  exact List.mem_flatten_of_mem hg ht

/-- **Merging loses nothing**: every segment lies within a merged one, in both documents. -/
theorem exists_mem_merge {t : Segment} (h : t ∈ segments) :
    ∃ o ∈ merge segments, t.inA ≤ o.inA ∧ t.inB ≤ o.inB := by
  rw [← mem_sort, ← flatten_groups (sort segments)] at h
  obtain ⟨g, hg, ht⟩ := List.mem_flatten.1 h
  obtain ⟨o, ho, hhull⟩ := exists_of_mem_left (forall₂_merge segments).flip hg
  exact ⟨o, ho, hhull.inA_le t ht, hhull.inB_le t ht⟩

/-- Each group that has a hull has a segment. -/
theorem length_le_length_flatten {os : List Segment} {gs : List (List Segment)}
    (h : List.Forall₂ IsHull os gs) : os.length ≤ gs.flatten.length := by
  induction h with
  | nil => exact Nat.le_refl _
  | cons hhull _ ih =>
    obtain ⟨t, ht, -⟩ := hhull.firstA
    have hpos := List.length_pos_of_mem ht
    simp only [List.length_cons, List.flatten_cons, List.length_append]
    omega

/-- Merging does not make segments more. -/
theorem length_merge_le (segments : List Segment) :
    (merge segments).length ≤ segments.length := by
  have hle := length_le_length_flatten (forall₂_merge segments)
  rwa [flatten_groups, sort, List.length_mergeSort] at hle

/-- Merging leaves nothing only of nothing. -/
theorem merge_eq_nil_iff {segments : List Segment} :
    merge segments = [] ↔ segments = [] := by
  constructor
  · intro hnil
    refine List.eq_nil_iff_forall_not_mem.2 fun t ht => ?_
    obtain ⟨o, ho, -⟩ := exists_mem_merge ht
    exact List.not_mem_nil (hnil ▸ ho)
  · rintro rfl
    exact List.length_eq_zero_iff.1 (Nat.le_zero.1 (length_merge_le []))

/-- Merged segments that overlap or touch in document A are the same. -/
theorem eq_of_touch {o o' : Segment} (ho : o ∈ merge segments) (ho' : o' ∈ merge segments)
    (h : o.inA.first ≤ o'.inA.last + 1) (h' : o'.inA.first ≤ o.inA.last + 1) : o = o' := by
  rcases eq_or_rel (pairwise_merge segments) ho ho' with heq | hgap | hgap
  · exact heq
  · omega
  · omega

/-- **A group without gaps stays together**: if each segment of a group lies within some merged
segment, the hull of the group lies within one of them. -/
theorem exists_mem_merge_of_isHull {o : Segment} {group : List Segment} (hhull : IsHull o group)
    (hrange : ∀ t ∈ group, t.inA.first ≤ t.inA.last)
    (hwithin : ∀ t ∈ group, ∃ o' ∈ merge segments, t.inA ≤ o'.inA ∧ t.inB ≤ o'.inB) :
    ∃ o' ∈ merge segments, o.inA ≤ o'.inA ∧ o.inB ≤ o'.inB := by
  obtain ⟨s, hs, hsfirst⟩ := hhull.firstA
  obtain ⟨o', ho', hso', -⟩ := hwithin s hs
  have hsrange := hrange s hs
  -- each line of the hull is that of a member, whose merged segment touches that of the line before
  have hline : ∀ n : Nat, o.inA.first + n ≤ o.inA.last →
      o'.inA.first ≤ o.inA.first + n ∧ o.inA.first + n ≤ o'.inA.last := by
    intro n
    induction n with
    | zero =>
      intro _
      exact ⟨by have := hso'.1; omega, by have := hso'.2; omega⟩
    | succ n ih =>
      intro hn
      obtain ⟨hbefore, hbefore'⟩ := ih (by omega)
      obtain ⟨t, ht, htfirst, htlast⟩ := hhull.filled (o.inA.first + (n + 1 : Nat)) (by omega) hn
      obtain ⟨u, hu, ⟨hufirst, hulast⟩, -⟩ := hwithin t ht
      obtain rfl : o' = u := eq_of_touch ho' hu (by omega) (by omega)
      exact ⟨by omega, by omega⟩
  have hall : ∀ t ∈ group, t.inA ≤ o'.inA ∧ t.inB ≤ o'.inB := by
    intro t ht
    obtain ⟨u, hu, htuA, htuB⟩ := hwithin t ht
    obtain ⟨hfirst, hlast⟩ := hhull.inA_le t ht
    obtain ⟨hufirst, hulast⟩ := htuA
    have htrange := hrange t ht
    have hin := hline (t.inA.first - o.inA.first).toNat (by omega)
    obtain rfl : o' = u := eq_of_touch ho' hu (by omega) (by omega)
    exact ⟨⟨hufirst, hulast⟩, htuB⟩
  refine ⟨o', ho', ⟨?_, ?_⟩, ?_, ?_⟩
  · exact hsfirst ▸ (hall s hs).1.1
  · obtain ⟨t, ht, hlast⟩ := hhull.lastA
    exact hlast ▸ (hall t ht).1.2
  · obtain ⟨t, ht, hfirst⟩ := hhull.firstB
    exact hfirst ▸ (hall t ht).2.1
  · obtain ⟨t, ht, hlast⟩ := hhull.lastB
    exact hlast ▸ (hall t ht).2.2

/-- **More segments only merge further**: each merged segment lies within one of those that come
from more segments. -/
theorem exists_mem_merge_of_subset {segments' : List Segment} (hsub : segments ⊆ segments')
    (hrange : ∀ t ∈ segments, t.inA.first ≤ t.inA.last) {o : Segment} (ho : o ∈ merge segments) :
    ∃ o' ∈ merge segments', o.inA ≤ o'.inA ∧ o.inB ≤ o'.inB := by
  obtain ⟨group, hgroup, hhull⟩ := exists_hull_of_mem_merge ho
  exact exists_mem_merge_of_isHull hhull (fun t ht => hrange t (hgroup t ht))
    fun t ht => exists_mem_merge (hsub (hgroup t ht))

end Segment

end CodeSimilarity
