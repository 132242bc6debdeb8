import CodeSimilarity.Proofs.TouchingGroups

set_option autoImplicit false
set_option relaxedAutoImplicit false

/-!
# What a merged segment quotes

The quotation of a merged segment is put together from the quotations of its group, which overlap
and come in an order of their own. What comes out is nevertheless a plain reading of the document:
the lines of the range from top to bottom, each at its first place if the segment was merged.

## Main definitions

* `LineRange.slice` — the lines of a document that lie in a range.
* `Segment.Quotes` — a segment quotes exactly the lines of its range.
* `Segment.IsReading` — how the quotation of a merged segment is read off the document.

## Main results

* `Segment.LinkedFrom.eraseDups_quotes` — linked quotations, put together, read like one slice.
* `Segment.isReading_of_mem_merge` — merging keeps quotations that are slices readable.
* `Segment.merged_quotes_in_source_order` — the merged segments of a comparison quote document A.

## Design

The greedy pass removes repeated lines after each step. Since only the first place of a line
counts, this is followed on the quotations put together, without repetitions removed: a linked
segment repeats lines that the group has reached and goes on right behind them.
-/

namespace CodeSimilarity

/-! ## First occurrences -/

/-- What has occurred before adds nothing to the first occurrences. -/
theorem eraseDups_append_of_subset {α : Type} [BEq α] [LawfulBEq α] {l l' : List α} (h : l' ⊆ l)
    (r : List α) : (l ++ l' ++ r).eraseDups = (l ++ r).eraseDups := by
  have hnone : l'.removeAll l = [] :=
    List.filter_eq_nil_iff.2 fun a ha => by simpa using h ha
  have hsame : r.removeAll (l ++ l') = r.removeAll l := by
    refine List.filter_congr fun a _ => ?_
    rw [Bool.eq_iff_iff]
    simpa using fun hl hl' => hl (h hl')
  rw [List.eraseDups_append, @List.eraseDups_append _ _ _ l l', hnone, hsame, List.eraseDups_nil,
    List.append_nil, ← List.eraseDups_append]

/-! ## Slices of a document -/

namespace LineRange

/-- The lines of a document that lie in a range; fewer than the range has, if it runs beyond the
end. -/
def slice (r : LineRange) (lines : List Text) : List Text :=
  (lines.drop r.first.toNat).take (r.last + 1 - r.first).toNat

variable {first mid last : Int} {lines : List Text}

/-- A slice can be cut in two at any line. -/
theorem slice_append (hfirst : 0 ≤ first) (hmid : first ≤ mid + 1) (hlast : mid ≤ last) :
    slice ⟨first, mid⟩ lines ++ slice ⟨mid + 1, last⟩ lines = slice ⟨first, last⟩ lines := by
  have hstart : (mid + 1).toNat = first.toNat + (mid + 1 - first).toNat := by omega
  have hcount : (last + 1 - first).toNat =
      (mid + 1 - first).toNat + (last + 1 - (mid + 1)).toNat := by omega
  simp only [slice]
  rw [hcount, List.take_add, List.drop_drop, hstart]

/-- The lines of a range are among those of a range around it. -/
theorem slice_subset {r r' : LineRange} (hfirst : 0 ≤ r'.first) (hr : r.first ≤ r.last + 1)
    (h : r ≤ r') : r.slice lines ⊆ r'.slice lines := by
  obtain ⟨hle, hle'⟩ := h
  have hbefore : slice ⟨r'.first, r.first - 1⟩ lines ++ slice ⟨r.first - 1 + 1, r'.last⟩ lines =
      r'.slice lines := slice_append hfirst (by omega) (by omega)
  have hbehind : r.slice lines ++ slice ⟨r.last + 1, r'.last⟩ lines =
      slice ⟨r.first, r'.last⟩ lines := slice_append (by omega) hr hle'
  rw [Int.sub_add_cancel, ← hbehind] at hbefore
  exact fun line hline => hbefore ▸ List.mem_append_right _ (List.mem_append_left _ hline)

/-- The lines of a window are a slice. -/
theorem slice_ofWindow (start : Int) (lines : List Text) :
    (ofWindow start).slice lines = (lines.drop start.toNat).take windowSize := by
  have hcount : (start + windowSize - 1 + 1 - start).toNat = windowSize := by omega
  simp only [slice, ofWindow]
  rw [hcount]

end LineRange

namespace Segment

variable {lines : List Text} {segments : List Segment} {gs : List (List Segment)}

/-! ## Quotations of linked segments -/

/-- A segment quotes exactly the lines of its range in document A, the range being one that a
document can have. -/
structure Quotes (lines : List Text) (s : Segment) : Prop where
  nonneg : 0 ≤ s.inA.first
  ordered : s.inA.first ≤ s.inA.last
  quote_eq : s.quote = s.inA.slice lines

/-- **One step of a group**: behind the lines that a group has reached, the quotation of the next
segment counts like the lines up to where the group reaches then. -/
theorem Quotes.eraseDups_append {s : Segment} (hs : s.Quotes lines) {first reach : Int}
    (hfirst : 0 ≤ first) (hle : first ≤ s.inA.first) (hlink : s.inA.first ≤ reach + 1)
    (rest : List Text) :
    (LineRange.slice ⟨first, reach⟩ lines ++ (s.quote ++ rest)).eraseDups =
      (LineRange.slice ⟨first, max reach s.inA.last⟩ lines ++ rest).eraseDups := by
  obtain ⟨hnonneg, hordered, hquote⟩ := hs
  by_cases hinside : s.inA.last ≤ reach
  · -- the group has reached all lines of the segment
    have hsub : s.quote ⊆ LineRange.slice ⟨first, reach⟩ lines := by
      rw [hquote]
      exact LineRange.slice_subset hfirst (by omega) ⟨hle, hinside⟩
    rw [← List.append_assoc, eraseDups_append_of_subset hsub, Int.max_eq_left hinside]
  · -- the segment repeats its lines up to `reach` and goes on behind them
    have hcut : s.quote = LineRange.slice ⟨s.inA.first, reach⟩ lines ++
        LineRange.slice ⟨reach + 1, s.inA.last⟩ lines := by
      rw [hquote, LineRange.slice_append hnonneg hlink (by omega)]
    have hsub : LineRange.slice ⟨s.inA.first, reach⟩ lines ⊆
        LineRange.slice ⟨first, reach⟩ lines :=
      LineRange.slice_subset hfirst hlink ⟨hle, Int.le_refl _⟩
    rw [hcut, List.append_assoc, ← List.append_assoc, eraseDups_append_of_subset hsub,
      ← List.append_assoc, LineRange.slice_append hfirst (by omega) (by omega),
      Int.max_eq_right (by omega)]

/-- **Linked quotations read like one slice**: behind the lines that a group has reached, those of
all segments that link to it count like the lines up to its end. -/
theorem LinkedFrom.eraseDups_quotes {first reach : Int} {ts : List Segment}
    (h : LinkedFrom reach ts) (hfirst : 0 ≤ first) (hts : ∀ t ∈ ts, first ≤ t.inA.first)
    (hquotes : ∀ t ∈ ts, t.Quotes lines) :
    (LineRange.slice ⟨first, reach⟩ lines ++ ts.flatMap quote).eraseDups =
      (LineRange.slice ⟨first, reachFrom reach ts⟩ lines).eraseDups := by
  induction ts generalizing reach with
  | nil => rw [List.flatMap_nil, List.append_nil, reachFrom, List.foldl_nil]
  | cons t ts ih =>
    obtain ⟨hlink, hlinked⟩ := h
    obtain ⟨ht, hts⟩ := List.forall_mem_cons.1 hts
    obtain ⟨htquotes, hquotes⟩ := List.forall_mem_cons.1 hquotes
    rw [List.flatMap_cons, htquotes.eraseDups_append hfirst ht hlink, ih hlinked hts hquotes]
    rfl

/-! ## Quotations of merged segments -/

/-- `IsReading lines o group`: the quotation of `o` is read off the document. A lone segment quotes
the lines of the range as they are, several segments each line at its first place only. -/
def IsReading (lines : List Text) (o : Segment) (group : List Segment) : Prop :=
  group.length = 1 ∧ o.quote = o.inA.slice lines ∨
    2 ≤ group.length ∧ o.quote = (o.inA.slice lines).eraseDups

/-- The segment of a linked group quotes the document along its range. -/
theorem isReading_ofGroup {s : Segment} {rest : List Segment}
    (hlinked : LinkedFrom s.inA.last rest) (hsorted : ∀ t ∈ rest, s.inA.first ≤ t.inA.first)
    (hquotes : ∀ t ∈ s :: rest, t.Quotes lines) :
    IsReading lines (ofGroup s rest) (s :: rest) := by
  obtain ⟨hs, hrest⟩ := List.forall_mem_cons.1 hquotes
  cases rest with
  | nil => exact .inl ⟨rfl, hs.quote_eq⟩
  | cons t rest =>
    refine .inr ⟨by simp, ?_⟩
    change ((s :: t :: rest).flatMap quote).eraseDups =
      (LineRange.slice ⟨s.inA.first, reachFrom s.inA.last (t :: rest)⟩ lines).eraseDups
    rw [← hlinked.eraseDups_quotes hs.nonneg hsorted hrest, List.flatMap_cons, hs.quote_eq]

/-- The groups of ascending segments are covered by readings. -/
theorem Grouped.forall₂_isReading (h : Grouped segments gs)
    (hsorted : segments.Pairwise fun s t => s.inA.first ≤ t.inA.first)
    (hquotes : ∀ t ∈ segments, t.Quotes lines) :
    List.Forall₂ (IsReading lines) (gs.filterMap cover?) gs := by
  induction h with
  | nil => exact .nil
  | @cons s taken left gs linked gap rest ih =>
    obtain ⟨hs, htail⟩ := List.pairwise_cons.1 hsorted
    obtain ⟨hsq, htq⟩ := List.forall_mem_cons.1 hquotes
    obtain ⟨htaken, hleft⟩ := List.forall_mem_append.1 htq
    refine .cons (isReading_ofGroup linked (fun t ht => hs t (List.mem_append_left _ ht)) ?_) ?_
    · exact List.forall_mem_cons.2 ⟨hsq, htaken⟩
    · exact ih (List.pairwise_append.1 htail).2.1 hleft

/-- **Merged quotations are read off the document**, if those of the segments are. -/
theorem isReading_of_mem_merge (hquotes : ∀ t ∈ segments, t.Quotes lines) {o : Segment}
    (ho : o ∈ merge segments) : IsReading lines o (gathered segments o) := by
  have hreadings := (grouped_groups (sort segments)).forall₂_isReading (pairwise_sort segments)
    fun t ht => hquotes t (mem_sort.1 ht)
  have hreading := of_forall₂_groups (fun t ht => (hquotes t ht).ordered) hreadings ho
  rwa [IsReading, (perm_gathered_sort segments o).length_eq] at hreading

/-- Raw segments quote the lines of their windows. -/
theorem quotes_of_mem_rawSegments {matched : List Match}
    (hpos : ∀ m ∈ matched, ∀ p ∈ m.inA, 0 ≤ p) {t : Segment}
    (ht : t ∈ rawSegments lines matched) : t.Quotes lines := by
  simp only [rawSegments, Match.segments, List.mem_flatMap, List.mem_map] at ht
  obtain ⟨m, hm, p, hp, q, -, rfl⟩ := ht
  exact
    { nonneg := hpos m hm p hp
      ordered := by simp only [LineRange.ofWindow, windowSize]; omega
      quote_eq := (LineRange.slice_ofWindow p lines).symm }

/-- **The merged segments of a comparison quote document A in source order**: a segment that was
raw quotes the lines of its range as they are; a segment that was merged quotes each of them once,
at its first place, none from outside the range and none twice. -/
theorem merged_quotes_in_source_order (lines : List Text) (matched : List Match)
    (hpos : ∀ m ∈ matched, ∀ p ∈ m.inA, 0 ≤ p) :
    ∀ o ∈ merge (rawSegments lines matched),
      IsMergeOf o (gathered (rawSegments lines matched) o) ∧
        IsReading lines o (gathered (rawSegments lines matched) o) ∧
        ∀ line, line ∈ o.quote ↔ line ∈ o.inA.slice lines := by
  have hquotes : ∀ t ∈ rawSegments lines matched, t.Quotes lines :=
    fun t ht => quotes_of_mem_rawSegments hpos ht
  intro o ho
  have hreading := isReading_of_mem_merge hquotes ho
  refine ⟨isMergeOf_gathered (fun t ht => (hquotes t ht).ordered) ho, hreading, fun line => ?_⟩
  rcases hreading with ⟨-, hquote⟩ | ⟨-, hquote⟩
  · rw [hquote]
  · rw [hquote, List.mem_eraseDups]

/-- Two windows that overlap are merged, and the second runs beyond the end of a document in which
a line comes twice. -/
theorem merged_quotes_in_source_order_repeated :
    (∀ m ∈ ([⟨7, [0, 2], [5]⟩] : List Match), ∀ p ∈ m.inA, 0 ≤ p) ∧
      ∃ o ∈ merge (rawSegments [[0x61], [0x62], [0x61], [0x63]] [⟨7, [0, 2], [5]⟩]),
        IsReading [[0x61], [0x62], [0x61], [0x63]] o
            (gathered (rawSegments [[0x61], [0x62], [0x61], [0x63]] [⟨7, [0, 2], [5]⟩]) o) ∧
          o.inA = ⟨0, 4⟩ ∧ o.quote = [[0x61], [0x62], [0x63]] := by
  have hpos : ∀ m ∈ ([⟨7, [0, 2], [5]⟩] : List Match), ∀ p ∈ m.inA, 0 ≤ p := by decide
  have hsort : sort (rawSegments [[0x61], [0x62], [0x61], [0x63]] [⟨7, [0, 2], [5]⟩]) =
      rawSegments [[0x61], [0x62], [0x61], [0x63]] [⟨7, [0, 2], [5]⟩] :=
    List.mergeSort_of_pairwise (by decide)
  have hmerge : merge (rawSegments [[0x61], [0x62], [0x61], [0x63]] [⟨7, [0, 2], [5]⟩]) =
      [⟨⟨0, 4⟩, ⟨5, 7⟩, [[0x61], [0x62], [0x63]]⟩] := by
    rw [merge, hsort]
    decide +kernel
  have ho : (⟨⟨0, 4⟩, ⟨5, 7⟩, [[0x61], [0x62], [0x63]]⟩ : Segment) ∈
      merge (rawSegments [[0x61], [0x62], [0x61], [0x63]] [⟨7, [0, 2], [5]⟩]) :=
    hmerge ▸ List.mem_singleton_self _
  obtain ⟨-, hreading, -⟩ := merged_quotes_in_source_order _ _ hpos _ ho
  exact ⟨hpos, _, ho, hreading, rfl, rfl⟩

end Segment

end CodeSimilarity
