import CodeSimilarity.Overlap

set_option autoImplicit false
set_option relaxedAutoImplicit false

/-!
# Matched segments

A segment pairs a range of lines of document A with a range of lines of document B and quotes
the lines of A. Every pair of windows with one digest makes a raw segment; the segments that a
comparison shows are the raw ones, merged wherever their ranges in A overlap or touch.

## Main definitions

* `LineRange`, `Segment` — the types.
* `Match.segments` — the raw segments of one match.
* `Segment.groups` — segments in ascending order, split into groups that touch.
* `Segment.ofGroup` — the segment that covers a group.
* `Segment.merge` — the merged segments.

## Main results

* `Segment.flatten_groups` — the groups joined give the segments back.

## Design

Merging is split in two, so that each part has a law of its own: finding the groups looks at
the ranges in A alone, and covering a group does not look at other groups. The quotation of a
lone segment is kept as it is; the quotations of several segments are put together and each
line is kept at its first place only.
-/

namespace CodeSimilarity

/-- A range of lines, both ends included. -/
structure LineRange where
  /-- The first line. -/
  first : Int
  /-- The last line. -/
  last : Int
deriving DecidableEq, Repr

/-- A range of lines in document A that matches a range of lines in document B. -/
structure Segment where
  /-- The range in document A. -/
  inA : LineRange
  /-- The range in document B. -/
  inB : LineRange
  /-- The lines of document A in the range. -/
  quote : List Text
deriving DecidableEq, Repr

/-- The range of the window that starts at a line. -/
def LineRange.ofWindow (start : Int) : LineRange :=
  ⟨start, start + windowSize - 1⟩

/-- The raw segments of a match: one for every window of document A with every window of
document B, quoting the lines of A. -/
def Match.segments (lines : List Text) (m : Match) : List Segment :=
  m.inA.flatMap fun p =>
    m.inB.map fun q =>
      { inA := .ofWindow p
        inB := .ofWindow q
        quote := (lines.drop p.toNat).take windowSize }

/-- The raw segments of a list of matches. -/
def rawSegments (lines : List Text) (matched : List Match) : List Segment :=
  matched.flatMap (Match.segments lines)

namespace Segment

/-- Splits segments in ascending order into groups, going on with a group whose segments so far
are `group`, the latest first, and end in document A at line `reach`. A segment belongs to the
group unless a line lies between them. -/
def groupsFrom (group : List Segment) (reach : Int) : List Segment → List (List Segment)
  | [] => [group.reverse]
  | s :: rest =>
    if s.inA.first ≤ reach + 1 then
      groupsFrom (s :: group) (max reach s.inA.last) rest
    else
      group.reverse :: groupsFrom [s] s.inA.last rest

/-- The groups of touching segments among segments in ascending order. -/
def groups : List Segment → List (List Segment)
  | [] => []
  | s :: rest => groupsFrom [s] s.inA.last rest

/-- Splitting into groups loses nothing and keeps the order. -/
theorem flatten_groupsFrom (group : List Segment) (reach : Int) (rest : List Segment) :
    (groupsFrom group reach rest).flatten = group.reverse ++ rest := by
  induction rest generalizing group reach with
  | nil => simp [groupsFrom]
  | cons s rest ih => rw [groupsFrom]; split <;> simp [ih]

/-- The groups joined give the segments back. -/
@[simp] theorem flatten_groups (segments : List Segment) :
    (groups segments).flatten = segments := by
  cases segments with
  | nil => rfl
  | cons s rest => simp [groups, flatten_groupsFrom]

/-- The quotation of a group: that of a lone segment unchanged, those of several put together,
each line at its first place only. -/
def groupQuote : List Segment → List Text
  | [s] => s.quote
  | group => (group.flatMap quote).eraseDups

/-- The segment that covers a group `s :: rest`, in which `s` starts first in document A. -/
def ofGroup (s : Segment) (rest : List Segment) : Segment where
  inA := ⟨s.inA.first, rest.foldl (fun last t => max last t.inA.last) s.inA.last⟩
  inB :=
    ⟨rest.foldl (fun first t => min first t.inB.first) s.inB.first,
      rest.foldl (fun last t => max last t.inB.last) s.inB.last⟩
  quote := groupQuote (s :: rest)

/-- The segment that covers a group, if the group has a member. -/
def cover? : List Segment → Option Segment
  | [] => none
  | s :: rest => some (ofGroup s rest)

/-- The segments in ascending order of their first line in document A; those with the same
first line keep their order. -/
def sort (segments : List Segment) : List Segment :=
  segments.mergeSort (fun s t => s.inA.first ≤ t.inA.first)

/-- The segments merged wherever their ranges in document A overlap or touch. -/
def merge (segments : List Segment) : List Segment :=
  (groups (sort segments)).filterMap cover?

/-- The first `limit` segments; all of them if `limit` is zero. -/
def limited (limit : Nat) (segments : List Segment) : List Segment :=
  if limit = 0 then segments else segments.take limit

end Segment

end CodeSimilarity
