import CodeSimilarity.Segment
import CodeSimilarity.Source.Normal

set_option autoImplicit false
set_option relaxedAutoImplicit false

/-!
# Comparing two documents

## Main definitions

* `Comparison` — all that comparing two documents finds out.
* `Comparison.ofLines`, `Comparison.ofTexts` — comparing two normal forms, and two texts.
* `Comparison.score` — how similar the documents are.
* `Stats` — the counts behind a comparison.
* `Stats.record` — a record of counts after a comparison.

## Design

A record of counts belongs to the caller, who may use one record for several comparisons. Each
comparison overwrites every count; the wish to see durations is the caller's and stays. No
clock is read, so no durations are kept.
-/

namespace CodeSimilarity

/-- All that comparing document A with document B finds out. -/
structure Comparison where
  /-- The normal form of document A. -/
  linesA : List Text
  /-- The normal form of document B. -/
  linesB : List Text
  /-- What the indices of the two normal forms have in common. -/
  overlap : Overlap
  /-- One segment for every pair of windows with one digest. -/
  raw : List Segment
  /-- The raw segments, merged. -/
  segments : List Segment
deriving DecidableEq, Repr

namespace Comparison

/-- The comparison of two documents that are given by their normal forms. -/
def ofLines (linesA linesB : List Text) : Comparison :=
  let overlap := (DigestIndex.ofLines linesA).overlap (DigestIndex.ofLines linesB)
  let raw := rawSegments linesA overlap.matched
  { linesA, linesB, overlap, raw, segments := Segment.merge raw }

/-- The comparison of two texts. Their identifiers are numbered apart. -/
def ofTexts (a b : Text) : Comparison :=
  ofLines (normalize a) (normalize b)

/-- How similar the two documents are, from 0 to 1. -/
def score (c : Comparison) : Binary64 :=
  c.overlap.score

end Comparison

/-- The counts behind a comparison. -/
structure Stats where
  /-- Whether the durations of the stages are to be shown. -/
  timed : Bool := false
  /-- The number of lines in the normal form of document A. -/
  linesA : Nat := 0
  /-- The number of lines in the normal form of document B. -/
  linesB : Nat := 0
  /-- The number of windows of document A. -/
  windowsA : Nat := 0
  /-- The number of windows of document B. -/
  windowsB : Nat := 0
  /-- The number of different digests of document A. -/
  shinglesA : Nat := 0
  /-- The number of different digests of document B. -/
  shinglesB : Nat := 0
  /-- The number of digests that both documents have. -/
  intersection : Nat := 0
  /-- The number of digests that at least one document has. -/
  unionSize : Nat := 0
  /-- The number of segments before merging. -/
  rawSegments : Nat := 0
  /-- The number of segments after merging. -/
  mergedSegments : Nat := 0
  /-- The common digests, in the order of document A. -/
  matchedDigests : List Digest := []
deriving DecidableEq, Repr

/-- The record `s` after a comparison: every count is that of the comparison. -/
def Stats.record (s : Stats) (c : Comparison) : Stats :=
  { s with
    linesA := c.linesA.length
    linesB := c.linesB.length
    windowsA := windowCount c.linesA.length
    windowsB := windowCount c.linesB.length
    shinglesA := c.overlap.sizeA
    shinglesB := c.overlap.sizeB
    intersection := c.overlap.intersection
    unionSize := c.overlap.unionSize
    rawSegments := c.raw.length
    mergedSegments := c.segments.length
    matchedDigests := c.overlap.matched.map Match.digest }

end CodeSimilarity
