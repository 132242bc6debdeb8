import CodeSimilarity.Json.Basic
import CodeSimilarity.Pairwise

set_option autoImplicit false
set_option relaxedAutoImplicit false

/-!
# Reports

A report lists the compared pairs of some documents with their scores, their segments and,
where they are asked for, their counts.

## Main definitions

* `ReportItem`, `PairResult.item` — what a report says about a pair.
* `Report`, `Report.ofResults` — the report on compared pairs.
* `Report.ofDocuments` — the report on all pairs of some documents.

The instances of `ToJson` at the end fix the written form of segments, counts and reports.
-/

namespace CodeSimilarity

/-- What a report says about a pair. -/
structure ReportItem where
  /-- The name of document A. -/
  idA : Text
  /-- The name of document B. -/
  idB : Text
  /-- How similar the documents are. -/
  score : Binary64
  /-- Whether the score reaches the threshold. -/
  flagged : Bool
  /-- The matched segments. -/
  segments : List Segment
  /-- The counts behind the comparison, if they are shown. -/
  stats : Option Stats
deriving DecidableEq, Repr

/-- A report on all pairs of some documents. -/
structure Report where
  /-- The least score of a flagged pair. -/
  threshold : Binary64
  /-- The number of documents. -/
  documents : Nat
  /-- The number of pairs. -/
  pairs : Nat
  /-- The number of flagged pairs. -/
  flagged : Nat
  /-- The pairs, the most similar ones first. -/
  items : List ReportItem
deriving DecidableEq, Repr

/-- What a report says about a compared pair. -/
def PairResult.item (settings : Settings) (r : PairResult) : ReportItem where
  idA := r.pair.docA.id
  idB := r.pair.docB.id
  score := r.comparison.score
  flagged := r.flagged
  segments := Segment.limited settings.maxSegments r.comparison.segments
  stats := r.stats

namespace Report

/-- The report on compared pairs of some documents. -/
def ofResults (settings : Settings) (documents : List Document) (results : List PairResult) :
    Report where
  threshold := settings.threshold
  documents := documents.length
  pairs := results.length
  flagged := results.countP PairResult.flagged
  items := results.map (PairResult.item settings)

/-- The report on all pairs of some documents. -/
def ofDocuments (settings : Settings) (documents : List Document) : Report :=
  ofResults settings documents (comparePairs settings documents)

end Report

/-! ## Written form -/

/-- The fields of a segment. -/
def Segment.fields (s : Segment) : List (String × Json) :=
  [("file1_end", toJson s.inA.last), ("file1_start", toJson s.inA.first),
   ("file2_end", toJson s.inB.last), ("file2_start", toJson s.inB.first),
   ("lines", toJson s.quote)]

instance : ToJson Segment := ⟨fun s => .object s.fields⟩

/-- The durations of the stages. No clock is read, so each is written as zero. -/
def Stats.durations : List (String × Json) :=
  ["t_index_us", "t_norm_us", "t_score_us", "t_segments_us"].map fun name => (name, toJson 0)

/-- The counts, the durations among them if they are to be shown. -/
def Stats.fields (s : Stats) : List (String × Json) :=
  [("intersection", toJson s.intersection), ("lines_a", toJson s.linesA),
   ("lines_b", toJson s.linesB),
   ("matched_digests", toJson (s.matchedDigests.map Digest.format)),
   ("merged_segments", toJson s.mergedSegments), ("raw_segments", toJson s.rawSegments),
   ("shingles_a", toJson s.shinglesA), ("shingles_b", toJson s.shinglesB)] ++
  (if s.timed then Stats.durations else []) ++
  [("union_size", toJson s.unionSize), ("windows_a", toJson s.windowsA),
   ("windows_b", toJson s.windowsB)]

instance : ToJson Stats := ⟨fun s => .object s.fields⟩

/-- The field for counts, absent if they are not shown. -/
def Stats.field (stats : Option Stats) : List (String × Json) :=
  stats.toList.map fun s => ("stats", toJson s)

/-- The fields of what a report says about a pair. -/
def ReportItem.fields (r : ReportItem) : List (String × Json) :=
  [("doc1", toJson r.idA), ("doc2", toJson r.idB), ("flagged", toJson r.flagged),
   ("segments", toJson r.segments), ("similarity_score", toJson r.score)] ++
  Stats.field r.stats

instance : ToJson ReportItem := ⟨fun r => .object r.fields⟩

/-- The fields of a report. -/
def Report.fields (r : Report) : List (String × Json) :=
  [("documents", toJson r.documents), ("flagged", toJson r.flagged), ("ok", toJson true),
   ("pairs", toJson r.pairs), ("results", toJson r.items), ("threshold", toJson r.threshold)]

instance : ToJson Report := ⟨fun r => .object r.fields⟩

end CodeSimilarity
