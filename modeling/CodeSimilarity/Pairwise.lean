import CodeSimilarity.Comparison
import CodeSimilarity.Document
import CodeSimilarity.Settings

set_option autoImplicit false
set_option relaxedAutoImplicit false

/-!
# Pairwise comparison

All documents are compared with each other, every pair once, and the pairs are listed with the
most similar ones first.

## Main definitions

* `Pair`, `pairs` — the pairs of a list of documents.
* `Pair.compare` — the comparison of the documents of a pair.
* `comparePairs` — the compared pairs, the most similar ones first.

## Design

The pairs are sorted stably by score, and before that they stand in lexicographic order, so
equal scores stay in that order. Each pair is compared by itself, whatever the number of
threads.
-/

namespace CodeSimilarity

/-- Two documents and their places in the list of documents. -/
structure Pair where
  /-- The place of document A. -/
  i : Nat
  /-- The place of document B. -/
  j : Nat
  /-- Document A. -/
  docA : Document
  /-- Document B. -/
  docB : Document
deriving DecidableEq, Repr

/-- The pairs of documents that are given with their places, each pair once, in lexicographic
order. -/
def placedPairs : List (Document × Nat) → List Pair
  | [] => []
  | (a, i) :: rest => rest.map (fun (b, j) => ⟨i, j, a, b⟩) ++ placedPairs rest

/-- The pairs of a list of documents, each pair once, in lexicographic order. -/
def pairs (documents : List Document) : List Pair :=
  placedPairs documents.zipIdx

/-- A compared pair. -/
structure PairResult where
  /-- The pair. -/
  pair : Pair
  /-- What comparing its documents finds out. -/
  comparison : Comparison
  /-- Whether the score reaches the threshold. -/
  flagged : Bool
  /-- The counts behind the comparison, if they are to be shown. -/
  stats : Option Stats
deriving DecidableEq, Repr

/-- Compares the documents of a pair. -/
def Pair.compare (settings : Settings) (p : Pair) : PairResult :=
  let comparison := Comparison.ofTexts p.docA.text p.docB.text
  { pair := p
    comparison
    flagged := settings.threshold.le comparison.score
    stats :=
      if settings.debug = 0 then none
      else some (Stats.record { timed := settings.timing ≠ 0 } comparison) }

/-- The results in descending order of their scores; equal scores keep their order. -/
def PairResult.sort (results : List PairResult) : List PairResult :=
  results.mergeSort fun r s => s.comparison.score.rank ≤ r.comparison.score.rank

/-- The compared pairs of a list of documents, the most similar ones first. -/
def comparePairs (settings : Settings) (documents : List Document) : List PairResult :=
  PairResult.sort ((pairs documents).map (Pair.compare settings))

end CodeSimilarity
