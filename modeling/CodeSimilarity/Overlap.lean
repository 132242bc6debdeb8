import CodeSimilarity.Shingle
import CodeSimilarity.Binary64.Nearest

set_option autoImplicit false
set_option relaxedAutoImplicit false

/-!
# Overlap of two indices

The similarity of two documents is the Jaccard index of their sets of digests: the number of
common digests over the number of digests in either.

## Main definitions

* `Match` — a common digest with its windows in both documents.
* `Overlap` — the common digests of two indices.
* `DigestIndex.overlap` — the overlap of two indices.
* `Overlap.score` — the Jaccard index.
-/

namespace CodeSimilarity

/-- A digest that two documents share, with its windows in both. -/
structure Match where
  /-- The shared digest. -/
  digest : Digest
  /-- The first lines of its windows in document A. -/
  inA : List Int
  /-- The first lines of its windows in document B. -/
  inB : List Int
deriving DecidableEq, Repr

/-- What the indices of two documents have in common. -/
structure Overlap where
  /-- The common digests, in the order of document A. -/
  matched : List Match
  /-- The number of digests of document A. -/
  sizeA : Nat
  /-- The number of digests of document B. -/
  sizeB : Nat
deriving DecidableEq, Repr

namespace Overlap

/-- The number of digests that both documents have. -/
def intersection (o : Overlap) : Nat :=
  o.matched.length

/-- The number of digests that at least one document has. -/
def unionSize (o : Overlap) : Nat :=
  o.sizeA + o.sizeB - o.intersection

/-- The Jaccard index of the two sets of digests, zero if both are empty. -/
def score (o : Overlap) : Binary64 :=
  if o.unionSize = 0 then 0 else Binary64.ofRatio false o.intersection o.unionSize

end Overlap

/-- The overlap of the indices of two documents. -/
def DigestIndex.overlap (a b : DigestIndex) : Overlap where
  matched := a.postings.filterMap fun p =>
    (b.find? p.digest).map fun starts => ⟨p.digest, p.starts, starts⟩
  sizeA := a.size
  sizeB := b.size

end CodeSimilarity
