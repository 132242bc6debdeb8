import CodeSimilarity.Proofs.Windows

set_option autoImplicit false
set_option relaxedAutoImplicit false

/-!
# An index as a hash table

An index is kept as a hash table from digests to the first lines of their windows, and beside it
the digests in the order in which they were first entered. The table and the list change together,
so they hold the postings of one `DigestIndex`, and the overlap of two indices can be read off
their tables.

## Main definitions

* `DigestTable` — first lines by digests, and the order of the digests.
* `DigestTable.add`, `DigestTable.find?`, `DigestTable.overlap` — entering, looking up, comparing.
* `DigestTable.ofLines` — the table of all windows of a document.
* `DigestTable.Represents` — a table holds the postings of an index.

## Main results

* `DigestTable.Represents.add` — entering a window into both keeps them together.
* `DigestTable.represents_addAll` — a table represents an index after any entries.
* `DigestTable.overlap_ofLines` — comparing the tables of two documents is comparing their indices.
-/

namespace CodeSimilarity

/-- The first lines of the windows by their digests, and the digests in first-seen order. -/
structure DigestTable where
  /-- The first lines of the windows with each digest, in the order of entry. -/
  positions : Std.HashMap Digest (List Int) := {}
  /-- The digests, the first entered one first. -/
  order : List Digest := []

namespace DigestTable

/-- The first lines of the windows with digest `d`; `none` if no such window was entered. -/
def find? (t : DigestTable) (d : Digest) : Option (List Int) :=
  t.positions[d]?

/-- Whether nothing was entered. -/
def isEmpty (t : DigestTable) : Bool :=
  t.order.isEmpty

/-- The number of different digests. -/
def distinct (t : DigestTable) : Nat :=
  t.order.length

/-- Enters a window. A digest that was not there gets an empty list of windows and a place at the
end of the order; then the first line goes to the end of the list of its digest. -/
def add (t : DigestTable) (d : Digest) (start : Int) : DigestTable :=
  let (found, positions) := t.positions.containsThenInsertIfNew d []
  { positions := positions.modify d (· ++ [start])
    order := if found then t.order else t.order ++ [d] }

/-- The table after windows were entered one after the other. -/
def addAll (t : DigestTable) (entries : List (Digest × Int)) : DigestTable :=
  entries.foldl (fun t e => t.add e.1 e.2) t

/-- The table of all windows of a document. -/
def ofLines (lines : List Text) : DigestTable :=
  (List.range (windowCount lines.length)).foldl (fun t start => t.add (shingle lines start) start) {}

/-- The overlap of two tables: the digests of the first one, in their order, that the second one
has too. -/
def overlap (a b : DigestTable) : Overlap where
  matched := a.order.filterMap fun d =>
    (b.find? d).map fun starts => ⟨d, (a.find? d).getD [], starts⟩
  sizeA := a.distinct
  sizeB := b.distinct

/-- A table holds the postings of an index: the same digests in the same order, each with the same
windows. -/
structure Represents (t : DigestTable) (index : DigestIndex) : Prop where
  order_eq : t.order = index.postings.map Posting.digest
  find?_eq : ∀ d, t.find? d = index.find? d

variable {t : DigestTable} {index : DigestIndex}

/-- A table without entries represents an index without entries. -/
theorem represents_empty : Represents {} {} := by
  refine ⟨rfl, fun d => ?_⟩
  exact Std.HashMap.getElem?_emptyWithCapacity

/-- Entering a window adds its first line to those of its digest, and to no other. -/
theorem find?_add (t : DigestTable) (d e : Digest) (start : Int) :
    (t.add d start).find? e =
      if e = d then some ((t.find? e).getD [] ++ [start]) else t.find? e := by
  simp only [add, find?, Std.HashMap.containsThenInsertIfNew_snd, Std.HashMap.getElem?_modify,
    beq_iff_eq, Std.HashMap.getElem?_insertIfNew]
  by_cases hed : e = d
  · subst hed
    by_cases hmem : e ∈ t.positions
    · simp [hmem]
    · simp [hmem]
  · rw [if_neg (Ne.symm hed), if_neg hed, if_neg fun h => hed h.1.symm]

/-- A digest can be looked up in an index exactly if it has a posting. -/
theorem isSome_find?_iff (index : DigestIndex) (d : Digest) :
    (index.find? d).isSome ↔ d ∈ index.postings.map Posting.digest := by
  simp [DigestIndex.find?]

/-- **Entering a window into both** keeps a table and an index together. -/
theorem Represents.add (h : t.Represents index) (d : Digest) (start : Int) :
    (t.add d start).Represents (index.add d start) where
  order_eq := by
    have hfound : t.positions.contains d = true ↔ d ∈ index.postings.map Posting.digest := by
      rw [← isSome_find?_iff, ← h.find?_eq d, Std.HashMap.contains_eq_isSome_getElem?, find?]
    change (if (t.positions.containsThenInsertIfNew d []).1 then t.order else t.order ++ [d]) =
      (DigestIndex.insert d start index.postings).map Posting.digest
    rw [Std.HashMap.containsThenInsertIfNew_fst, DigestIndex.map_digest_insert, h.order_eq]
    simp only [hfound]
  find?_eq e := by rw [find?_add, DigestIndex.find?_add, h.find?_eq e]

/-- Entering any windows into both keeps a table and an index together. -/
theorem Represents.addAll (h : t.Represents index) (entries : List (Digest × Int)) :
    (t.addAll entries).Represents (index.addAll entries) := by
  induction entries generalizing t index with
  | nil => exact h
  | cons e entries ih => exact ih (h.add e.1 e.2)

/-- **A table represents an index after any entries.** -/
theorem represents_addAll (entries : List (Digest × Int)) :
    (addAll {} entries).Represents (DigestIndex.addAll {} entries) :=
  represents_empty.addAll entries

/-- The table of a document represents its index. -/
theorem represents_ofLines (lines : List Text) :
    (ofLines lines).Represents (.ofLines lines) := by
  have htable : ofLines lines = addAll {} (DigestIndex.entriesOf lines) := by
    rw [ofLines, addAll, DigestIndex.entriesOf, List.foldl_map]
  rw [htable, DigestIndex.ofLines_eq_addAll]
  exact represents_addAll _

/-- A table and the index that it represents have equally many digests. -/
theorem Represents.distinct_eq (h : t.Represents index) : t.distinct = index.size := by
  rw [distinct, h.order_eq, List.length_map]
  rfl

/-- A table is empty exactly if the index that it represents is. -/
theorem Represents.isEmpty_eq (h : t.Represents index) : t.isEmpty = index.isEmpty := by
  rw [isEmpty, h.order_eq, List.isEmpty_map]
  rfl

/-- Looking up a digest of the order gives the windows of its posting. -/
theorem Represents.find?_digest (h : t.Represents index)
    (hnodup : (index.postings.map Posting.digest).Nodup) {p : Posting} (hp : p ∈ index.postings) :
    t.find? p.digest = some p.starts :=
  (h.find?_eq p.digest).trans ((DigestIndex.mem_iff_find? hnodup).1 hp)

/-- **Comparing two tables** is comparing the indices that they represent, if no digest has two
postings. -/
theorem Represents.overlap_eq {u : DigestTable} {other : DigestIndex} (ha : t.Represents index)
    (hb : u.Represents other) (hnodup : (index.postings.map Posting.digest).Nodup) :
    t.overlap u = index.overlap other := by
  have hmatched : (t.overlap u).matched = (index.overlap other).matched := by
    simp only [overlap, DigestIndex.overlap, ha.order_eq, List.filterMap_map]
    refine List.filterMap_congr fun p hp => ?_
    rw [Function.comp_apply, hb.find?_eq, ha.find?_digest hnodup hp, Option.getD_some]
  have hsizeA : (t.overlap u).sizeA = (index.overlap other).sizeA := ha.distinct_eq
  have hsizeB : (t.overlap u).sizeB = (index.overlap other).sizeB := hb.distinct_eq
  exact congr (congr (congrArg Overlap.mk hmatched) hsizeA) hsizeB

/-- **The tables of two documents** overlap as their indices do. -/
theorem overlap_ofLines (linesA linesB : List Text) :
    (ofLines linesA).overlap (ofLines linesB) = (Comparison.ofLines linesA linesB).overlap :=
  (represents_ofLines linesA).overlap_eq (represents_ofLines linesB)
    (DigestIndex.nodup_ofLines linesA)

end DigestTable

end CodeSimilarity
