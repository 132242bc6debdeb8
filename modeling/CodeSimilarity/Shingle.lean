import CodeSimilarity.Digest
import CodeSimilarity.Fingerprint

set_option autoImplicit false
set_option relaxedAutoImplicit false

/-!
# Shingles

Documents are compared by their shingles: the digests of the fingerprints of all windows of
three consecutive lines.

## Main definitions

* `windowAt`, `windowCount` — the windows of a list of lines.
* `shingle` — the digest of one window.
* `DigestIndex` — for each digest, the lines at which a window with it starts.
* `DigestIndex.add`, `DigestIndex.find?` — entering a window and looking a digest up.
* `DigestIndex.ofLines` — the index of all windows of a document.

## Main results

* `DigestIndex.find?_add` — what looking a digest up gives after a window was entered.

## Design

The index is a list of postings in the order in which their digests were first entered, since
that order shows in every list of matches. Line numbers are integers, counted from 0.
-/

namespace CodeSimilarity

/-- The number of lines in a window. -/
def windowSize : Nat := 3

/-- The window that starts at a line, its lines joined by line feeds. -/
def windowAt (lines : List Text) (start : Nat) : Text :=
  Text.unlines ((lines.drop start).take windowSize)

/-- How many windows there are in a number of lines. -/
def windowCount (lineCount : Nat) : Nat :=
  lineCount + 1 - windowSize

/-- The digest of the window that starts at a line. -/
def shingle (lines : List Text) (start : Nat) : Digest :=
  Digest.ofText (fingerprint (windowAt lines start))

/-- A digest and the lines at which a window with that digest starts. -/
structure Posting where
  /-- The digest that the windows share. -/
  digest : Digest
  /-- The first lines of the windows, in the order of entry. -/
  starts : List Int
deriving DecidableEq, Repr

/-- An index from digests to windows, with one posting for each digest, in the order in which
the digests were first entered. -/
structure DigestIndex where
  /-- The postings, the first entered digest first. -/
  postings : List Posting := []
deriving DecidableEq, Repr

namespace DigestIndex

/-- Enters a window into a list of postings. -/
def insert (d : Digest) (start : Int) : List Posting → List Posting
  | [] => [⟨d, [start]⟩]
  | p :: ps =>
    if p.digest = d then { p with starts := p.starts ++ [start] } :: ps
    else p :: insert d start ps

/-- Enters a window with digest `d` that starts at line `start`. -/
def add (index : DigestIndex) (d : Digest) (start : Int) : DigestIndex :=
  ⟨insert d start index.postings⟩

/-- The first lines of the windows with digest `d`; `none` if no such window was entered. -/
def find? (index : DigestIndex) (d : Digest) : Option (List Int) :=
  (index.postings.find? (·.digest == d)).map Posting.starts

/-- The windows with a digest, in a list of postings. -/
theorem find?_insert (d e : Digest) (start : Int) (ps : List Posting) :
    ((insert d start ps).find? (·.digest == e)).map Posting.starts =
      if e = d then some (((ps.find? (·.digest == e)).map Posting.starts).getD [] ++ [start])
      else (ps.find? (·.digest == e)).map Posting.starts := by
  induction ps with
  | nil =>
    by_cases h : e = d
    · simp [insert, h]
    · simp [insert, h, Ne.symm h]
  | cons p ps ih =>
    by_cases hp : p.digest = d <;> by_cases he : e = d <;> by_cases hpe : p.digest = e <;>
      simp_all [insert]

/-- Entering a window adds its first line to those of its digest, and to no other. -/
theorem find?_add (index : DigestIndex) (d e : Digest) (start : Int) :
    (index.add d start).find? e =
      if e = d then some ((index.find? e).getD [] ++ [start]) else index.find? e :=
  find?_insert d e start index.postings

/-- The number of different digests. -/
def size (index : DigestIndex) : Nat :=
  index.postings.length

/-- Whether nothing was entered. -/
def isEmpty (index : DigestIndex) : Bool :=
  index.postings.isEmpty

/-- The index of all windows of a document. -/
def ofLines (lines : List Text) : DigestIndex :=
  (List.range (windowCount lines.length)).foldl
    (fun index start => index.add (shingle lines start) start) {}

end DigestIndex

end CodeSimilarity
