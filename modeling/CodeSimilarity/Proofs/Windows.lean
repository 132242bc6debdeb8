import CodeSimilarity.Comparison
import Mathlib.Data.List.Nodup
import Mathlib.Data.List.ProdSigma

set_option autoImplicit false
set_option relaxedAutoImplicit false

/-!
# The windows behind a comparison

The index of a document holds every window exactly once, under its digest. So the raw segments of
a comparison are those of all pairs of windows, one of each document, with one digest.

## Main definitions

* `DigestIndex.addAll` — an index after many windows were entered.
* `DigestIndex.windowsWith` — the windows of a document that have a digest.
* `DigestIndex.entriesOf` — what is entered for a document.
* `Segment.ofWindows` — the raw segment of two windows.
* `Segment.starts` — the first lines of a segment in both documents.

## Main results

* `DigestIndex.find?_addAll`, `DigestIndex.nodup_addAll` — what an index holds after any entries.
* `DigestIndex.find?_ofLines` — the index of a document holds exactly its windows.
* `mem_raw_ofLines`, `nodup_starts_raw` — the raw segments of a comparison, each once.
-/

namespace CodeSimilarity

namespace DigestIndex

/-! ## Entering many windows -/

/-- The digests of some postings after a window was entered. -/
theorem map_digest_insert (d : Digest) (start : Int) (ps : List Posting) :
    (insert d start ps).map Posting.digest =
      if d ∈ ps.map Posting.digest then ps.map Posting.digest
      else ps.map Posting.digest ++ [d] := by
  induction ps with
  | nil => rfl
  | cons p ps ih =>
    rw [insert]
    by_cases hp : p.digest = d
    · simp [hp]
    · have hp' : d ≠ p.digest := Ne.symm hp
      simp only [if_neg hp, List.map_cons, ih, List.mem_cons, hp', false_or]
      split <;> rfl

/-- The index after windows were entered one after the other, each with its digest and its first
line. -/
def addAll (index : DigestIndex) (entries : List (Digest × Int)) : DigestIndex :=
  entries.foldl (fun index e => index.add e.1 e.2) index

/-- The last entry is entered last. -/
theorem addAll_concat (index : DigestIndex) (entries : List (Digest × Int)) (e : Digest × Int) :
    index.addAll (entries ++ [e]) = (index.addAll entries).add e.1 e.2 := by
  rw [addAll, List.foldl_append]
  rfl

/-- The first lines that were entered with a digest. -/
def startsOf (d : Digest) (entries : List (Digest × Int)) : List Int :=
  (entries.filter (·.1 = d)).map Prod.snd

/-- **Looking a digest up** gives the first lines that were entered with it, in order. -/
theorem find?_addAll (index : DigestIndex) (entries : List (Digest × Int)) (d : Digest) :
    (index.addAll entries).find? d =
      if startsOf d entries = [] then index.find? d
      else some ((index.find? d).getD [] ++ startsOf d entries) := by
  induction entries generalizing index with
  | nil => rfl
  | cons e entries ih =>
    rw [addAll, List.foldl_cons, ← addAll, ih, find?_add]
    by_cases he : e.1 = d
    · have hcons : startsOf d (e :: entries) = e.2 :: startsOf d entries := by
        simp [startsOf, he]
      rw [hcons, if_neg (List.cons_ne_nil _ _), if_pos he.symm]
      by_cases hs : startsOf d entries = []
      · rw [if_pos hs, hs]
      · rw [if_neg hs, Option.getD_some, List.append_assoc, List.singleton_append]
    · have hcons : startsOf d (e :: entries) = startsOf d entries := by
        simp [startsOf, he]
      have he' : d ≠ e.1 := Ne.symm he
      rw [hcons, if_neg he']

/-- No digest gets two postings. -/
theorem nodup_addAll {index : DigestIndex} (h : (index.postings.map Posting.digest).Nodup)
    (entries : List (Digest × Int)) :
    ((index.addAll entries).postings.map Posting.digest).Nodup := by
  induction entries generalizing index with
  | nil => exact h
  | cons e entries ih =>
    refine ih ?_
    change ((insert e.1 e.2 index.postings).map Posting.digest).Nodup
    rw [map_digest_insert]
    split
    · exact h
    · next hnot => exact List.nodup_append_comm.1 (List.nodup_cons.2 ⟨hnot, h⟩)

/-- A posting stands in a list with one posting for each digest exactly if it is what looking its
digest up gives. -/
theorem mem_iff_find? {ps : List Posting} (h : (ps.map Posting.digest).Nodup) {p : Posting} :
    p ∈ ps ↔ (ps.find? (·.digest == p.digest)).map Posting.starts = some p.starts := by
  induction ps with
  | nil => simp
  | cons q qs ih =>
    obtain ⟨hq, hqs⟩ := List.nodup_cons.1 h
    by_cases hd : q.digest = p.digest
    · have hnot : p ∉ qs := fun hp => hq (hd ▸ List.mem_map_of_mem hp)
      rw [List.find?_cons_of_pos (by simp [hd]), Option.map_some, Option.some.injEq]
      constructor
      · intro hp
        rcases List.mem_cons.1 hp with rfl | hp
        · rfl
        · exact absurd hp hnot
      · intro hstarts
        have hpq : p = q := by
          cases p; cases q
          simp_all
        exact hpq ▸ List.mem_cons_self
    · rw [List.find?_cons_of_neg (by simpa using hd), ← ih hqs, List.mem_cons]
      exact ⟨fun hp => hp.resolve_left fun he => hd (he ▸ rfl), .inr⟩

/-! ## The index of a document -/

/-- The windows of a document that have a digest, in ascending order. -/
def windowsWith (lines : List Text) (d : Digest) : List Nat :=
  (List.range (windowCount lines.length)).filter (shingle lines · = d)

/-- The windows with a digest are those whose digest it is. -/
theorem mem_windowsWith {lines : List Text} {d : Digest} {p : Nat} :
    p ∈ windowsWith lines d ↔ p < windowCount lines.length ∧ shingle lines p = d := by
  simp [windowsWith]

/-- Some window has a digest exactly if the digest has a window. -/
theorem windowsWith_ne_nil_iff {lines : List Text} {d : Digest} :
    windowsWith lines d ≠ [] ↔
      ∃ p < windowCount lines.length, shingle lines p = d := by
  constructor
  · intro hne
    obtain ⟨p, hp⟩ := List.exists_mem_of_ne_nil _ hne
    exact ⟨p, mem_windowsWith.1 hp⟩
  · rintro ⟨p, hp⟩
    exact List.ne_nil_of_mem (mem_windowsWith.2 hp)

/-- What is entered for a document: its windows, from the first to the last. -/
def entriesOf (lines : List Text) : List (Digest × Int) :=
  (List.range (windowCount lines.length)).map fun (p : Nat) => (shingle lines p, (p : Int))

/-- A document is indexed by entering all of its windows. -/
theorem ofLines_eq_addAll (lines : List Text) : ofLines lines = addAll {} (entriesOf lines) := by
  rw [ofLines, addAll, entriesOf, List.foldl_map]

/-- **The index of a document** holds, for each digest, exactly the windows that have it. -/
theorem find?_ofLines (lines : List Text) (d : Digest) :
    (ofLines lines).find? d =
      if windowsWith lines d = [] then none
      else some ((windowsWith lines d).map fun (p : Nat) => (p : Int)) := by
  have hstarts : startsOf d (entriesOf lines) =
      (windowsWith lines d).map fun (p : Nat) => (p : Int) := by
    simp only [startsOf, entriesOf, windowsWith, List.filter_map, List.map_map]
    rfl
  rw [ofLines_eq_addAll, find?_addAll, hstarts]
  simp [find?]

/-- No digest gets two postings. -/
theorem nodup_ofLines (lines : List Text) :
    ((ofLines lines).postings.map Posting.digest).Nodup := by
  rw [ofLines_eq_addAll]
  refine nodup_addAll ?_ _
  exact List.nodup_nil

/-- A digest can be looked up exactly if some window has it, and then gives those windows. -/
theorem find?_ofLines_eq_some_iff {lines : List Text} {d : Digest} {starts : List Int} :
    (ofLines lines).find? d = some starts ↔
      windowsWith lines d ≠ [] ∧ starts = (windowsWith lines d).map fun (p : Nat) => (p : Int) := by
  rw [find?_ofLines]
  split
  · next h => simp [h]
  · next h => simp [h, eq_comm]

/-- A posting lists all windows with its digest, and there is one for each digest of a window. -/
theorem mem_postings_ofLines {lines : List Text} {p : Posting} :
    p ∈ (ofLines lines).postings ↔
      windowsWith lines p.digest ≠ [] ∧
        p.starts = (windowsWith lines p.digest).map fun (p : Nat) => (p : Int) := by
  rw [mem_iff_find? (nodup_ofLines lines), ← find?_ofLines_eq_some_iff]
  rfl

end DigestIndex

/-! ## Raw segments -/

/-- The raw segment of a window of document A, whose lines are given, and a window of
document B. -/
def Segment.ofWindows (lines : List Text) (p q : Nat) : Segment where
  inA := .ofWindow p
  inB := .ofWindow q
  quote := (lines.drop p).take windowSize

/-- A match lists all windows with its digest in both documents, and both have one. -/
theorem mem_matched_ofLines {linesA linesB : List Text} {m : Match} :
    m ∈ (Comparison.ofLines linesA linesB).overlap.matched ↔
      (DigestIndex.windowsWith linesA m.digest ≠ [] ∧
        m.inA = (DigestIndex.windowsWith linesA m.digest).map fun (p : Nat) => (p : Int)) ∧
      (DigestIndex.windowsWith linesB m.digest ≠ [] ∧
        m.inB = (DigestIndex.windowsWith linesB m.digest).map fun (p : Nat) => (p : Int)) := by
  simp only [Comparison.ofLines, DigestIndex.overlap, List.mem_filterMap, Option.map_eq_some_iff]
  constructor
  · rintro ⟨p, hp, starts, hstarts, rfl⟩
    exact ⟨DigestIndex.mem_postings_ofLines.1 hp, DigestIndex.find?_ofLines_eq_some_iff.1 hstarts⟩
  · rintro ⟨hA, hB⟩
    exact ⟨⟨m.digest, m.inA⟩, DigestIndex.mem_postings_ofLines.2 hA, m.inB,
      DigestIndex.find?_ofLines_eq_some_iff.2 hB, rfl⟩

/-- The matched digests are those of windows of both documents. -/
theorem mem_digests_ofLines {linesA linesB : List Text} {d : Digest} :
    d ∈ (Comparison.ofLines linesA linesB).overlap.matched.map Match.digest ↔
      DigestIndex.windowsWith linesA d ≠ [] ∧ DigestIndex.windowsWith linesB d ≠ [] := by
  rw [List.mem_map]
  constructor
  · rintro ⟨m, hm, rfl⟩
    obtain ⟨⟨hA, -⟩, hB, -⟩ := mem_matched_ofLines.1 hm
    exact ⟨hA, hB⟩
  · rintro ⟨hA, hB⟩
    let m : Match :=
      { digest := d
        inA := (DigestIndex.windowsWith linesA d).map fun (p : Nat) => (p : Int)
        inB := (DigestIndex.windowsWith linesB d).map fun (p : Nat) => (p : Int) }
    exact ⟨m, mem_matched_ofLines.2 ⟨⟨hA, rfl⟩, hB, rfl⟩, rfl⟩

/-- Two windows with one digest meet in a match. -/
theorem exists_mem_matched_ofLines {linesA linesB : List Text} {p q : Nat}
    (hp : p < windowCount linesA.length) (hq : q < windowCount linesB.length)
    (hpq : shingle linesA p = shingle linesB q) :
    ∃ m ∈ (Comparison.ofLines linesA linesB).overlap.matched,
      (p : Int) ∈ m.inA ∧ (q : Int) ∈ m.inB := by
  have hA : p ∈ DigestIndex.windowsWith linesA (shingle linesA p) :=
    DigestIndex.mem_windowsWith.2 ⟨hp, rfl⟩
  have hB : q ∈ DigestIndex.windowsWith linesB (shingle linesA p) :=
    DigestIndex.mem_windowsWith.2 ⟨hq, hpq.symm⟩
  let m : Match :=
    { digest := shingle linesA p
      inA := (DigestIndex.windowsWith linesA (shingle linesA p)).map fun (p : Nat) => (p : Int)
      inB := (DigestIndex.windowsWith linesB (shingle linesA p)).map fun (p : Nat) => (p : Int) }
  have hm : m ∈ (Comparison.ofLines linesA linesB).overlap.matched :=
    mem_matched_ofLines.2 ⟨⟨List.ne_nil_of_mem hA, rfl⟩, List.ne_nil_of_mem hB, rfl⟩
  exact ⟨m, hm, List.mem_map_of_mem hA, List.mem_map_of_mem hB⟩

/-- **The raw segments** are those of all pairs of windows with one digest. -/
theorem mem_raw_ofLines {linesA linesB : List Text} {s : Segment} :
    s ∈ (Comparison.ofLines linesA linesB).raw ↔
      ∃ p q, p < windowCount linesA.length ∧ q < windowCount linesB.length ∧
        shingle linesA p = shingle linesB q ∧ s = .ofWindows linesA p q := by
  change s ∈ rawSegments linesA (Comparison.ofLines linesA linesB).overlap.matched ↔ _
  simp only [rawSegments, Match.segments, List.mem_flatMap, List.mem_map]
  constructor
  · rintro ⟨m, hm, a, ha, b, hb, rfl⟩
    obtain ⟨⟨-, hA⟩, -, hB⟩ := mem_matched_ofLines.1 hm
    rw [hA] at ha
    rw [hB] at hb
    obtain ⟨p, hp, rfl⟩ := List.mem_map.1 ha
    obtain ⟨q, hq, rfl⟩ := List.mem_map.1 hb
    obtain ⟨hp, hpd⟩ := DigestIndex.mem_windowsWith.1 hp
    obtain ⟨hq, hqd⟩ := DigestIndex.mem_windowsWith.1 hq
    exact ⟨p, q, hp, hq, hpd.trans hqd.symm, rfl⟩
  · rintro ⟨p, q, hp, hq, hpq, rfl⟩
    obtain ⟨m, hm, hmA, hmB⟩ := exists_mem_matched_ofLines hp hq hpq
    exact ⟨m, hm, p, hmA, q, hmB, rfl⟩

/-- The first lines of a segment in both documents. -/
def Segment.starts (s : Segment) : Int × Int :=
  (s.inA.first, s.inB.first)

/-- The raw segments are the pairs of windows with one digest. -/
theorem mem_starts_raw {linesA linesB : List Text} {starts : Int × Int} :
    starts ∈ (Comparison.ofLines linesA linesB).raw.map Segment.starts ↔
      ∃ p q : Nat, p < windowCount linesA.length ∧ q < windowCount linesB.length ∧
        shingle linesA p = shingle linesB q ∧ starts = (↑p, ↑q) := by
  simp only [List.mem_map, mem_raw_ofLines]
  constructor
  · rintro ⟨s, ⟨p, q, hp, hq, hpq, rfl⟩, rfl⟩
    exact ⟨p, q, hp, hq, hpq, rfl⟩
  · rintro ⟨p, q, hp, hq, hpq, rfl⟩
    exact ⟨_, ⟨p, q, hp, hq, hpq, rfl⟩, rfl⟩

/-- No digest is matched twice. -/
theorem pairwise_digest_matched (linesA linesB : List Text) :
    (Comparison.ofLines linesA linesB).overlap.matched.Pairwise fun m n => m.digest ≠ n.digest := by
  have hpostings := List.pairwise_map.1 (DigestIndex.nodup_ofLines linesA)
  refine List.Pairwise.filterMap _ (fun p p' hne m hm n hn => ?_) hpostings
  obtain ⟨-, -, rfl⟩ := Option.map_eq_some_iff.1 hm
  obtain ⟨-, -, rfl⟩ := Option.map_eq_some_iff.1 hn
  exact hne

/-- A match pairs each of its windows of document A with each of document B. -/
theorem map_starts_segments (lines : List Text) (m : Match) :
    (m.segments lines).map Segment.starts = m.inA ×ˢ m.inB := by
  rw [Match.segments, List.map_flatMap]
  refine List.flatMap_congr fun p _ => ?_
  rw [List.map_map]
  rfl

/-- No window is listed twice. -/
theorem nodup_map_windowsWith (lines : List Text) (d : Digest) :
    ((DigestIndex.windowsWith lines d).map fun (p : Nat) => (p : Int)).Nodup :=
  (List.nodup_range.filter _).map fun _ _ h => Int.natCast_inj.1 h

/-- **No two windows are paired twice.** -/
theorem nodup_starts_raw (linesA linesB : List Text) :
    ((Comparison.ofLines linesA linesB).raw.map Segment.starts).Nodup := by
  change ((rawSegments linesA _).map Segment.starts).Nodup
  simp only [rawSegments, List.map_flatMap, map_starts_segments, List.nodup_flatMap]
  constructor
  · intro m hm
    obtain ⟨⟨-, hA⟩, -, hB⟩ := mem_matched_ofLines.1 hm
    rw [hA, hB]
    exact (nodup_map_windowsWith linesA _).product (nodup_map_windowsWith linesB _)
  · -- a window of document A has one digest, so it stands in one match
    refine (pairwise_digest_matched linesA linesB).imp_of_mem fun {m n} hm hn hne => ?_
    intro starts hstarts hstarts'
    obtain ⟨⟨-, hA⟩, -⟩ := mem_matched_ofLines.1 hm
    obtain ⟨⟨-, hA'⟩, -⟩ := mem_matched_ofLines.1 hn
    obtain ⟨p, hp, hps⟩ := List.mem_map.1 (hA ▸ (List.mem_product.1 hstarts).1)
    obtain ⟨q, hq, hqs⟩ := List.mem_map.1 (hA' ▸ (List.mem_product.1 hstarts').1)
    obtain rfl : p = q := Int.natCast_inj.1 (hps.trans hqs.symm)
    exact hne ((DigestIndex.mem_windowsWith.1 hp).2.symm.trans (DigestIndex.mem_windowsWith.1 hq).2)

end CodeSimilarity
