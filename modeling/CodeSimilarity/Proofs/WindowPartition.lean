import CodeSimilarity.Proofs.Counts

set_option autoImplicit false
set_option relaxedAutoImplicit false

/-!
# The index partitions the windows

The windows of a document are entered from the first to the last. So the starts of a posting
ascend, the postings are in the order of their first starts, and every window stands under the
digest of its own lines and nowhere else.

## Main definitions

* `DigestIndex.Ordered` — starts that ascend within each posting and from posting to posting.
* `DigestIndex.windowAt?`, `DigestIndex.ofLines?` — an index that is built with a check of every
  line number.
* `DigestIndex.Partitions` — what an index says about the windows of a document.

## Main results

* `DigestIndex.Ordered.insert`, `DigestIndex.ordered_addAll` — entering a later start keeps the
  order.
* `DigestIndex.ofLines?_eq_some` — no line beyond the end is read.
* `DigestIndex.index_partitions_windows` — what an index holds after any entries, and that the
  index of a document partitions its windows.
-/

namespace CodeSimilarity.DigestIndex

/-! ## Ascending starts -/

/-- Each posting has a start, its starts ascend, and so do the first starts from posting to
posting. -/
structure Ordered (ps : List Posting) : Prop where
  starts_ne_nil : ∀ p ∈ ps, p.starts ≠ []
  pairwise_starts : ∀ p ∈ ps, p.starts.Pairwise (· < ·)
  pairwise_first : ps.Pairwise fun p q => ∀ a ∈ p.starts.head?, ∀ b ∈ q.starts.head?, a < b

/-- No entries are in order. -/
theorem ordered_nil : Ordered [] := ⟨by simp, by simp, .nil⟩

/-- The first start of a posting was first before a window was entered, or is the start of that
window. -/
theorem head?_starts_of_mem_insert {d : Digest} {start b : Int} {ps : List Posting} {q : Posting}
    (hq : q ∈ insert d start ps) (hb : b ∈ q.starts.head?) :
    (∃ p ∈ ps, b ∈ p.starts.head?) ∨ b = start := by
  induction ps with
  | nil =>
    obtain rfl : q = ⟨d, [start]⟩ := by simpa [insert] using hq
    exact .inr (by simpa using hb.symm)
  | cons p ps ih =>
    rw [insert] at hq
    split at hq
    · rcases List.mem_cons.1 hq with rfl | hq
      · cases hp : p.starts with
        | nil => exact .inr (by simpa [hp] using hb.symm)
        | cons a as => exact .inl ⟨p, List.mem_cons_self, by simpa [hp] using hb⟩
      · exact .inl ⟨q, List.mem_cons_of_mem _ hq, hb⟩
    · rcases List.mem_cons.1 hq with rfl | hq
      · exact .inl ⟨q, List.mem_cons_self, hb⟩
      · rcases ih hq with ⟨p', hp', hb'⟩ | rfl
        · exact .inl ⟨p', List.mem_cons_of_mem _ hp', hb'⟩
        · exact .inr rfl

/-- **Entering a window that starts behind all others** keeps the order. -/
theorem Ordered.insert {ps : List Posting} (h : Ordered ps) (d : Digest) {start : Int}
    (hstart : ∀ p ∈ ps, ∀ a ∈ p.starts, a < start) : Ordered (insert d start ps) := by
  induction ps with
  | nil =>
    rw [DigestIndex.insert]
    exact ⟨by simp, by simp, by simp⟩
  | cons p ps ih =>
    obtain ⟨hne, hpair, hfirst⟩ := h
    rw [List.forall_mem_cons] at hne hpair hstart
    obtain ⟨hhead, htail⟩ := List.pairwise_cons.1 hfirst
    rw [DigestIndex.insert]
    split
    · -- the start goes to the end of the first posting, which has a first start already
      have hsame : (p.starts ++ [start]).head? = p.starts.head? := by
        rw [List.head?_append, List.head?_eq_some_head hne.1, Option.some_or]
      refine ⟨List.forall_mem_cons.2 ⟨by simp, hne.2⟩, List.forall_mem_cons.2 ⟨?_, hpair.2⟩, ?_⟩
      · simpa [List.pairwise_append, hpair.1] using hstart.1
      · refine List.pairwise_cons.2 ⟨fun q hq a ha => hhead q hq a ?_, htail⟩
        exact hsame ▸ ha
    · have hrest := ih ⟨hne.2, hpair.2, htail⟩ hstart.2
      refine ⟨List.forall_mem_cons.2 ⟨hne.1, hrest.starts_ne_nil⟩,
        List.forall_mem_cons.2 ⟨hpair.1, hrest.pairwise_starts⟩,
        List.pairwise_cons.2 ⟨fun q hq a ha b hb => ?_, hrest.pairwise_first⟩⟩
      rcases head?_starts_of_mem_insert hq hb with ⟨q', hq', hb'⟩ | rfl
      · exact hhead q' hq' a ha b hb'
      · exact hstart.1 a (List.mem_of_mem_head? ha)

/-- The starts of a digest are those it was entered with. -/
theorem mem_startsOf {d : Digest} {start : Int} {entries : List (Digest × Int)} :
    start ∈ startsOf d entries ↔ (d, start) ∈ entries := by
  simp [startsOf]

/-- A posting holds nothing but what was entered with its digest. -/
theorem mem_of_mem_starts {entries : List (Digest × Int)} {p : Posting} {start : Int}
    (hp : p ∈ (addAll {} entries).postings) (hstart : start ∈ p.starts) :
    (p.digest, start) ∈ entries := by
  rw [postings_addAll] at hp
  obtain ⟨d, -, rfl⟩ := List.mem_map.1 hp
  exact mem_startsOf.1 hstart

/-- **Entering windows with ascending starts** gives an index in order. -/
theorem ordered_addAll {entries : List (Digest × Int)}
    (h : (entries.map Prod.snd).Pairwise (· < ·)) : Ordered (addAll {} entries).postings := by
  induction entries using List.reverseRecOn with
  | nil => exact ordered_nil
  | append_singleton entries e ih =>
    rw [List.map_append, List.pairwise_append] at h
    rw [addAll_concat]
    refine (ih h.1).insert e.1 fun p hp a ha => ?_
    exact h.2.2 a (List.mem_map_of_mem (mem_of_mem_starts hp ha)) e.2 (by simp)

/-! ## Reading within the document -/

/-- The window that starts at a line; `none` if one of its lines is not there. -/
def windowAt? (lines : List Text) (start : Nat) : Option Text :=
  ((List.range windowSize).mapM fun j => lines[start + j]?).map Text.unlines

/-- The index of all windows of a document; `none` if a line is read that is not there. -/
def ofLines? (lines : List Text) : Option DigestIndex :=
  (List.range (windowCount lines.length)).foldlM
    (fun index start => (windowAt? lines start).map fun window =>
      index.add (Digest.ofText (fingerprint window)) start) {}

/-- Elements side by side that are all there. -/
theorem mapM_getElem?_eq_some {α : Type} {l : List α} {start n : Nat} (h : start + n ≤ l.length) :
    ((List.range n).mapM fun j => l[start + j]?) = some ((l.drop start).take n) := by
  induction n with
  | zero => rfl
  | succ n ih =>
    have hlt : start + n < l.length := by omega
    have hget : l[start + n]? = some l[start + n] := List.getElem?_eq_getElem hlt
    rw [List.range_succ, List.mapM_append, ih (by omega), List.take_add_one, List.getElem?_drop,
      hget]
    simp [hget]

/-- At each place where a window begins, all of its lines are there. -/
theorem windowAt?_eq_some {lines : List Text} {start : Nat} (h : start < windowCount lines.length) :
    windowAt? lines start = some (windowAt lines start) := by
  have hle : start + windowSize ≤ lines.length := by
    unfold windowCount at h
    omega
  rw [windowAt?, mapM_getElem?_eq_some hle]
  rfl

/-- **The windows are read within the document**: with a check of every line number, the index is
the same. -/
theorem ofLines?_eq_some (lines : List Text) : ofLines? lines = some (ofLines lines) := by
  have hrun : ∀ (starts : List Nat), (∀ p ∈ starts, p < windowCount lines.length) →
      ∀ index : DigestIndex, starts.foldlM
        (fun index start => (windowAt? lines start).map fun window =>
          index.add (Digest.ofText (fingerprint window)) start) index =
        some (starts.foldl (fun index start => index.add (shingle lines start) start) index) := by
    intro starts hstarts
    induction starts with
    | nil => exact fun _ => rfl
    | cons p starts ih =>
      intro index
      obtain ⟨hp, hrest⟩ := List.forall_mem_cons.1 hstarts
      rw [List.foldlM_cons, windowAt?_eq_some hp]
      exact ih hrest _
  exact hrun _ (fun p hp => List.mem_range.1 hp) {}

/-! ## The windows of a document -/

/-- What an index says about the windows of a document. -/
structure Partitions (index : DigestIndex) (lines : List Text) : Prop where
  /-- Nothing is entered exactly if the document is too short for a window. -/
  isEmpty_iff : index.isEmpty ↔ lines.length < 3
  /-- Every window stands in exactly one posting. -/
  existsUnique : ∀ p : Nat, p + 3 ≤ lines.length →
    ∃! posting, posting ∈ index.postings ∧ (p : Int) ∈ posting.starts
  /-- Nothing but windows stands in a posting, and these have its digest. -/
  digest_eq : ∀ posting ∈ index.postings, ∀ start ∈ posting.starts,
    ∃ p : Nat, start = p ∧ p + 3 ≤ lines.length ∧ posting.digest = shingle lines p
  /-- The postings have starts that ascend, and their first starts ascend from posting to
  posting. -/
  ordered : Ordered index.postings

/-- A window begins where three lines are left. -/
theorem lt_windowCount_iff {p n : Nat} : p < windowCount n ↔ p + 3 ≤ n := by
  unfold windowCount windowSize
  omega

/-- The entries of a document are its windows with their digests. -/
theorem mem_entriesOf {lines : List Text} {d : Digest} {start : Int} :
    (d, start) ∈ entriesOf lines ↔
      ∃ p : Nat, p + 3 ≤ lines.length ∧ d = shingle lines p ∧ start = p := by
  simp only [entriesOf, List.mem_map, List.mem_range, lt_windowCount_iff, Prod.mk.injEq]
  constructor
  · rintro ⟨p, hp, rfl, rfl⟩
    exact ⟨p, hp, rfl, rfl⟩
  · rintro ⟨p, hp, rfl, rfl⟩
    exact ⟨p, hp, rfl, rfl⟩

/-- The postings of a document partition its windows. -/
theorem partitions_ofLines (lines : List Text) : (ofLines lines).Partitions lines := by
  have hdigest : ∀ posting ∈ (ofLines lines).postings, ∀ start ∈ posting.starts,
      ∃ p : Nat, start = p ∧ p + 3 ≤ lines.length ∧ posting.digest = shingle lines p := by
    intro posting hposting start hstart
    rw [ofLines_eq_addAll] at hposting
    obtain ⟨p, hp, hd, rfl⟩ := mem_entriesOf.1 (mem_of_mem_starts hposting hstart)
    exact ⟨p, rfl, hp, hd⟩
  refine ⟨?_, fun p hp => ?_, hdigest, ?_⟩
  · have hsize : (ofLines lines).isEmpty ↔ (ofLines lines).size = 0 := by
      rw [isEmpty, size, List.isEmpty_iff, List.length_eq_zero_iff]
    rw [hsize, size_ofLines_eq_zero_iff]
    unfold windowCount windowSize
    omega
  · have hmem : p ∈ windowsWith lines (shingle lines p) :=
      mem_windowsWith.2 ⟨lt_windowCount_iff.2 hp, rfl⟩
    refine ⟨⟨shingle lines p, (windowsWith lines (shingle lines p)).map fun (q : Nat) => (q : Int)⟩,
      ⟨mem_postings_ofLines.2 ⟨List.ne_nil_of_mem hmem, rfl⟩, List.mem_map_of_mem hmem⟩, ?_⟩
    rintro ⟨d, starts⟩ ⟨hposting, hstart⟩
    obtain ⟨q, hq, -, rfl⟩ := hdigest _ hposting _ hstart
    obtain rfl : p = q := Int.natCast_inj.1 hq
    exact congrArg (Posting.mk (shingle lines p)) (mem_postings_ofLines.1 hposting).2
  · rw [ofLines_eq_addAll]
    refine ordered_addAll ?_
    rw [entriesOf, List.map_map, List.pairwise_map]
    exact List.pairwise_lt_range.imp fun h => Int.ofNat_lt.2 h

/-- **The index partitions the windows.** After any entries there is one posting for each digest, in
the order in which the digests were first entered, and looking a digest up gives the starts that
were entered with it, in their order. For a document no line is read that is not there, every window
stands in exactly one posting, that of its own digest, and starts and postings are in order. -/
theorem index_partitions_windows :
    (∀ entries : List (Digest × Int),
      (addAll {} entries).postings.map Posting.digest = (entries.map Prod.fst).eraseDups ∧
      ∀ d, (addAll {} entries).find? d =
        if d ∈ entries.map Prod.fst then some ((entries.filter (·.1 = d)).map Prod.snd)
        else none) ∧
    ∀ lines : List Text,
      ofLines? lines = some (ofLines lines) ∧ (ofLines lines).Partitions lines := by
  constructor
  · intro entries
    refine ⟨map_digest_addAll entries, fun d => ?_⟩
    rw [find?_addAll_empty, digestSet, startsOf]
    simp only [List.mem_toFinset]
  · intro lines
    exact ⟨ofLines?_eq_some lines, partitions_ofLines lines⟩

end CodeSimilarity.DigestIndex
