import CodeSimilarity.Proofs.AlphaEquivalence

set_option autoImplicit false
set_option relaxedAutoImplicit false

/-!
# The names of a document in the order of their first occurrence

## Main definitions

* `firstNames` — the identifiers of a document, each where it occurs first.

## Main results

* `Naming.names_after_eq` — a naming lists the names of a document in this order.
* `firstNames_map_substitute` — an injective renaming keeps the order.
* `Naming.firstNames_canonicalizeLines` — in a canonicalized document the names are numbered from
  one on, without gaps.
-/

namespace CodeSimilarity

open Text

/-! ## First occurrences in a list -/

section FirstOccurrences

variable {α β : Type} [BEq α] [BEq β]

/-- **Induction along the first occurrences in a list**: the list is empty, or it begins with an
element that is left out of the rest. -/
theorem eraseDups_induction {motive : List α → Prop} (nil : motive [])
    (cons : ∀ a l, motive (l.filter fun b => !b == a) → motive (a :: l)) (l : List α) :
    motive l := by
  induction hn : l.length using Nat.strong_induction_on generalizing l with
  | _ n ih =>
    cases l with
    | nil => exact nil
    | cons a l =>
      have hle := List.length_filter_le (fun b => !b == a) l
      rw [List.length_cons] at hn
      exact cons a l (ih _ (by omega) _ rfl)

variable [LawfulBEq α] [LawfulBEq β]

/-- Every member of a list is left once. -/
theorem nodup_eraseDups (l : List α) : l.eraseDups.Nodup := by
  induction l using eraseDups_induction with
  | nil => simp
  | cons a l ih =>
    rw [List.eraseDups_cons, List.nodup_cons]
    refine ⟨fun h => ?_, ih⟩
    simpa using (List.mem_filter.1 (List.mem_eraseDups.1 h)).2

/-- An injective map keeps first occurrences. -/
theorem eraseDups_map {f : α → β} {l : List α} (hf : Set.InjOn f {a | a ∈ l}) :
    (l.map f).eraseDups = l.eraseDups.map f := by
  induction l using eraseDups_induction with
  | nil => rfl
  | cons a l ih =>
    have hfilter : (l.map f).filter (fun b => !b == f a) =
        (l.filter fun b => !b == a).map f := by
      rw [List.filter_map]
      refine congrArg (List.map f) (List.filter_congr fun b hb => ?_)
      have hiff : f b = f a ↔ b = a :=
        ⟨fun h => hf (List.mem_cons_of_mem _ hb) List.mem_cons_self h, congrArg f⟩
      rw [Function.comp_apply, Bool.eq_iff_iff]
      simp [hiff]
    have hsub : Set.InjOn f {b | b ∈ l.filter fun b => !b == a} :=
      hf.mono fun b hb => List.mem_cons_of_mem _ (List.mem_of_mem_filter hb)
    rw [List.map_cons, List.eraseDups_cons, hfilter, ih hsub, List.eraseDups_cons, List.map_cons]

end FirstOccurrences

/-! ## First names -/

/-- The identifiers of a document, each once, in the order of their first occurrence. -/
def firstNames (lines : List Text) : List Text :=
  ((lines.flatMap pieces).filter isIdentifier).eraseDups

/-- The first names of a document are its identifiers. -/
theorem mem_firstNames {lines : List Text} {w : Text} :
    w ∈ firstNames lines ↔ w ∈ identifiers lines := by
  simp only [firstNames, List.mem_eraseDups, List.mem_filter, List.mem_flatMap, mem_identifiers]
  exact and_comm

/-- An injective renaming of its identifiers keeps the order of the first names of a document. -/
theorem firstNames_map_substitute {f : Text → Text} {lines : List Text}
    (hf : Set.InjOn f (identifiers lines)) (hname : ∀ w ∈ identifiers lines, IsName (f w)) :
    firstNames (lines.map (substitute f)) = (firstNames lines).map f := by
  have hmem : ∀ p ∈ lines.flatMap pieces, isIdentifier p → p ∈ identifiers lines := by
    intro p hp hi
    exact ⟨hi, List.mem_flatMap.1 hp⟩
  have hpieces : (lines.map (substitute f)).flatMap pieces =
      (lines.flatMap pieces).map (substPiece f) := by
    rw [List.flatMap_map, List.map_flatMap]
    refine List.flatMap_congr fun line hline => pieces_substitute fun p hp hi => ?_
    exact (hname p ⟨hi, line, hline, hp⟩).1
  have hfilter : ((lines.flatMap pieces).map (substPiece f)).filter isIdentifier =
      ((lines.flatMap pieces).filter isIdentifier).map f := by
    rw [List.filter_map]
    have hkeep : (lines.flatMap pieces).filter (isIdentifier ∘ substPiece f) =
        (lines.flatMap pieces).filter isIdentifier := by
      refine List.filter_congr fun p hp => ?_
      rw [Function.comp_apply]
      by_cases hi : isIdentifier p
      · rw [substPiece_of_isIdentifier hi, hi, (hname p (hmem p hp hi)).2]
      · rw [substPiece_of_not_isIdentifier hi]
    rw [hkeep]
    exact List.map_congr_left fun p hp => substPiece_of_isIdentifier (List.mem_filter.1 hp).2
  have hinj : Set.InjOn f {w | w ∈ (lines.flatMap pieces).filter isIdentifier} := by
    refine hf.mono fun w hw => ?_
    obtain ⟨hp, hi⟩ := List.mem_filter.1 hw
    exact hmem w hp hi
  rw [firstNames, hpieces, hfilter, eraseDups_map hinj, firstNames]

namespace Naming

/-- The names after some pieces are those met before and then the new ones, in the order of their
first occurrence. -/
theorem names_canonicalizePieces (n : Naming) (ps : List Text) :
    (n.canonicalizePieces ps).2.names = n.names ++
      ((ps.filter isIdentifier).filter fun p => !n.names.contains p).eraseDups := by
  induction ps generalizing n with
  | nil => simp [canonicalizePieces]
  | cons p ps ih =>
    by_cases hp : isIdentifier p
    · rw [canonicalizePieces_cons_of_isIdentifier hp, List.filter_cons_of_pos hp]
      simp only [ih, names_placeholder]
      by_cases hmem : p ∈ n.names
      · rw [if_pos hmem, List.filter_cons_of_neg (by simpa using hmem)]
      · have hnew : (ps.filter isIdentifier).filter (fun q => !(n.names ++ [p]).contains q) =
            ((ps.filter isIdentifier).filter fun q => !n.names.contains q).filter
              fun q => !q == p := by
          rw [List.filter_filter (p := fun q => !q == p)]
          refine List.filter_congr fun q _ => ?_
          rw [Bool.eq_iff_iff]
          simp [and_comm]
        rw [if_neg hmem, hnew, List.filter_cons_of_pos (by simpa using hmem),
          List.eraseDups_cons, List.append_assoc, List.singleton_append]
    · rw [canonicalizePieces_cons_of_not_isIdentifier hp, List.filter_cons_of_neg hp]
      exact ih n

/-- Pieces that come in two parts are met one part after the other. -/
theorem canonicalizePieces_append_snd (n : Naming) (ps qs : List Text) :
    (n.canonicalizePieces (ps ++ qs)).2 =
      ((n.canonicalizePieces ps).2.canonicalizePieces qs).2 := by
  induction ps generalizing n with
  | nil => rfl
  | cons p ps ih =>
    by_cases hp : isIdentifier p
    · rw [List.cons_append, canonicalizePieces_cons_of_isIdentifier hp,
        canonicalizePieces_cons_of_isIdentifier hp, ih]
    · rw [List.cons_append, canonicalizePieces_cons_of_not_isIdentifier hp,
        canonicalizePieces_cons_of_not_isIdentifier hp, ih]

/-- The naming after a document is that after all its pieces. -/
theorem after_eq (n : Naming) (lines : List Text) :
    n.after lines = (n.canonicalizePieces (lines.flatMap pieces)).2 := by
  induction lines generalizing n with
  | nil => rfl
  | cons line lines ih =>
    rw [List.flatMap_cons, canonicalizePieces_append_snd, after, canonicalize_snd, ih]

/-- **A naming lists the names of a document in the order of their first occurrence.** -/
theorem names_after_eq (lines : List Text) : (after {} lines).names = firstNames lines := by
  rw [after_eq, names_canonicalizePieces, firstNames]
  simp

/-- No name has been met twice. -/
theorem nodup_names_after (lines : List Text) : (after {} lines).names.Nodup := by
  rw [names_after_eq]
  exact nodup_eraseDups _

/-- The placeholders of different names are different. -/
theorem injOn_labelOf {n : Naming} (hn : 0 ≤ n.first) : Set.InjOn n.labelOf {w | w ∈ n.names} := by
  intro v hv w hw h
  rw [labelOf_eq hn, labelOf_eq hn] at h
  exact (List.idxOf_inj hv).1 (Nat.add_left_cancel (label_injective h))

/-- The placeholder of the name at a place. -/
theorem labelOf_getElem {n : Naming} (hnodup : n.names.Nodup) (hfirst : n.first = 1) {k : Nat}
    (hk : k < n.names.length) : n.labelOf n.names[k] = label (k + 1 : Nat) := by
  rw [labelOf, hnodup.idxOf_getElem, hfirst, Int.natCast_add, Int.add_comm]
  rfl

/-- **In a canonicalized document the names are numbered from one on, without gaps**, in the order
of their first occurrence. -/
theorem firstNames_canonicalizeLines (lines : List Text) :
    firstNames (canonicalizeLines {} lines) =
      (List.range (firstNames lines).length).map fun k => label (k + 1 : Nat) := by
  have hfirst : (after {} lines).first = 1 := (extends_after {} lines).first_eq
  have hnonneg : 0 ≤ (after {} lines).first := by rw [hfirst]; decide
  have hinj : Set.InjOn (after {} lines).labelOf (identifiers lines) :=
    (injOn_labelOf hnonneg).mono fun w hw => mem_names_after.2 (.inr hw)
  rw [canonicalizeLines_eq_map, firstNames_map_substitute hinj fun w _ => isName_labelOf hnonneg w,
    ← names_after_eq]
  refine List.ext_getElem (by simp) fun k hk _ => ?_
  rw [List.length_map] at hk
  rw [List.getElem_map, List.getElem_map, List.getElem_range,
    labelOf_getElem (nodup_names_after lines) hfirst hk]

end Naming

end CodeSimilarity
