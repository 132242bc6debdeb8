import CodeSimilarity.Proofs.Numerals
import CodeSimilarity.Proofs.Substitution
import Mathlib.Data.List.Basic

set_option autoImplicit false
set_option relaxedAutoImplicit false

/-!
# Placeholders as a substitution

Canonicalizing a document threads a naming through its lines, and the naming grows as it goes.
Since a name never loses its number, the result is the same as substituting, in all lines at
once, the placeholder that each identifier has in the final naming.

## Main definitions

* `Naming.labelOf` — the placeholder of a name that has been met.
* `Naming.Extends` — a later naming has the names of an earlier one, under the same numbers.
* `Naming.after` — the naming after all lines of a document.

## Main results

* `Naming.label_injective`, `Naming.isIdentifier_label` — a placeholder determines its number,
  and is an identifier itself.
* `Naming.mem_names_canonicalizePieces` — which names have been met.
* `Naming.canonicalizeLines_eq_map` — canonicalizing a document is one substitution.
-/

namespace CodeSimilarity

namespace Naming

open Text

/-! ## Placeholders -/

/-- The label of a number that is not negative has the decimal digits of that number. -/
theorem label_natCast (k : Nat) : label k = ofAscii "VAR_" ++ ofNat 10 k := by
  simp [label, ofInt]

/-- A word that begins like no reserved word is not reserved. -/
theorem not_isReserved_of_head {c : UInt8} (hc : ∀ v ∈ reservedWords, v.head? ≠ some c) {w : Text}
    (hw : w.head? = some c) : ¬ isReserved w := by
  intro h
  exact hc w (List.contains_iff_mem.1 h) hw

/-- A placeholder is a word. -/
theorem isWord_label (k : Nat) : IsWord (label k) := by
  have hvar : ∀ c ∈ ofAscii "VAR_", isWord c := List.all_eq_true.1 (by decide)
  have hdigit : ∀ v < 10, isWord (digit v) := by decide
  rw [label_natCast]
  refine ⟨by simp [ofAscii], fun c hc => ?_⟩
  rcases List.mem_append.1 hc with h | h
  · exact hvar c h
  · obtain ⟨v, hv, rfl⟩ := mem_ofNat (by decide) h
    exact hdigit v hv

/-- A placeholder is itself an identifier. -/
theorem isIdentifier_label (k : Nat) : isIdentifier (label k) := by
  have hhead : (label k).head? = some 0x56 := by rw [label_natCast]; rfl
  have hres : isReserved (label k) = false := by
    simpa using not_isReserved_of_head (by decide) hhead
  simp only [isIdentifier, hhead, Option.any_some, hres]
  decide

/-- A placeholder determines its number. -/
theorem label_injective : Function.Injective fun k : Nat => label k := by
  intro j k h
  simp only [label_natCast] at h
  exact ofNat_injective (by decide) (by decide) (List.append_cancel_left h)

/-! ## Namings grow -/

/-- The placeholder of a name that `n` has met. -/
def labelOf (n : Naming) (name : Text) : Text :=
  label (n.first + (n.names.idxOf name : Nat))

/-- `m` has met all names of `n`, and under the same numbers. -/
structure Extends (n m : Naming) : Prop where
  /-- The numbering starts alike. -/
  first_eq : m.first = n.first
  /-- The names met first are those of `n`. -/
  names_isPrefix : n.names <+: m.names

/-- A naming extends itself. -/
theorem Extends.refl (n : Naming) : n.Extends n := ⟨rfl, List.prefix_rfl⟩

/-- A naming that extends an extension extends the first. -/
theorem Extends.trans {n m k : Naming} (h : n.Extends m) (h' : m.Extends k) : n.Extends k :=
  ⟨h'.first_eq.trans h.first_eq, h.names_isPrefix.trans h'.names_isPrefix⟩

/-- A name keeps its placeholder for good. -/
theorem Extends.labelOf_eq {n m : Naming} (h : n.Extends m) {name : Text} (hn : name ∈ n.names) :
    m.labelOf name = n.labelOf name := by
  obtain ⟨later, hlater⟩ := h.names_isPrefix
  rw [labelOf, labelOf, h.first_eq, ← hlater, List.idxOf_append_of_mem hn]

/-- The number of a name is its place. -/
theorem number?_of_mem {n : Naming} {name : Text} (h : name ∈ n.names) :
    n.number? name = some (n.first + (n.names.idxOf name : Nat)) := by
  obtain ⟨k, hk⟩ := Option.isSome_iff_exists.1 (List.isSome_idxOf?.2 h)
  simp [number?, hk, List.idxOf_eq_getD_idxOf?]

/-- Asking for a placeholder gives the one that the name has from then on. -/
theorem placeholder_fst (n : Naming) (name : Text) :
    (n.placeholder name).1 = (n.placeholder name).2.labelOf name := by
  by_cases h : name ∈ n.names
  · rw [placeholder_of_some (number?_of_mem h), labelOf]
  · rw [placeholder_of_none (number?_eq_none_iff.2 h)]
    simp [labelOf, next, List.idxOf_append_of_notMem h]

/-- The names after asking for a placeholder. -/
theorem names_placeholder (n : Naming) (name : Text) :
    (n.placeholder name).2.names = if name ∈ n.names then n.names else n.names ++ [name] := by
  by_cases h : name ∈ n.names
  · rw [placeholder_of_some (number?_of_mem h), if_pos h]
  · rw [placeholder_of_none (number?_eq_none_iff.2 h), if_neg h]

/-- Asking for a placeholder adds that name and no other. -/
theorem mem_names_placeholder {n : Naming} {name x : Text} :
    x ∈ (n.placeholder name).2.names ↔ x ∈ n.names ∨ x = name := by
  rw [names_placeholder]
  by_cases h : name ∈ n.names
  · rw [if_pos h]
    exact ⟨.inl, fun h' => h'.elim id fun he => he ▸ h⟩
  · simp [h]

/-- Asking for a placeholder extends a naming. -/
theorem extends_placeholder (n : Naming) (name : Text) : n.Extends (n.placeholder name).2 := by
  by_cases h : name ∈ n.names
  · rw [placeholder_of_some (number?_of_mem h)]
    exact .refl n
  · rw [placeholder_of_none (number?_eq_none_iff.2 h)]
    exact ⟨rfl, List.prefix_append _ _⟩

/-- At an identifier, its placeholder is put first. -/
theorem canonicalizePieces_cons_of_isIdentifier {p : Text} (hp : isIdentifier p) (n : Naming)
    (ps : List Text) :
    n.canonicalizePieces (p :: ps) =
      ((n.placeholder p).1 :: ((n.placeholder p).2.canonicalizePieces ps).1,
        ((n.placeholder p).2.canonicalizePieces ps).2) := by
  rw [canonicalizePieces, if_pos hp]

/-- Any other piece is kept. -/
theorem canonicalizePieces_cons_of_not_isIdentifier {p : Text} (hp : ¬ isIdentifier p)
    (n : Naming) (ps : List Text) :
    n.canonicalizePieces (p :: ps) =
      (p :: (n.canonicalizePieces ps).1, (n.canonicalizePieces ps).2) := by
  rw [canonicalizePieces, if_neg hp]

/-- Putting placeholders into pieces extends a naming. -/
theorem extends_canonicalizePieces (n : Naming) (ps : List Text) :
    n.Extends (n.canonicalizePieces ps).2 := by
  induction ps generalizing n with
  | nil => exact .refl n
  | cons p ps ih =>
    by_cases hp : isIdentifier p
    · rw [canonicalizePieces_cons_of_isIdentifier hp]
      exact (extends_placeholder n p).trans (ih _)
    · rw [canonicalizePieces_cons_of_not_isIdentifier hp]
      exact ih n

/-- The names met after some pieces are those met before and the identifiers among the pieces. -/
theorem mem_names_canonicalizePieces {n : Naming} {ps : List Text} {x : Text} :
    x ∈ (n.canonicalizePieces ps).2.names ↔ x ∈ n.names ∨ x ∈ ps ∧ isIdentifier x := by
  induction ps generalizing n with
  | nil => simp [canonicalizePieces]
  | cons p ps ih =>
    by_cases hp : isIdentifier p
    · rw [canonicalizePieces_cons_of_isIdentifier hp, ih, mem_names_placeholder, List.mem_cons]
      constructor
      · rintro ((h | rfl) | h)
        · exact .inl h
        · exact .inr ⟨.inl rfl, hp⟩
        · exact .inr ⟨.inr h.1, h.2⟩
      · rintro (h | ⟨rfl | h, hx⟩)
        · exact .inl (.inl h)
        · exact .inl (.inr rfl)
        · exact .inr ⟨h, hx⟩
    · rw [canonicalizePieces_cons_of_not_isIdentifier hp, ih, List.mem_cons]
      constructor
      · exact Or.imp_right fun h => ⟨.inr h.1, h.2⟩
      · rintro (h | ⟨rfl | h, hx⟩)
        · exact .inl h
        · exact absurd hx hp
        · exact .inr ⟨h, hx⟩

/-- **The placeholders do not depend on when they were asked for**: canonicalizing pieces is
replacing each identifier by its placeholder in any later naming. -/
theorem canonicalizePieces_fst {n m : Naming} {ps : List Text}
    (h : (n.canonicalizePieces ps).2.Extends m) :
    (n.canonicalizePieces ps).1 = ps.map (substPiece m.labelOf) := by
  induction ps generalizing n with
  | nil => rfl
  | cons p ps ih =>
    by_cases hp : isIdentifier p
    · rw [canonicalizePieces_cons_of_isIdentifier hp] at h ⊢
      have hmem : p ∈ (n.placeholder p).2.names := mem_names_placeholder.2 (.inr rfl)
      have hext := (extends_canonicalizePieces (n.placeholder p).2 ps).trans h
      rw [List.map_cons, ih h, substPiece_of_isIdentifier hp, hext.labelOf_eq hmem,
        placeholder_fst]
    · rw [canonicalizePieces_cons_of_not_isIdentifier hp] at h ⊢
      rw [List.map_cons, ih h, substPiece_of_not_isIdentifier hp]

/-! ## Whole documents -/

/-- The naming after all lines of a document. -/
def after (n : Naming) : List Text → Naming
  | [] => n
  | line :: lines => (n.canonicalize line).2.after lines

/-- A canonical line is put together from the canonical pieces. -/
theorem canonicalize_fst (n : Naming) (line : Text) :
    (n.canonicalize line).1 = (n.canonicalizePieces line.pieces).1.flatten := rfl

/-- The naming after a line is the one after its pieces. -/
theorem canonicalize_snd (n : Naming) (line : Text) :
    (n.canonicalize line).2 = (n.canonicalizePieces line.pieces).2 := rfl

/-- The lines of a document extend a naming. -/
theorem extends_after (n : Naming) (lines : List Text) : n.Extends (n.after lines) := by
  induction lines generalizing n with
  | nil => exact .refl n
  | cons line lines ih => exact (extends_canonicalizePieces n line.pieces).trans (ih _)

/-- **Canonicalizing a document is one substitution**: every identifier is replaced by the
placeholder that it has in the final naming. -/
theorem canonicalizeLines_eq_map (n : Naming) (lines : List Text) :
    n.canonicalizeLines lines = lines.map (substitute (n.after lines).labelOf) := by
  induction lines generalizing n with
  | nil => rfl
  | cons line lines ih =>
    rw [canonicalizeLines, ih, List.map_cons, canonicalize_fst,
      canonicalizePieces_fst (extends_after (n.canonicalize line).2 lines)]
    rfl

end Naming

end CodeSimilarity
