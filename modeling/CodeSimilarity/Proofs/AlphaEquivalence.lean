import CodeSimilarity.Proofs.Naming
import Mathlib.Data.List.GetD
import Mathlib.Data.Set.Function

set_option autoImplicit false
set_option relaxedAutoImplicit false

/-!
# Canonical documents and alpha-equivalence

Two documents are equal after canonicalization exactly if they differ in the choice of their
identifiers alone.

## Main definitions

* `identifiers` — the identifiers that occur in a document.
* `AlphaEquivalent` — a bijection of identifiers takes the one document to the other.
* `Naming.translate` — the name that one naming knows under the number that a name has in
  another.

## Main results

* `Naming.canonicalizeLines_map` — a renaming does not show in a canonicalized document.
* `Naming.alphaEquivalent_of_map_eq` — documents that are equal after canonicalization are
  translations of each other.
* `Naming.canonicalizeLines_eq_iff` — both directions together.

## Design

The two directions need different views of a document. That a renaming does not show is a
simulation: both runs ask for placeholders at the same places, and their namings stay renamings
of each other. That equal results come from alpha-equivalent documents is read off the final
namings, in which a placeholder determines its number and a number its name.
-/

namespace CodeSimilarity

open Text

/-- The identifiers that occur in a document. -/
def identifiers (lines : List Text) : Set Text :=
  {w | isIdentifier w ∧ ∃ line ∈ lines, w ∈ line.pieces}

/-- The identifiers of a document are the identifiers among the pieces of its lines. -/
theorem mem_identifiers {lines : List Text} {w : Text} :
    w ∈ identifiers lines ↔ isIdentifier w ∧ ∃ line ∈ lines, w ∈ line.pieces := Iff.rfl

/-- Two documents are alpha-equivalent if they have equally many lines and some bijection from
the identifiers of the one to those of the other, applied to every identifier of the first
document, gives the second, all other bytes being equal. -/
def AlphaEquivalent (L₁ L₂ : List Text) : Prop :=
  L₁.length = L₂.length ∧
    ∃ f : Text → Text, Set.BijOn f (identifiers L₁) (identifiers L₂) ∧ L₁.map (substitute f) = L₂

/-- What is an identifier of a document is a name. -/
theorem isName_of_mem_identifiers {L : List Text} {w : Text} (hw : w ∈ identifiers L) :
    IsName w := by
  obtain ⟨hi, line, -, hp⟩ := hw
  exact isName_of_mem_pieces hp hi

namespace Naming

/-- The final naming of a document knows its identifiers. -/
theorem mem_names_after {n : Naming} {L : List Text} {w : Text} :
    w ∈ (n.after L).names ↔ w ∈ n.names ∨ w ∈ identifiers L := by
  induction L generalizing n with
  | nil => simp [after, mem_identifiers]
  | cons line lines ih =>
    rw [after, ih, canonicalize_snd, mem_names_canonicalizePieces]
    simp only [mem_identifiers, List.mem_cons, exists_eq_or_imp]
    tauto

/-! ### Renaming the names that were met -/

/-- The naming with every name `w` replaced by `f w`, under the same number. -/
def map (f : Text → Text) (n : Naming) : Naming :=
  { n with names := n.names.map f }

/-- An injective renaming keeps the place of a name. -/
theorem idxOf_map {f : Text → Text} {names : List Text} {name : Text}
    (hf : ∀ x ∈ names, f x = f name → x = name) :
    (names.map f).idxOf (f name) = names.idxOf name := by
  induction names with
  | nil => rfl
  | cons x names ih =>
    have hx := hf x List.mem_cons_self
    rw [List.map_cons, List.idxOf_cons, List.idxOf_cons,
      ih fun y hy => hf y (List.mem_cons_of_mem _ hy)]
    by_cases h : x = name
    · simp [h]
    · have hne : f x ≠ f name := fun he => h (hx he)
      rw [beq_false_of_ne h, beq_false_of_ne hne]

/-- An injective renaming of the names commutes with asking for a placeholder. -/
theorem placeholder_map {f : Text → Text} {n : Naming} {name : Text}
    (hf : ∀ x ∈ n.names, f x = f name → x = name) :
    (n.map f).placeholder (f name) = ((n.placeholder name).1, (n.placeholder name).2.map f) := by
  by_cases h : name ∈ n.names
  · have hmap : f name ∈ (n.map f).names := List.mem_map_of_mem h
    rw [placeholder_of_some (number?_of_mem h), placeholder_of_some (number?_of_mem hmap)]
    simp only [map, idxOf_map hf]
  · have hmap : f name ∉ (n.map f).names := by
      intro hm
      obtain ⟨x, hx, he⟩ := List.mem_map.1 hm
      exact h (hf x hx he ▸ hx)
    rw [placeholder_of_none (number?_eq_none_iff.2 h),
      placeholder_of_none (number?_eq_none_iff.2 hmap)]
    simp [map, next]

variable {f : Text → Text} {S : Set Text}

/-- **A renaming does not show in the placeholders** of the pieces of a line: both runs give the
same output, and their namings stay the renaming of each other. -/
theorem canonicalizePieces_map (hf : S.InjOn f) {n : Naming} {ps : List Text}
    (hn : ∀ x ∈ n.names, x ∈ S) (hps : ∀ p ∈ ps, isIdentifier p → p ∈ S ∧ isIdentifier (f p)) :
    (n.map f).canonicalizePieces (ps.map (substPiece f)) =
      ((n.canonicalizePieces ps).1, (n.canonicalizePieces ps).2.map f) := by
  induction ps generalizing n with
  | nil => rfl
  | cons p ps ih =>
    have hps' : ∀ q ∈ ps, isIdentifier q → q ∈ S ∧ isIdentifier (f q) :=
      fun q hq => hps q (List.mem_cons_of_mem _ hq)
    by_cases hp : isIdentifier p
    · obtain ⟨hpS, hfp⟩ := hps p List.mem_cons_self hp
      have hplace := placeholder_map fun x hx he => hf (hn x hx) hpS he
      have hn' : ∀ x ∈ (n.placeholder p).2.names, x ∈ S := by
        intro x hx
        rcases mem_names_placeholder.1 hx with h | rfl
        · exact hn x h
        · exact hpS
      rw [List.map_cons, substPiece_of_isIdentifier hp,
        canonicalizePieces_cons_of_isIdentifier hfp, canonicalizePieces_cons_of_isIdentifier hp,
        hplace, ih hn' hps']
    · rw [List.map_cons, substPiece_of_not_isIdentifier hp,
        canonicalizePieces_cons_of_not_isIdentifier hp,
        canonicalizePieces_cons_of_not_isIdentifier hp, ih hn hps']

/-- **A renaming does not show in a canonicalized document**, if it is injective on the names met
and sends identifiers to names. -/
theorem canonicalizeLines_map (hf : S.InjOn f) (hS : ∀ w ∈ S, IsName (f w)) {n : Naming}
    {L : List Text} (hn : ∀ x ∈ n.names, x ∈ S) (hL : identifiers L ⊆ S) :
    (n.map f).canonicalizeLines (L.map (substitute f)) = n.canonicalizeLines L := by
  induction L generalizing n with
  | nil => rfl
  | cons line lines ih =>
    have hline : ∀ p ∈ line.pieces, isIdentifier p → p ∈ S :=
      fun p hp hi => hL ⟨hi, line, List.mem_cons_self, hp⟩
    have hpieces := pieces_substitute fun p hp hi => (hS p (hline p hp hi)).1
    have hstep : (n.map f).canonicalize (substitute f line) =
        ((n.canonicalize line).1, (n.canonicalize line).2.map f) := by
      simp only [canonicalize, hpieces]
      rw [canonicalizePieces_map hf hn fun p hp hi => ⟨hline p hp hi, (hS p (hline p hp hi)).2⟩]
    have hn' : ∀ x ∈ (n.canonicalize line).2.names, x ∈ S := by
      intro x hx
      rw [canonicalize_snd, mem_names_canonicalizePieces] at hx
      exact hx.elim (hn x) fun h => hline x h.1 h.2
    have hlines : identifiers lines ⊆ S := by
      rintro w ⟨hi, l, hl, hp⟩
      exact hL ⟨hi, l, List.mem_cons_of_mem _ hl, hp⟩
    rw [List.map_cons, canonicalizeLines, canonicalizeLines, hstep, ih hn' hlines]

/-! ### Reading the names off the placeholders -/

/-- The placeholders from a numbering that starts at no negative number. -/
theorem labelOf_eq {n : Naming} (hn : 0 ≤ n.first) (name : Text) :
    n.labelOf name = label ((n.first.toNat + n.names.idxOf name : Nat) : Int) := by
  rw [labelOf, Int.natCast_add, Int.toNat_of_nonneg hn]

/-- Placeholders are names, as long as the numbering does not start below zero. -/
theorem isName_labelOf {n : Naming} (hn : 0 ≤ n.first) (name : Text) : IsName (n.labelOf name) := by
  rw [labelOf_eq hn]
  exact ⟨isWord_label _, isIdentifier_label _⟩

/-- The name that `m` knows under the number that `name` has in `n`. -/
def translate (n m : Naming) (name : Text) : Text :=
  m.names.getD (n.names.idxOf name) []

/-- Names with one placeholder are translations of each other. -/
theorem translate_eq {n m : Naming} (hn : 0 ≤ n.first) (hm : m.first = n.first) {p q : Text}
    (hq : q ∈ m.names) (h : n.labelOf p = m.labelOf q) : n.translate m p = q := by
  rw [labelOf_eq hn, labelOf_eq (hm ▸ hn), hm] at h
  have hidx : n.names.idxOf p = m.names.idxOf q := Nat.add_left_cancel (label_injective h)
  have hlt := List.idxOf_lt_length_of_mem hq
  rw [translate, hidx, List.getD_eq_getElem _ _ hlt, List.getElem_idxOf hlt]

/-- Pieces that look alike after canonicalization: both are identifiers and have one placeholder,
or neither is one and they are equal. An identifier is never mistaken for a piece that was kept,
even one that is spelled like a placeholder, since that would be an identifier itself. -/
theorem piece_cases {n m : Naming} (hn : 0 ≤ n.first) (hm : 0 ≤ m.first) {p q : Text}
    (h : substPiece n.labelOf p = substPiece m.labelOf q) :
    (isIdentifier p ∧ isIdentifier q ∧ n.labelOf p = m.labelOf q) ∨
      (¬ isIdentifier p ∧ ¬ isIdentifier q ∧ p = q) := by
  by_cases hp : isIdentifier p <;> by_cases hq : isIdentifier q
  · rw [substPiece_of_isIdentifier hp, substPiece_of_isIdentifier hq] at h
    exact .inl ⟨hp, hq, h⟩
  · rw [substPiece_of_isIdentifier hp, substPiece_of_not_isIdentifier hq] at h
    exact absurd (h ▸ (isName_labelOf hn p).2) hq
  · rw [substPiece_of_not_isIdentifier hp, substPiece_of_isIdentifier hq] at h
    exact absurd (h ▸ (isName_labelOf hm q).2) hp
  · rw [substPiece_of_not_isIdentifier hp, substPiece_of_not_isIdentifier hq] at h
    exact .inr ⟨hp, hq, h⟩

/-- Lines that are equal after canonicalization have pieces that are equal after
canonicalization, one by one. -/
theorem map_pieces_eq {n m : Naming} (hn : 0 ≤ n.first) (hm : 0 ≤ m.first) {k l : Text}
    (h : substitute n.labelOf k = substitute m.labelOf l) :
    k.pieces.map (substPiece n.labelOf) = l.pieces.map (substPiece m.labelOf) := by
  rw [← pieces_substitute fun p _ _ => (isName_labelOf hn p).1,
    ← pieces_substitute fun p _ _ => (isName_labelOf hm p).1, h]

/-- The identifiers of documents that are equal after canonicalization come in pairs with one
placeholder. -/
theorem exists_partner {n m : Naming} (hn : 0 ≤ n.first) (hm : 0 ≤ m.first) {L₁ L₂ : List Text}
    (h : L₁.map (substitute n.labelOf) = L₂.map (substitute m.labelOf)) {p : Text}
    (hp : p ∈ identifiers L₁) : ∃ q ∈ identifiers L₂, n.labelOf p = m.labelOf q := by
  obtain ⟨hi, k, hk, hpk⟩ := hp
  have hline : substitute n.labelOf k ∈ L₂.map (substitute m.labelOf) :=
    h ▸ List.mem_map_of_mem hk
  obtain ⟨l, hl, he⟩ := List.mem_map.1 hline
  have hpiece : substPiece n.labelOf p ∈ l.pieces.map (substPiece m.labelOf) :=
    map_pieces_eq hn hm he.symm ▸ List.mem_map_of_mem hpk
  obtain ⟨q, hq, hqp⟩ := List.mem_map.1 hpiece
  rcases piece_cases hn hm hqp.symm with ⟨-, hiq, hlabel⟩ | ⟨hnot, -⟩
  · exact ⟨q, ⟨hiq, l, hl, hq⟩, hlabel⟩
  · exact absurd hi hnot

/-- A map that agrees with a pairing of equal images turns the one list into the other. -/
private theorem map_eq_of_map_eq {α β γ : Type} {t : α → β} {g : α → γ} {g' : β → γ}
    {ps : List α} {qs : List β} (h : ps.map g = qs.map g')
    (ht : ∀ p ∈ ps, ∀ q ∈ qs, g p = g' q → t p = q) : ps.map t = qs := by
  induction ps generalizing qs with
  | nil => exact (List.map_eq_nil_iff.1 h.symm).symm
  | cons p ps ih =>
    cases qs with
    | nil => simp at h
    | cons q qs =>
      obtain ⟨hhead, htail⟩ := List.cons.inj h
      have ht' : ∀ p' ∈ ps, ∀ q' ∈ qs, g p' = g' q' → t p' = q' := by
        intro p' hp' q' hq'
        exact ht p' (List.mem_cons_of_mem _ hp') q' (List.mem_cons_of_mem _ hq')
      rw [List.map_cons, ht p List.mem_cons_self q List.mem_cons_self hhead, ih htail ht']

/-- Translating the identifiers of a line gives the line that is equal to it after
canonicalization. -/
theorem substitute_translate {n m : Naming} (hn : 0 ≤ n.first) (hm : m.first = n.first)
    {k l : Text} (hl : ∀ q ∈ l.pieces, isIdentifier q → q ∈ m.names)
    (h : substitute n.labelOf k = substitute m.labelOf l) :
    substitute (n.translate m) k = l := by
  have hpieces : k.pieces.map (substPiece (n.translate m)) = l.pieces := by
    refine map_eq_of_map_eq (map_pieces_eq hn (hm ▸ hn) h) fun p _ q hq hpq => ?_
    rcases piece_cases hn (hm ▸ hn) hpq with ⟨hp, hiq, hlabel⟩ | ⟨hp, -, rfl⟩
    · rw [substPiece_of_isIdentifier hp, translate_eq hn hm (hl q hq hiq) hlabel]
    · exact substPiece_of_not_isIdentifier hp
  rw [substitute, hpieces, flatten_pieces]

/-- Documents that are equal after canonicalization are translations of each other: the
translation of identifiers is a bijection and takes the one document to the other. -/
theorem alphaEquivalent_of_map_eq {n m : Naming} (hn : 0 ≤ n.first) (hm : m.first = n.first)
    {L₁ L₂ : List Text} (h₁ : ∀ w ∈ identifiers L₁, w ∈ n.names)
    (h₂ : ∀ w ∈ identifiers L₂, w ∈ m.names)
    (h : L₁.map (substitute n.labelOf) = L₂.map (substitute m.labelOf)) :
    AlphaEquivalent L₁ L₂ := by
  have hm0 : 0 ≤ m.first := hm ▸ hn
  -- a partner is a translation, in both directions
  have hto : ∀ p ∈ identifiers L₁, n.translate m p ∈ identifiers L₂ ∧
      m.translate n (n.translate m p) = p := by
    intro p hp
    obtain ⟨q, hq, hlabel⟩ := exists_partner hn hm0 h hp
    rw [translate_eq hn hm (h₂ q hq) hlabel]
    exact ⟨hq, translate_eq hm0 hm.symm (h₁ p hp) hlabel.symm⟩
  have hfrom : ∀ q ∈ identifiers L₂, m.translate n q ∈ identifiers L₁ ∧
      n.translate m (m.translate n q) = q := by
    intro q hq
    obtain ⟨p, hp, hlabel⟩ := exists_partner hm0 hn h.symm hq
    rw [translate_eq hm0 hm.symm (h₁ p hp) hlabel]
    exact ⟨hp, translate_eq hn hm (h₂ q hq) hlabel.symm⟩
  refine ⟨by simpa using congrArg List.length h, n.translate m, ?_, ?_⟩
  · exact Set.InvOn.bijOn ⟨fun p hp => (hto p hp).2, fun q hq => (hfrom q hq).2⟩
      (fun p hp => (hto p hp).1) fun q hq => (hfrom q hq).1
  · refine map_eq_of_map_eq h fun k _ l hl he => ?_
    exact substitute_translate hn hm (fun q hq hi => h₂ q ⟨hi, l, hl, hq⟩) he

/-- **Canonicalization identifies exactly the alpha-equivalent documents.** -/
theorem canonicalizeLines_eq_iff (L₁ L₂ : List Text) :
    canonicalizeLines {} L₁ = canonicalizeLines {} L₂ ↔ AlphaEquivalent L₁ L₂ := by
  constructor
  · intro h
    rw [canonicalizeLines_eq_map, canonicalizeLines_eq_map] at h
    have hfirst : ∀ L, (after {} L).first = 1 := fun L => (extends_after {} L).first_eq
    refine alphaEquivalent_of_map_eq (by simp [hfirst]) (by rw [hfirst, hfirst]) ?_ ?_ h
    · intro w hw
      exact mem_names_after.2 (.inr hw)
    · intro w hw
      exact mem_names_after.2 (.inr hw)
  · rintro ⟨-, f, ⟨hmaps, hinj, -⟩, rfl⟩
    have hnames : ∀ w ∈ identifiers L₁, IsName (f w) :=
      fun w hw => isName_of_mem_identifiers (hmaps hw)
    exact (canonicalizeLines_map (n := {}) hinj hnames (by simp) subset_rfl).symm

end Naming

end CodeSimilarity
