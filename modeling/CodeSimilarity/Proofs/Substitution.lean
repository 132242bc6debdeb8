import CodeSimilarity.Proofs.Pieces
import CodeSimilarity.Source.Identifier

set_option autoImplicit false
set_option relaxedAutoImplicit false

/-!
# Substituting identifiers

A substitution replaces every identifier of a text and keeps all other bytes. As long as it puts
words in place of identifiers, the pieces of the new text are those of the old one, each replaced
by itself.

## Main definitions

* `Text.IsName` — a word that is an identifier.
* `Text.substitute` — a text with every identifier `w` replaced by `f w`.
* `Text.WordValued` — `f` puts words in place of the identifiers of a text.

## Main results

* `Text.substitute_append` — substituting on both sides of a seam.
* `Text.pieces_substitute` — the pieces after a substitution.
* `Text.substitute_congr`, `Text.substitute_eq_self` — what a substitution depends on.
-/

namespace CodeSimilarity.Text

/-- A name: a word that neither starts with a digit nor is reserved. -/
def IsName (w : Text) : Prop :=
  IsWord w ∧ isIdentifier w

/-- What stands for a piece once every identifier `w` is replaced by `f w`: only identifiers are
replaced. -/
def substPiece (f : Text → Text) (p : Text) : Text :=
  if isIdentifier p then f p else p

/-- The text with every identifier `w`, that is, every maximal word that neither starts with a
digit nor is reserved, replaced by `f w`. All other bytes are kept. -/
def substitute (f : Text → Text) (s : Text) : Text :=
  (s.pieces.map (substPiece f)).flatten

/-- `f` puts words in place of all identifiers of `s`. -/
def WordValued (f : Text → Text) (s : Text) : Prop :=
  ∀ p ∈ s.pieces, isIdentifier p → IsWord (f p)

variable {f : Text → Text}

/-- Identifiers are replaced. -/
theorem substPiece_of_isIdentifier {p : Text} (hp : isIdentifier p) : substPiece f p = f p :=
  if_pos hp

/-- Other pieces stay as they are. -/
theorem substPiece_of_not_isIdentifier {p : Text} (hp : ¬ isIdentifier p) : substPiece f p = p :=
  if_neg hp

/-- An identifier begins with a byte that can begin a word. -/
theorem exists_cons_of_isIdentifier {p : Text} (hp : isIdentifier p) :
    ∃ c w, p = c :: w ∧ isWordStart c := by
  cases p with
  | nil => simp [isIdentifier] at hp
  | cons c w =>
    simp only [isIdentifier, List.head?_cons, Option.any_some, Bool.and_eq_true] at hp
    exact ⟨c, w, rfl, hp.1⟩

/-- A byte outside words is no identifier. -/
theorem not_isIdentifier_singleton {c : UInt8} (hc : ¬ isWord c) : ¬ isIdentifier [c] := by
  intro h
  obtain ⟨d, w, he, hd⟩ := exists_cons_of_isIdentifier h
  obtain ⟨rfl, -⟩ := List.cons.inj he
  exact hc (by simp [isWord, hd])

/-- The identifiers among the pieces of a text are names. -/
theorem isName_of_mem_pieces {s p : Text} (hp : p ∈ s.pieces) (hi : isIdentifier p) :
    IsName p := by
  induction s using piece_induction with
  | nil => simp at hp
  | other c s hc ih =>
    rw [pieces_cons_of_not_word hc, List.mem_cons] at hp
    rcases hp with rfl | hp
    · exact absurd hi (not_isIdentifier_singleton hc)
    · exact ih hp
  | word w s hw hs ih =>
    rw [pieces_word_append hw hs, List.mem_cons] at hp
    rcases hp with rfl | hp
    · exact ⟨hw, hi⟩
    · exact ih hp

/-- A byte outside words is kept. -/
theorem substitute_cons {c : UInt8} (hc : ¬ isWord c) (s : Text) :
    substitute f (c :: s) = c :: substitute f s := by
  simp [substitute, pieces_cons_of_not_word hc,
    substPiece_of_not_isIdentifier (not_isIdentifier_singleton hc)]

/-- Substituting on both sides of a seam is substituting in the whole. -/
theorem substitute_append {s t : Text} (h : Seam s t) :
    substitute f (s ++ t) = substitute f s ++ substitute f t := by
  simp [substitute, pieces_append h]

/-- A word is replaced as a whole. -/
theorem substitute_of_isWord {w : Text} (hw : IsWord w) : substitute f w = substPiece f w := by
  simp [substitute, pieces_of_isWord hw]

/-- A word before a text that begins outside a word is replaced by itself. -/
theorem substitute_word_append {w s : Text} (hw : IsWord w) (hs : StartsApart s) :
    substitute f (w ++ s) = substPiece f w ++ substitute f s := by
  rw [substitute_append (.inr hs), substitute_of_isWord hw]

/-- What puts words into a text does so behind a byte that is not a word byte. -/
theorem wordValued_cons {c : UInt8} (hc : ¬ isWord c) {s : Text} (h : WordValued f (c :: s)) :
    WordValued f s :=
  fun p hp => h p (by rw [pieces_cons_of_not_word hc]; exact List.mem_cons_of_mem _ hp)

/-- Where no word runs across the seam, words are put into two texts exactly if they are put into
both. -/
theorem wordValued_append {s t : Text} (hst : Seam s t) :
    WordValued f (s ++ t) ↔ WordValued f s ∧ WordValued f t := by
  simp only [WordValued, pieces_append hst, List.mem_append, or_imp, forall_and]

/-- What stands for a word is a word. -/
theorem isWord_substPiece {w : Text} (hw : IsWord w) (h : WordValued f w) :
    IsWord (substPiece f w) := by
  by_cases hi : isIdentifier w
  · rw [substPiece_of_isIdentifier hi]
    exact h w (by simp [pieces_of_isWord hw]) hi
  · rwa [substPiece_of_not_isIdentifier hi]

/-- Substituting words for identifiers does not change how a text begins outside words. -/
theorem startsApart_substitute {s : Text} (hs : StartsApart s) : StartsApart (substitute f s) := by
  cases s with
  | nil => exact startsApart_nil
  | cons c s =>
    have hc := (startsApart_cons c s).1 hs
    rw [substitute_cons hc]
    exact (startsApart_cons _ _).2 hc

/-- **The pieces after a substitution** are the pieces before it, each replaced by itself: words
stay words, so none of them meets another. -/
theorem pieces_substitute {s : Text} (h : WordValued f s) :
    (substitute f s).pieces = s.pieces.map (substPiece f) := by
  induction s using piece_induction with
  | nil => rfl
  | other c s hc ih =>
    rw [substitute_cons hc, pieces_cons_of_not_word hc, pieces_cons_of_not_word hc,
      ih (wordValued_cons hc h), List.map_cons,
      substPiece_of_not_isIdentifier (not_isIdentifier_singleton hc)]
  | word w s hw hs ih =>
    obtain ⟨hfw, hfs⟩ := (wordValued_append (.inr hs)).1 h
    rw [substitute_word_append hw hs, pieces_word_append hw hs,
      pieces_word_append (isWord_substPiece hw hfw) (startsApart_substitute hs), ih hfs,
      List.map_cons]

/-- What a substitution does to a text depends on the identifiers of the text alone. -/
theorem substitute_congr {f g : Text → Text} {s : Text}
    (h : ∀ p ∈ s.pieces, isIdentifier p → f p = g p) : substitute f s = substitute g s := by
  refine congrArg List.flatten (List.map_congr_left fun p hp => ?_)
  by_cases hi : isIdentifier p
  · rw [substPiece_of_isIdentifier hi, substPiece_of_isIdentifier hi, h p hp hi]
  · rw [substPiece_of_not_isIdentifier hi, substPiece_of_not_isIdentifier hi]

/-- A text is kept if its identifiers are. -/
theorem substitute_eq_self {s : Text} (h : ∀ p ∈ s.pieces, isIdentifier p → f p = p) :
    substitute f s = s := by
  have hid : substPiece id = id := funext fun p => ite_self p
  calc substitute f s
      = substitute id s := substitute_congr h
    _ = s := by rw [substitute, hid, List.map_id, flatten_pieces]

end CodeSimilarity.Text
