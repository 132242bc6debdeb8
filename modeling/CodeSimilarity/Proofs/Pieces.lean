import CodeSimilarity.Text.Piece
import Mathlib.Data.List.TakeWhile

set_option autoImplicit false
set_option relaxedAutoImplicit false

/-!
# Where a text may be cut without changing its pieces

The pieces of a text are its maximal words and its single other bytes. They are computed byte by
byte from the right; the laws here read them off whole words and whole texts instead.

## Main definitions

* `Text.IsWord` — a non-empty run of word bytes.
* `Text.StartsApart` — the text is empty or begins outside a word.
* `Text.Seam` — no word runs across the place where two texts are joined.

## Main results

* `Text.pieces_append` — across a seam, the pieces of two texts side by side are the pieces of
  the one and then those of the other.
* `Text.piece_induction` — induction along the pieces: a byte outside words, or a whole word, at
  a time.
-/

namespace CodeSimilarity.Text

/-! ## Runs -/

/-- A run ends where the text behind it does not go on with it. -/
theorem takeWhile_run_append {p : UInt8 → Bool} {w s : Text} (hw : ∀ c ∈ w, p c)
    (hs : ∀ c ∈ s.head?, ¬ p c) : (w ++ s).takeWhile p = w := by
  rw [List.takeWhile_append_of_pos hw]
  cases s with
  | nil => exact List.append_nil w
  | cons c s => rw [List.takeWhile_cons_of_neg (hs c rfl), List.append_nil]

/-- What stands behind a run. -/
theorem dropWhile_run_append {p : UInt8 → Bool} {w s : Text} (hw : ∀ c ∈ w, p c)
    (hs : ∀ c ∈ s.head?, ¬ p c) : (w ++ s).dropWhile p = s := by
  rw [List.dropWhile_append_of_pos hw]
  cases s with
  | nil => rfl
  | cons c s => exact List.dropWhile_cons_of_neg (hs c rfl)

/-! ## Words and seams -/

/-- A word: a non-empty run of word bytes. -/
def IsWord (w : Text) : Prop :=
  w ≠ [] ∧ ∀ c ∈ w, isWord c

/-- The text is empty or begins outside a word. -/
def StartsApart (s : Text) : Prop :=
  ∀ c ∈ s.head?, ¬ isWord c

/-- No word runs across the seam of `s` and `t`: what stands on one of its two sides is not a
word byte. -/
def Seam (s t : Text) : Prop :=
  (∀ c ∈ s.getLast?, ¬ isWord c) ∨ StartsApart t

/-- The empty text begins apart. -/
@[simp] theorem startsApart_nil : StartsApart [] := by simp [StartsApart]

/-- A text begins apart exactly if its first byte is not a word byte. -/
@[simp] theorem startsApart_cons (c : UInt8) (s : Text) :
    StartsApart (c :: s) ↔ ¬ isWord c := by simp [StartsApart]

instance : (s : Text) → Decidable (StartsApart s)
  | [] => isTrue startsApart_nil
  | c :: s => decidable_of_iff (¬ isWord c) (startsApart_cons c s).symm

/-- The first byte of a word is a word byte. -/
theorem IsWord.exists_cons {w : Text} (hw : IsWord w) :
    ∃ c v, w = c :: v ∧ isWord c ∧ ∀ d ∈ v, isWord d := by
  obtain ⟨c, v, rfl⟩ := List.exists_cons_of_ne_nil hw.1
  exact ⟨c, v, rfl, hw.2 c List.mem_cons_self, fun d hd => hw.2 d (List.mem_cons_of_mem _ hd)⟩

/-- The pieces of a text that begins with `c` begin with a piece that begins with `c`. -/
theorem exists_pieces_cons (c : UInt8) (s : Text) :
    ∃ w ps, pieces (c :: s) = (c :: w) :: ps := by
  rw [pieces_cons]
  unfold pushPiece
  split
  · split <;> exact ⟨_, _, rfl⟩
  · exact ⟨_, _, rfl⟩

/-- A byte outside words is a piece of its own. -/
theorem pieces_cons_of_not_word {c : UInt8} (hc : ¬ isWord c) (s : Text) :
    pieces (c :: s) = [c] :: pieces s := by
  rw [pieces_cons]
  unfold pushPiece
  split
  · next hs => simp [hc, hs]
  · rfl

/-- Before a text that begins outside a word, every byte is a piece of its own. -/
theorem pieces_cons_of_startsApart (c : UInt8) {s : Text} (hs : StartsApart s) :
    pieces (c :: s) = [c] :: pieces s := by
  cases s with
  | nil => rfl
  | cons d s =>
    obtain ⟨w, ps, h⟩ := exists_pieces_cons d s
    rw [pieces_cons, h, pushPiece]
    simp [(startsApart_cons d s).1 hs]

/-- Putting a byte before pieces looks at the first piece alone. -/
theorem pushPiece_append (c : UInt8) {ps : List Text} (hps : ps ≠ []) (qs : List Text) :
    pushPiece c (ps ++ qs) = pushPiece c ps ++ qs := by
  obtain ⟨p, ps, rfl⟩ := List.exists_cons_of_ne_nil hps
  cases p with
  | nil => rfl
  | cons d w => simp only [List.cons_append, pushPiece]; split <;> rfl

/-- The pieces of two texts side by side are those of the one and those of the other, unless a
word runs across the seam. -/
theorem pieces_append {s t : Text} (h : Seam s t) : pieces (s ++ t) = pieces s ++ pieces t := by
  induction s with
  | nil => rfl
  | cons c s ih =>
    cases s with
    | nil =>
      rcases h with hc | ht
      · exact pieces_cons_of_not_word (hc c (by simp)) t
      · exact pieces_cons_of_startsApart c ht
    | cons d s =>
      have hst : Seam (d :: s) t := h.imp_left fun hl e he => hl e (by simpa using he)
      obtain ⟨w, ps, hd⟩ := exists_pieces_cons d s
      rw [List.cons_append, pieces_cons, ih hst, pushPiece_append c (by simp [hd]), pieces_cons c]

/-- A word is one piece. -/
theorem pieces_of_isWord {w : Text} (hw : IsWord w) : pieces w = [w] := by
  obtain ⟨hne, hall⟩ := hw
  induction w with
  | nil => exact absurd rfl hne
  | cons c w ih =>
    cases w with
    | nil => rfl
    | cons d w =>
      have hc : isWord c := hall c (by simp)
      have hd : isWord d := hall d (by simp)
      rw [pieces_cons, ih (by simp) fun e he => hall e (List.mem_cons_of_mem _ he)]
      simp [pushPiece, hc, hd]

/-- A word before a text that begins outside a word is its first piece. -/
theorem pieces_word_append {w s : Text} (hw : IsWord w) (hs : StartsApart s) :
    pieces (w ++ s) = w :: pieces s := by
  rw [pieces_append (.inr hs), pieces_of_isWord hw, List.singleton_append]

/-- **Induction along the pieces of a text**: a text is empty, or it begins with a byte outside
words, or with a word that ends where the rest begins. -/
@[elab_as_elim] theorem piece_induction {motive : Text → Prop} (nil : motive [])
    (other : ∀ c s, ¬ isWord c → motive s → motive (c :: s))
    (word : ∀ w s, IsWord w → StartsApart s → motive s → motive (w ++ s)) (s : Text) :
    motive s := by
  induction hn : s.length using Nat.strong_induction_on generalizing s with
  | _ n ih =>
    cases s with
    | nil => exact nil
    | cons c s =>
      by_cases hc : isWord c
      · have hw : IsWord ((c :: s).takeWhile isWord) := by
          exact ⟨by simp [hc], fun d hd => List.mem_takeWhile_imp hd⟩
        have hs : StartsApart ((c :: s).dropWhile isWord) := by
          intro d hd
          have hnot := List.head?_dropWhile_not isWord (c :: s)
          rw [Option.mem_def.1 hd] at hnot
          simpa using hnot
        have hlt : ((c :: s).dropWhile isWord).length < n := by
          have := (List.dropWhile_sublist (l := s) isWord).length_le
          simp only [List.dropWhile_cons, hc, if_true, ← hn, List.length_cons]
          omega
        have h := word _ _ hw hs (ih _ hlt _ rfl)
        rwa [List.takeWhile_append_dropWhile] at h
      · exact other c s hc (ih _ (by simp [← hn]) s rfl)

end CodeSimilarity.Text
