import CodeSimilarity.Proofs.Layout
import CodeSimilarity.Proofs.Marks

set_option autoImplicit false
set_option relaxedAutoImplicit false

/-!
# Trimming and collapsing

## Main definitions

* `Text.tidy` — a text without surplus blanks.

## Main results

* `Text.trim_append_blank`, `Text.trim_blank_append` — blanks at the ends have no say in trimming.
* `Text.trim_eq_self_iff` — which texts are trimmed.
* `Text.collapse_append` — a text is collapsed part by part.
* `Text.collapse_eq_self_iff` — which texts are collapsed.
* `Text.trim_collapse` — it does not matter which of the two comes first.
* `Text.cut?_collapse`, `Text.cut?_append_blank` — searching for a mark commutes with collapsing,
  and blanks at the end have no say in it.
-/

namespace CodeSimilarity.Text

/-! ## Trimming -/

/-- Blanks behind a text are trimmed with those at its end. -/
theorem trimEnd_append_blank {w : Text} (hw : ∀ c ∈ w, isBlank c) (s : Text) :
    trimEnd (s ++ w) = trimEnd s := by
  have hw' : ∀ c ∈ w.reverse, isBlank c := fun c hc => hw c (List.mem_reverse.1 hc)
  rw [trimEnd, List.reverse_append, List.dropWhile_append_of_pos hw', trimEnd]

/-- Blanks before a text have no say in trimming. -/
theorem trim_blank_append {w : Text} (hw : ∀ c ∈ w, isBlank c) (s : Text) :
    trim (w ++ s) = trim s := by
  rw [trim_eq, trim_eq, List.dropWhile_append_of_pos hw]

/-- Blanks behind a text have no say in trimming. -/
theorem trim_append_blank {w : Text} (hw : ∀ c ∈ w, isBlank c) (s : Text) :
    trim (s ++ w) = trim s := by
  rw [trim_eq, trim_eq, List.dropWhile_append]
  split
  · next h => rw [List.dropWhile_eq_nil_iff.2 hw, List.isEmpty_iff.1 h]
  · exact trimEnd_append_blank hw _

/-- A text is its trimmed form between blanks. -/
theorem exists_eq_blank_trim_blank (s : Text) :
    ∃ v w : Text, (∀ c ∈ v, isBlank c) ∧ (∀ c ∈ w, isBlank c) ∧ s = v ++ s.trim ++ w := by
  refine ⟨s.takeWhile isBlank, ((s.dropWhile isBlank).reverse.takeWhile isBlank).reverse,
    fun c hc => List.mem_takeWhile_imp hc,
    fun c hc => List.mem_takeWhile_imp (List.mem_reverse.1 hc), ?_⟩
  rw [List.append_assoc, trim, ← List.reverse_append, List.takeWhile_append_dropWhile,
    List.reverse_reverse, List.takeWhile_append_dropWhile]

/-- Only blanks are trimmed away altogether. -/
theorem trim_eq_nil_iff {s : Text} : s.trim = [] ↔ ∀ c ∈ s, isBlank c := by
  constructor
  · intro h
    obtain ⟨v, w, hv, hw, hs⟩ := exists_eq_blank_trim_blank s
    rw [h, List.append_nil] at hs
    intro c hc
    rw [hs, List.mem_append] at hc
    exact hc.elim (hv c) (hw c)
  · intro h
    have := trim_append_blank h []
    rwa [List.nil_append] at this

/-- A trimmed text begins with no blank. -/
theorem not_isBlank_of_mem_head?_trim {s : Text} {c : UInt8} (hc : c ∈ s.trim.head?) :
    ¬ isBlank c := by
  have hnot := List.head?_dropWhile_not isBlank s
  obtain ⟨r, hr⟩ := trimEnd_isPrefix (s.dropWhile isBlank)
  rw [trim_eq] at hc
  rw [← hr, List.head?_append, Option.mem_def.1 hc] at hnot
  simpa using hnot

/-- A trimmed text ends with no blank. -/
theorem not_isBlank_of_mem_getLast?_trim {s : Text} {c : UInt8} (hc : c ∈ s.trim.getLast?) :
    ¬ isBlank c := by
  have hnot := List.head?_dropWhile_not isBlank (s.dropWhile isBlank).reverse
  rw [trim, List.getLast?_reverse] at hc
  rw [Option.mem_def.1 hc] at hnot
  simpa using hnot

/-- The trimmed texts are those with no blank at either end. -/
theorem trim_eq_self_iff {s : Text} :
    s.trim = s ↔ (∀ c ∈ s.head?, ¬ isBlank c) ∧ ∀ c ∈ s.getLast?, ¬ isBlank c := by
  constructor
  · intro h
    rw [← h]
    exact ⟨fun c => not_isBlank_of_mem_head?_trim, fun c => not_isBlank_of_mem_getLast?_trim⟩
  · rintro ⟨hhead, hlast⟩
    have hkeep : ∀ t : Text, (∀ c ∈ t.head?, ¬ isBlank c) → t.dropWhile isBlank = t := by
      intro t ht
      cases t with
      | nil => rfl
      | cons c t => exact List.dropWhile_cons_of_neg (ht c rfl)
    rw [trim, hkeep s hhead, hkeep s.reverse (by simpa using hlast), List.reverse_reverse]

/-- A trimmed text has nothing left to trim. -/
@[simp] theorem trim_trim (s : Text) : s.trim.trim = s.trim :=
  trim_eq_self_iff.2
    ⟨fun _ => not_isBlank_of_mem_head?_trim, fun _ => not_isBlank_of_mem_getLast?_trim⟩

/-! ## Collapsing -/

/-- The space is a blank. -/
theorem isBlank_space : isBlank Byte.space := by decide

/-- A blank before a collapsed text becomes one space, unless a space stands there already. -/
theorem pushCollapsed_of_isBlank {c : UInt8} (hc : isBlank c) (s : Text) :
    pushCollapsed c s = if s.head? = some Byte.space then s else Byte.space :: s := if_pos hc

/-- A blank that is put before a collapsed text leaves a space in front. -/
theorem head?_pushCollapsed_of_isBlank {c : UInt8} (hc : isBlank c) (s : Text) :
    (pushCollapsed c s).head? = some Byte.space := by
  rw [pushCollapsed_of_isBlank hc]
  split
  · assumption
  · rfl

/-- A collapsed text begins with a space exactly if the text begins with a blank. -/
theorem head?_collapse_eq_space_iff {s : Text} :
    (collapse s).head? = some Byte.space ↔ ∃ c ∈ s.head?, isBlank c := by
  cases s with
  | nil => simp
  | cons c s =>
    by_cases hc : isBlank c
    · simp [head?_pushCollapsed_of_isBlank hc, hc]
    · have hne : c ≠ Byte.space := fun h => hc (h ▸ isBlank_space)
      simp [pushCollapsed_of_not_isBlank hc, hc, hne]

/-- Collapsing empties no text. -/
@[simp] theorem collapse_eq_nil_iff {s : Text} : collapse s = [] ↔ s = [] := by
  cases s with
  | nil => simp
  | cons c s =>
    by_cases hc : isBlank c
    · have hhead := head?_pushCollapsed_of_isBlank hc (collapse s)
      simp only [collapse_cons, reduceCtorEq, iff_false]
      intro h
      simp [h] at hhead
    · simp [pushCollapsed_of_not_isBlank hc]

/-- Putting a text before another one, blank by blank, does not depend on how long its runs of
blanks are. -/
theorem foldr_collapse (s r : Text) :
    (collapse s).foldr pushCollapsed r = s.foldr pushCollapsed r := by
  induction s with
  | nil => rfl
  | cons c s ih =>
    rw [collapse_cons, List.foldr_cons, ← ih]
    by_cases hc : isBlank c
    · rw [pushCollapsed_of_isBlank hc]
      split
      · next hhead =>
        -- one more blank before a run of blanks
        obtain ⟨t, ht⟩ := List.head?_eq_some_iff.1 hhead
        rw [ht, List.foldr_cons, pushCollapsed_of_isBlank hc,
          if_pos (head?_pushCollapsed_of_isBlank isBlank_space _)]
      · rw [List.foldr_cons, pushCollapsed_of_isBlank hc, pushCollapsed_of_isBlank isBlank_space]
    · rw [pushCollapsed_of_not_isBlank hc, List.foldr_cons]

/-- **A text is collapsed part by part**: only what the parts look like when collapsed counts. -/
theorem collapse_append (s t : Text) : collapse (s ++ t) = collapse (collapse s ++ collapse t) := by
  have hcollapse : ∀ u : Text, u.foldr pushCollapsed [] = collapse u := fun _ => rfl
  rw [collapse, collapse, List.foldr_append, List.foldr_append, foldr_collapse, hcollapse,
    foldr_collapse, hcollapse]

/-- A collapsed text has nothing left to collapse. -/
@[simp] theorem collapse_collapse (s : Text) : collapse (collapse s) = collapse s :=
  foldr_collapse s []

/-- Texts that look alike when collapsed may stand for each other in a longer text. -/
theorem collapse_append_congr {s s' t t' : Text} (hs : collapse s = collapse s')
    (ht : collapse t = collapse t') : collapse (s ++ t) = collapse (s' ++ t') := by
  rw [collapse_append, hs, ht, ← collapse_append]

/-- A run of blanks collapses to one space. -/
theorem collapse_of_blank {w : Text} (hne : w ≠ []) (hw : ∀ c ∈ w, isBlank c) :
    collapse w = [Byte.space] := by
  induction w with
  | nil => exact absurd rfl hne
  | cons c w ih =>
    rw [collapse_cons, pushCollapsed_of_isBlank (hw c List.mem_cons_self)]
    cases w with
    | nil => rfl
    | cons d w =>
      rw [ih (by simp) fun e he => hw e (List.mem_cons_of_mem _ he)]
      rfl

/-- The only blank of a collapsed text is the space. -/
theorem eq_space_of_mem_collapse {s : Text} {c : UInt8} (hc : c ∈ collapse s) (hb : isBlank c) :
    c = Byte.space := by
  induction s with
  | nil => simp at hc
  | cons d s ih =>
    rw [collapse_cons] at hc
    by_cases hd : isBlank d
    · rw [pushCollapsed_of_isBlank hd] at hc
      split at hc
      · exact ih hc
      · exact (List.mem_cons.1 hc).elim id ih
    · rw [pushCollapsed_of_not_isBlank hd] at hc
      rcases List.mem_cons.1 hc with rfl | hc
      · exact absurd hb hd
      · exact ih hc

/-- No two spaces meet in a collapsed text. -/
theorem not_infix_collapse (s : Text) : ¬ [Byte.space, Byte.space] <:+: collapse s := by
  induction s with
  | nil => simp
  | cons c s ih =>
    rw [collapse_cons]
    by_cases hc : isBlank c
    · rw [pushCollapsed_of_isBlank hc]
      split
      · exact ih
      · next hhead =>
        rw [List.infix_cons_iff, not_or]
        refine ⟨?_, ih⟩
        rintro ⟨r, hr⟩
        exact hhead (by rw [← (List.cons.inj hr).2]; rfl)
    · rw [pushCollapsed_of_not_isBlank hc, List.infix_cons_iff, not_or]
      refine ⟨fun h => hc ?_, ih⟩
      rw [← (List.cons_prefix_cons.1 h).1]
      exact isBlank_space

/-- The collapsed texts are those in which every blank is a space and no two spaces meet. -/
theorem collapse_eq_self_iff {s : Text} :
    collapse s = s ↔
      (∀ c ∈ s, isBlank c → c = Byte.space) ∧ ¬ [Byte.space, Byte.space] <:+: s := by
  constructor
  · intro h
    rw [← h]
    exact ⟨fun c hc hb => eq_space_of_mem_collapse hc hb, not_infix_collapse s⟩
  · rintro ⟨hblank, hpair⟩
    induction s with
    | nil => rfl
    | cons c s ih =>
      rw [List.infix_cons_iff, not_or] at hpair
      have hs := ih (fun d hd => hblank d (List.mem_cons_of_mem _ hd)) hpair.2
      rw [collapse_cons, hs]
      by_cases hc : isBlank c
      · obtain rfl := hblank c List.mem_cons_self hc
        rw [pushCollapsed_of_isBlank hc, if_neg]
        intro hhead
        obtain ⟨t, rfl⟩ := List.head?_eq_some_iff.1 hhead
        exact hpair.1 (by simp [List.cons_prefix_cons])
      · exact pushCollapsed_of_not_isBlank hc s

/-! ## Trimming and collapsing together -/

/-- Whether the blanks before a text are dropped before or after it is collapsed does not matter. -/
theorem dropWhile_collapse (s : Text) :
    (collapse s).dropWhile isBlank = collapse (s.dropWhile isBlank) := by
  induction s with
  | nil => rfl
  | cons c s ih =>
    rw [collapse_cons]
    by_cases hc : isBlank c
    · rw [List.dropWhile_cons_of_pos hc, ← ih, pushCollapsed_of_isBlank hc]
      split
      · rfl
      · exact List.dropWhile_cons_of_pos isBlank_space
    · rw [List.dropWhile_cons_of_neg hc, pushCollapsed_of_not_isBlank hc,
        List.dropWhile_cons_of_neg hc, collapse_cons, pushCollapsed_of_not_isBlank hc]

/-- What is left after trimming the end begins as the text does. -/
theorem head?_trimEnd {s : Text} (h : trimEnd s ≠ []) : (trimEnd s).head? = s.head? := by
  obtain ⟨r, hr⟩ := trimEnd_isPrefix s
  obtain ⟨c, t, ht⟩ := List.exists_cons_of_ne_nil h
  rw [ht] at hr ⊢
  rw [← hr]
  rfl

/-- Whether the blanks behind a text are dropped before or after it is collapsed does not matter. -/
theorem trimEnd_collapse (s : Text) : trimEnd (collapse s) = collapse (trimEnd s) := by
  induction s with
  | nil => rfl
  | cons c s ih =>
    rw [collapse_cons]
    by_cases hc : isBlank c
    · rw [pushCollapsed_of_isBlank hc]
      by_cases hs : trimEnd s = []
      · have hend : trimEnd (c :: s) = [] := by rw [trimEnd_cons, if_pos ⟨hs, hc⟩]
        rw [hs, collapse_nil] at ih
        rw [hend, collapse_nil]
        split
        · exact ih
        · rw [trimEnd_cons, if_pos ⟨ih, isBlank_space⟩]
      · have hend : trimEnd (c :: s) = c :: trimEnd s := by
          rw [trimEnd_cons, if_neg fun h => hs h.1]
        have hs' : trimEnd (collapse s) ≠ [] := by rwa [ih, ne_eq, collapse_eq_nil_iff]
        rw [hend, collapse_cons, pushCollapsed_of_isBlank hc, ← ih, head?_trimEnd hs']
        split
        · rfl
        · rw [trimEnd_cons, if_neg fun h => hs' h.1]
    · rw [pushCollapsed_of_not_isBlank hc, trimEnd_cons, if_neg fun h => hc h.2, ih,
        trimEnd_cons, if_neg fun h => hc h.2, collapse_cons, pushCollapsed_of_not_isBlank hc]

/-- Whether a text is trimmed before or after it is collapsed does not matter. -/
theorem trim_collapse (s : Text) : (collapse s).trim = collapse s.trim := by
  rw [trim_eq, trim_eq, dropWhile_collapse, trimEnd_collapse]

/-- A text without surplus blanks: none at its ends, and one space for each run in between. -/
def tidy (s : Text) : Text :=
  collapse s.trim

/-- Blanks before a text are surplus. -/
theorem tidy_blank_append {w : Text} (hw : ∀ c ∈ w, isBlank c) (s : Text) :
    tidy (w ++ s) = tidy s := by
  rw [tidy, trim_blank_append hw, tidy]

/-- Blanks behind a text are surplus. -/
theorem tidy_append_blank {w : Text} (hw : ∀ c ∈ w, isBlank c) (s : Text) :
    tidy (s ++ w) = tidy s := by
  rw [tidy, trim_append_blank hw, tidy]

/-- A text may be collapsed before it is tidied. -/
theorem tidy_collapse (s : Text) : tidy (collapse s) = tidy s := by
  rw [tidy, trim_collapse, collapse_collapse, tidy]

/-- Texts that collapse to the same text are the same without surplus blanks. -/
theorem tidy_congr {s t : Text} (h : collapse s = collapse t) : tidy s = tidy t := by
  rw [← tidy_collapse, h, tidy_collapse]

/-- Only blanks are surplus altogether. -/
theorem tidy_eq_nil_iff {s : Text} : tidy s = [] ↔ ∀ c ∈ s, isBlank c := by
  rw [tidy, collapse_eq_nil_iff, trim_eq_nil_iff]

/-! ## Searching in a collapsed text -/

section Marks

variable {mark : Text} (hmark : ∀ c ∈ mark, ¬ isBlank c)

include hmark

/-- A mark without blanks does not begin with a blank. -/
theorem not_isPrefix_of_isBlank (hne : mark ≠ []) {c : UInt8} (hc : isBlank c) (s : Text) :
    ¬ mark <+: c :: s := by
  obtain ⟨m, mark, rfl⟩ := List.exists_cons_of_ne_nil hne
  rw [List.cons_prefix_cons]
  rintro ⟨rfl, -⟩
  exact hmark m List.mem_cons_self hc

/-- Collapsing a text neither brings nor takes a mark at its front. -/
theorem isPrefix_collapse_iff {s : Text} : mark <+: collapse s ↔ mark <+: s := by
  induction mark generalizing s with
  | nil => simp
  | cons m mark ih =>
    cases s with
    | nil => rfl
    | cons c s =>
      by_cases hc : isBlank c
      · obtain ⟨t, ht⟩ := List.head?_eq_some_iff.1 (head?_pushCollapsed_of_isBlank hc (collapse s))
        rw [collapse_cons, ht]
        exact iff_of_false (not_isPrefix_of_isBlank hmark (by simp) isBlank_space t)
          (not_isPrefix_of_isBlank hmark (by simp) hc s)
      · rw [collapse_cons, pushCollapsed_of_not_isBlank hc, List.cons_prefix_cons,
          List.cons_prefix_cons, ih fun d hd => hmark d (List.mem_cons_of_mem _ hd)]

/-- A text begins with a blank exactly if what stands before its first mark does. -/
theorem head?_isBlank_of_cut? {s before after : Text} (h : s.cut? mark = some (before, after))
    (hne : mark ≠ []) : (∃ c ∈ before.head?, isBlank c) ↔ ∃ c ∈ s.head?, isBlank c := by
  rw [cut?_eq_some h]
  cases before with
  | nil =>
    obtain ⟨m, mark, rfl⟩ := List.exists_cons_of_ne_nil hne
    simpa using hmark m List.mem_cons_self
  | cons c before => simp

/-- Blanks behind a text neither bring nor take a mark at its front. -/
theorem isPrefix_append_blank_iff {w : Text} (hw : ∀ c ∈ w, isBlank c) {s : Text} :
    mark <+: s ++ w ↔ mark <+: s := by
  induction s generalizing mark with
  | nil =>
    cases mark with
    | nil => simp
    | cons m mark =>
      refine iff_of_false (fun h => ?_) (by simp)
      exact hmark m List.mem_cons_self (hw m (h.subset List.mem_cons_self))
  | cons c s ih =>
    cases mark with
    | nil => simp
    | cons m mark =>
      rw [List.cons_append, List.cons_prefix_cons, List.cons_prefix_cons,
        ih fun d hd => hmark d (List.mem_cons_of_mem _ hd)]

/-- Blanks behind a text have no say in where a mark is found. -/
theorem cut?_append_blank (hne : mark ≠ []) {w : Text} (hw : ∀ c ∈ w, isBlank c) (s : Text) :
    (s ++ w).cut? mark = (s.cut? mark).map fun p => (p.1, p.2 ++ w) := by
  induction s with
  | nil =>
    rw [List.nil_append, (cut?_eq_none_iff hne).2]
    · rfl
    · intro h
      obtain ⟨m, mark, rfl⟩ := List.exists_cons_of_ne_nil hne
      exact hmark m List.mem_cons_self (hw m (h.subset List.mem_cons_self))
  | cons c s ih =>
    by_cases hp : mark <+: c :: s
    · obtain ⟨t, ht⟩ := hp
      rw [← ht, List.append_assoc, cut?_mark_append hne, cut?_mark_append hne]
      rfl
    · have hp' : ¬ mark <+: c :: (s ++ w) := by
        rwa [← List.cons_append, isPrefix_append_blank_iff hmark hw]
      rw [List.cons_append, cut?_cons_skip hp', cut?_cons_skip hp, ih, Option.map_map,
        Option.map_map]
      rfl

/-- **Searching for a mark commutes with collapsing**, if the mark holds no blank. -/
theorem cut?_collapse (hne : mark ≠ []) (s : Text) :
    (collapse s).cut? mark = (s.cut? mark).map (Prod.map collapse collapse) := by
  induction s with
  | nil => rfl
  | cons c s ih =>
    by_cases hc : isBlank c
    · rw [collapse_cons, cut?_cons_skip (not_isPrefix_of_isBlank hmark hne hc s), Option.map_map,
        pushCollapsed_of_isBlank hc]
      -- the run of blanks goes on in the text exactly if it goes on before the mark
      have hbefore : ∀ p ∈ cut? s mark, collapse (c :: p.1) =
          if (collapse s).head? = some Byte.space then collapse p.1
          else Byte.space :: collapse p.1 := by
        intro p hp
        rw [collapse_cons, pushCollapsed_of_isBlank hc]
        simp only [head?_collapse_eq_space_iff, head?_isBlank_of_cut? hmark hp hne]
      split
      · next hhead =>
        rw [ih]
        refine Option.map_congr fun p hp => ?_
        simp [hbefore p hp, hhead, Prod.map]
      · next hhead =>
        rw [cut?_cons_skip (not_isPrefix_of_isBlank hmark hne isBlank_space _), ih,
          Option.map_map]
        refine Option.map_congr fun p hp => ?_
        simp [hbefore p hp, hhead]
    · by_cases hp : mark <+: c :: s
      · obtain ⟨t, ht⟩ := hp
        rw [← ht, collapse_append_of_not_isBlank hmark, cut?_mark_append hne,
          cut?_mark_append hne]
        rfl
      · have hp' : ¬ mark <+: c :: collapse s := by
          rwa [← pushCollapsed_of_not_isBlank hc, ← collapse_cons, isPrefix_collapse_iff hmark]
        rw [collapse_cons, pushCollapsed_of_not_isBlank hc, cut?_cons_skip hp',
          cut?_cons_skip hp, ih, Option.map_map, Option.map_map]
        refine Option.map_congr fun p _ => ?_
        simp [pushCollapsed_of_not_isBlank hc]

/-- Of two texts that look alike when collapsed, both hold a mark or none. -/
theorem cut?_eq_none_of_congr (hne : mark ≠ []) {s t : Text} (h : collapse s = collapse t)
    (hs : s.cut? mark = none) : t.cut? mark = none := by
  have ht := cut?_collapse hmark hne t
  rwa [← h, cut?_collapse hmark hne, hs, Option.map_none, eq_comm, Option.map_eq_none_iff] at ht

/-- Texts that look alike when collapsed are cut at a mark into parts that look alike. -/
theorem exists_cut?_of_congr (hne : mark ≠ []) {s t before after : Text}
    (h : collapse s = collapse t) (hs : s.cut? mark = some (before, after)) :
    ∃ before' after', t.cut? mark = some (before', after') ∧
      collapse before = collapse before' ∧ collapse after = collapse after' := by
  have ht := cut?_collapse hmark hne t
  rw [← h, cut?_collapse hmark hne, hs, Option.map_some, eq_comm, Option.map_eq_some_iff] at ht
  obtain ⟨⟨before', after'⟩, ht, hparts⟩ := ht
  obtain ⟨hbefore, hafter⟩ := Prod.mk.inj hparts
  exact ⟨before', after', ht, hbefore.symm, hafter.symm⟩

end Marks

end CodeSimilarity.Text
