import CodeSimilarity.Text.Basic
import Mathlib.Data.List.Infix

set_option autoImplicit false
set_option relaxedAutoImplicit false

/-!
# Searching for a mark

## Main results

* `Text.isPrefix_of_cut?`, `Text.isSuffix_of_cut?` — the two parts of a text.
* `Text.cut?_eq_none_iff` — the search fails exactly if the mark does not occur.
* `Text.not_infix_of_cut?` — the mark that is found is the first one.
* `Text.cut?_append`, `Text.cut?_append_of_head` — what the search passes over.
* `Text.cut?_of_first`, `Text.cut?_append_of_some` — where the search stops.
-/

namespace CodeSimilarity.Text

/-- What stands before the mark is the front of the text. -/
theorem isPrefix_of_cut? {s mark before after : Text} (h : s.cut? mark = some (before, after)) :
    before <+: s := by
  rw [cut?_eq_some h, List.append_assoc]
  exact List.prefix_append _ _

/-- What stands behind the mark is the end of the text. -/
theorem isSuffix_of_cut? {s mark before after : Text} (h : s.cut? mark = some (before, after)) :
    after <:+ s := by
  rw [cut?_eq_some h]
  exact List.suffix_append _ _

/-- Where the mark does not begin, the search goes on. -/
theorem cut?_cons_skip {c : UInt8} {s mark : Text} (h : ¬ mark <+: c :: s) :
    cut? (c :: s) mark = (cut? s mark).map fun p => (c :: p.1, p.2) := by
  rw [cut?, if_neg (by rwa [List.isPrefixOf_iff_prefix])]

/-- Where the mark begins, the search ends. -/
theorem cut?_mark_append {mark : Text} (hm : mark ≠ []) (s : Text) :
    cut? (mark ++ s) mark = some ([], s) := by
  obtain ⟨c, m, rfl⟩ := List.exists_cons_of_ne_nil hm
  rw [List.cons_append, cut?, if_pos (by simp [List.isPrefixOf_iff_prefix])]
  simp

/-- The search fails exactly if the mark does not occur. -/
theorem cut?_eq_none_iff {s mark : Text} (hm : mark ≠ []) :
    s.cut? mark = none ↔ ¬ mark <:+: s := by
  induction s with
  | nil => simp [cut?, hm]
  | cons c s ih =>
    rw [List.infix_cons_iff, not_or, ← ih]
    by_cases hp : mark <+: c :: s
    · obtain ⟨r, hr⟩ := hp
      simp [← hr, cut?_mark_append hm]
    · simp [cut?_cons_skip hp, hp]

/-- The mark that is found is the first one. -/
theorem not_infix_of_cut? {s mark before after : Text} (hm : mark ≠ [])
    (h : s.cut? mark = some (before, after)) : ¬ mark <:+: before := by
  induction s generalizing before with
  | nil => simp [cut?] at h
  | cons c s ih =>
    by_cases hp : mark <+: c :: s
    · obtain ⟨r, hr⟩ := hp
      rw [← hr, cut?_mark_append hm, Option.some.injEq, Prod.mk.injEq] at h
      simpa [← h.1] using hm
    · rw [cut?_cons_skip hp] at h
      obtain ⟨⟨b, a⟩, hba, he⟩ := Option.map_eq_some_iff.1 h
      obtain ⟨rfl, rfl⟩ := Prod.mk.inj he
      rw [List.infix_cons_iff, not_or]
      refine ⟨fun hcb => hp (hcb.trans ?_), ih hba⟩
      exact List.cons_prefix_cons.2 ⟨rfl, isPrefix_of_cut? hba⟩

/-- The search passes over bytes other than the first byte of the mark. -/
theorem cut?_append_of_head {mark w : Text} (hw : ∀ c ∈ w, mark.head? ≠ some c) (hm : mark ≠ [])
    (s : Text) : cut? (w ++ s) mark = (cut? s mark).map fun p => (w ++ p.1, p.2) := by
  induction w with
  | nil => simp
  | cons c w ih =>
    have hnot : ¬ mark <+: c :: (w ++ s) := by
      obtain ⟨d, m, rfl⟩ := List.exists_cons_of_ne_nil hm
      have hd : d ≠ c := by simpa using hw c List.mem_cons_self
      rw [List.cons_prefix_cons]
      exact fun h => hd h.1
    rw [List.cons_append, cut?_cons_skip hnot, ih fun d hd => hw d (List.mem_cons_of_mem _ hd),
      Option.map_map]
    rfl

/-- The search passes over a text in which no mark of two bytes occurs, if it does not end with
the first byte of the mark. -/
theorem cut?_append {x y : UInt8} {b : Text} (hb : ¬ [x, y] <:+: b) (hx : b.getLast? ≠ some x)
    (s : Text) : cut? (b ++ s) [x, y] = (cut? s [x, y]).map fun p => (b ++ p.1, p.2) := by
  induction b with
  | nil => simp
  | cons c b ih =>
    rw [List.infix_cons_iff, not_or] at hb
    have hnot : ¬ [x, y] <+: c :: (b ++ s) := by
      cases b with
      | nil =>
        rintro ⟨r, hr⟩
        simp_all
      | cons d b =>
        rintro ⟨r, hr⟩
        exact hb.1 ⟨b, by simp_all⟩
    have hlast : b.getLast? ≠ some x := by
      cases b with
      | nil => simp
      | cons d b => simpa using hx
    rw [List.cons_append, cut?_cons_skip hnot, ih hb.2 hlast, Option.map_map]
    rfl

/-- The search stops at the first of two different bytes that make up the mark, if the mark does
not occur before. -/
theorem cut?_of_first {x y : UInt8} (hxy : x ≠ y) {b : Text} (hb : ¬ [x, y] <:+: b) (s : Text) :
    cut? (b ++ [x, y] ++ s) [x, y] = some (b, s) := by
  induction b with
  | nil => exact cut?_mark_append (by simp) s
  | cons c b ih =>
    rw [List.infix_cons_iff, not_or] at hb
    have hnot : ¬ [x, y] <+: c :: (b ++ [x, y] ++ s) := by
      cases b with
      | nil =>
        simp only [List.nil_append, List.cons_append, List.cons_prefix_cons]
        exact fun h => hxy h.2.1.symm
      | cons d b =>
        simp only [List.cons_append, List.cons_prefix_cons]
        exact fun h => hb.1 (by simp [h.1, h.2.1])
    rw [List.cons_append, List.cons_append, cut?_cons_skip hnot, ih hb.2]
    rfl

/-- What follows a text in which the mark is found does not change where it is found. -/
theorem cut?_append_of_some {s mark before after : Text} (hm : mark ≠ [])
    (h : s.cut? mark = some (before, after)) (t : Text) :
    cut? (s ++ t) mark = some (before, after ++ t) := by
  induction s generalizing before with
  | nil => simp [cut?] at h
  | cons c s ih =>
    by_cases hp : mark <+: c :: s
    · obtain ⟨r, hr⟩ := hp
      rw [← hr, cut?_mark_append hm, Option.some.injEq, Prod.mk.injEq] at h
      obtain ⟨rfl, rfl⟩ := h
      rw [← hr, List.append_assoc, cut?_mark_append hm]
    · rw [cut?_cons_skip hp] at h
      obtain ⟨⟨b, a⟩, hba, he⟩ := Option.map_eq_some_iff.1 h
      obtain ⟨rfl, rfl⟩ := Prod.mk.inj he
      have hp' : ¬ mark <+: c :: (s ++ t) := by
        intro hp'
        have hlen := length_of_cut? hba
        refine hp (List.prefix_of_prefix_length_le hp' (List.prefix_append (c :: s) t) ?_)
        simp only [List.length_cons]
        omega
      rw [List.cons_append, cut?_cons_skip hp', ih hba]
      rfl

end CodeSimilarity.Text
