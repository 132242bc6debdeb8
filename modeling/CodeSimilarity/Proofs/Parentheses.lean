import CodeSimilarity.Fingerprint
import Mathlib.Data.List.Infix
import Mathlib.Data.List.TakeWhile

set_option autoImplicit false
set_option relaxedAutoImplicit false

/-!
# Matching parentheses

The scan of a text looks ahead for the parenthesis that closes a group. Here this search is
described without its counter of open groups: it finds the closing parenthesis in front of which
the text is balanced, and what it does in a text is settled by how many groups are left open.

## Main definitions

* `Balanced` — no beginning of a text closes more groups than it opens, and all are closed.
* `ClosesGroups` — every group that is opened in a text is closed in it.
* `OpensGroup` — a text begins with a parenthesised group, after any blanks.
* `PassedOver` — the search for a closing parenthesis goes through a text without a change.

## Main results

* `afterGroup?_one_eq_some_iff` — the search finds the matching parenthesis.
* `afterGroup?_append_of_some`, `exists_depth_of_afterGroup?` — the search in two texts side by
  side.
* `afterArguments?_append_of_some`, `exists_depth_of_afterArguments?` — the same for the group
  that follows a word.
* `Balanced.passedOver` — balanced texts do not count.
-/

namespace CodeSimilarity

variable {depth : Nat} {c : UInt8} {s t after : Text}

/-! ## Balanced texts -/

/-- The parentheses of a text match: no beginning closes more groups than it opens, and the whole
closes as many as it opens. -/
structure Balanced (s : Text) : Prop where
  count_close_le : ∀ t, t <+: s → t.count Byte.parenClose ≤ t.count Byte.parenOpen
  count_open_eq : s.count Byte.parenOpen = s.count Byte.parenClose

instance (s : Text) : Decidable (Balanced s) :=
  decidable_of_iff
    ((∀ t ∈ s.inits, t.count Byte.parenClose ≤ t.count Byte.parenOpen) ∧
      s.count Byte.parenOpen = s.count Byte.parenClose) <| by
    simp only [List.mem_inits]
    exact ⟨fun h => ⟨h.1, h.2⟩, fun h => ⟨h.1, h.2⟩⟩

/-- An opening parenthesis does not count as a closing one. -/
@[simp] theorem count_close_open (s : Text) :
    (Byte.parenOpen :: s).count Byte.parenClose = s.count Byte.parenClose :=
  List.count_cons_of_ne (by decide)

/-- A closing parenthesis does not count as an opening one. -/
@[simp] theorem count_open_close (s : Text) :
    (Byte.parenClose :: s).count Byte.parenOpen = s.count Byte.parenOpen :=
  List.count_cons_of_ne (by decide)

/-- What holds of all beginnings of `c :: s` holds of the empty one and of those that go on
behind `c`. -/
theorem forall_isPrefix_cons {p : Text → Prop} :
    (∀ t, t <+: c :: s → p t) ↔ p [] ∧ ∀ t, t <+: s → p (c :: t) := by
  constructor
  · intro h
    exact ⟨h [] List.nil_prefix, fun t ht => h (c :: t) (List.cons_prefix_cons.2 ⟨rfl, ht⟩)⟩
  · rintro ⟨hnil, hcons⟩ t ht
    rcases List.prefix_cons_iff.1 ht with rfl | ⟨u, rfl, hu⟩
    · exact hnil
    · exact hcons u hu

/-! ## The search for a closing parenthesis -/

/-- Nothing follows a group that is not closed. -/
@[simp] theorem afterGroup?_nil (depth : Nat) : afterGroup? depth [] = none := rfl

/-- An opening parenthesis opens one more group. -/
theorem afterGroup?_open (depth : Nat) (s : Text) :
    afterGroup? depth (Byte.parenOpen :: s) = afterGroup? (depth + 1) s := by
  rw [afterGroup?, if_pos rfl]

/-- The parenthesis that closes the only open group ends the search. -/
theorem afterGroup?_close_one (s : Text) : afterGroup? 1 (Byte.parenClose :: s) = some s := by
  rw [afterGroup?, if_neg (by decide), if_pos rfl, if_pos (Nat.le_refl 1)]

/-- A closing parenthesis closes one of several groups. -/
theorem afterGroup?_close (depth : Nat) (s : Text) :
    afterGroup? (depth + 2) (Byte.parenClose :: s) = afterGroup? (depth + 1) s := by
  rw [afterGroup?, if_neg (by decide), if_pos rfl, if_neg (by omega)]
  rfl

/-- No other byte counts. -/
theorem afterGroup?_other (hopen : c ≠ Byte.parenOpen) (hclose : c ≠ Byte.parenClose)
    (depth : Nat) (s : Text) : afterGroup? depth (c :: s) = afterGroup? depth s := by
  rw [afterGroup?, if_neg hopen, if_neg hclose]

/-- **The search fails** exactly if no beginning of the text closes all groups that are open. -/
theorem afterGroup?_eq_none_iff :
    afterGroup? (depth + 1) s = none ↔
      ∀ t, t <+: s → t.count Byte.parenClose ≤ depth + t.count Byte.parenOpen := by
  induction s generalizing depth with
  | nil => simp [List.prefix_nil]
  | cons c s ih =>
    rw [forall_isPrefix_cons]
    by_cases hopen : c = Byte.parenOpen
    · subst hopen
      rw [afterGroup?_open, ih]
      simp [Nat.add_assoc, Nat.add_comm 1]
    by_cases hclose : c = Byte.parenClose
    · subst hclose
      cases depth with
      | zero =>
        rw [afterGroup?_close_one]
        simp only [reduceCtorEq, List.count_nil, Nat.zero_le, true_and, false_iff, not_forall]
        exact ⟨[], List.nil_prefix, by decide⟩
      | succ depth =>
        rw [afterGroup?_close, ih]
        simp [Nat.add_right_comm depth 1]
    · rw [afterGroup?_other hopen hclose, ih]
      simp [hopen, hclose]

/-- **The search ends in the first of two texts** and leaves the second one behind. -/
theorem afterGroup?_append_of_some (h : afterGroup? depth s = some after) (t : Text) :
    afterGroup? depth (s ++ t) = some (after ++ t) := by
  induction s generalizing depth with
  | nil => simp at h
  | cons c s ih =>
    rw [List.cons_append]
    rw [afterGroup?] at h ⊢
    split_ifs at h ⊢ with hopen hclose hdepth
    · exact ih h
    · rw [← Option.some.inj h]
    · exact ih h
    · exact ih h

/-- **The search goes on in the second of two texts**, with the groups that are open then. -/
theorem exists_depth_of_afterGroup? (h : afterGroup? (depth + 1) s = none) :
    ∃ depth', depth' + s.count Byte.parenClose = depth + s.count Byte.parenOpen ∧
      ∀ t, afterGroup? (depth + 1) (s ++ t) = afterGroup? (depth' + 1) t := by
  induction s generalizing depth with
  | nil => exact ⟨depth, rfl, fun t => rfl⟩
  | cons c s ih =>
    by_cases hopen : c = Byte.parenOpen
    · subst hopen
      rw [afterGroup?_open] at h
      obtain ⟨depth', hcount, hrest⟩ := ih h
      refine ⟨depth', by simp; omega, fun t => ?_⟩
      rw [List.cons_append, afterGroup?_open, hrest]
    by_cases hclose : c = Byte.parenClose
    · subst hclose
      cases depth with
      | zero => simp [afterGroup?_close_one] at h
      | succ depth =>
        rw [afterGroup?_close] at h
        obtain ⟨depth', hcount, hrest⟩ := ih h
        refine ⟨depth', by simp; omega, fun t => ?_⟩
        rw [List.cons_append, afterGroup?_close, hrest]
    · rw [afterGroup?_other hopen hclose] at h
      obtain ⟨depth', hcount, hrest⟩ := ih h
      refine ⟨depth', by simpa [hopen, hclose] using hcount, fun t => ?_⟩
      rw [List.cons_append, afterGroup?_other hopen hclose, hrest]

/-- A search that ends has found a parenthesis in front of which it did not end. -/
theorem exists_eq_append_of_afterGroup? (h : afterGroup? depth s = some after) :
    ∃ group, s = group ++ Byte.parenClose :: after ∧ afterGroup? depth group = none := by
  induction s generalizing depth with
  | nil => simp at h
  | cons c s ih =>
    rw [afterGroup?] at h
    split_ifs at h with hopen hclose hdepth
    · obtain ⟨group, rfl, hgroup⟩ := ih h
      exact ⟨c :: group, rfl, by rw [afterGroup?, if_pos hopen, hgroup]⟩
    · obtain rfl := Option.some.inj h
      exact ⟨[], by rw [hclose]; rfl, rfl⟩
    · obtain ⟨group, rfl, hgroup⟩ := ih h
      exact ⟨c :: group, rfl, by
        rw [afterGroup?, if_neg hopen, if_pos hclose, if_neg hdepth, hgroup]⟩
    · obtain ⟨group, rfl, hgroup⟩ := ih h
      exact ⟨c :: group, rfl, by rw [afterGroup?, if_neg hopen, if_neg hclose, hgroup]⟩

/-! ## Texts that the search passes over -/

/-- The search for a closing parenthesis goes through a text as if it were not there. -/
def PassedOver (s : Text) : Prop :=
  ∀ depth t, afterGroup? (depth + 1) (s ++ t) = afterGroup? (depth + 1) t

/-- **Balanced texts are passed over.** -/
theorem Balanced.passedOver (h : Balanced s) : PassedOver s := by
  intro depth t
  have hnone : afterGroup? (depth + 1) s = none :=
    afterGroup?_eq_none_iff.2 fun u hu => by
      have hle := h.count_close_le u hu
      omega
  obtain ⟨depth', hcount, hrest⟩ := exists_depth_of_afterGroup? hnone
  have hdepth : depth' = depth := by
    have heq := h.count_open_eq
    omega
  rw [hrest, hdepth]

/-- A text without parentheses is passed over. -/
theorem passedOver_of_plain (h : ∀ c ∈ s, c ≠ Byte.parenOpen ∧ c ≠ Byte.parenClose) :
    PassedOver s := by
  intro depth t
  induction s with
  | nil => rfl
  | cons c s ih =>
    obtain ⟨⟨hopen, hclose⟩, hs⟩ := List.forall_mem_cons.1 h
    rw [List.cons_append, afterGroup?_other hopen hclose, ih hs]

/-- Two texts that are passed over are passed over together. -/
theorem PassedOver.append (hs : PassedOver s) (ht : PassedOver t) : PassedOver (s ++ t) := by
  intro depth u
  rw [List.append_assoc, hs, ht]

/-- A whole group is passed over with its parentheses. -/
theorem PassedOver.group (h : PassedOver s) :
    PassedOver (Byte.parenOpen :: (s ++ [Byte.parenClose])) := by
  intro depth t
  rw [List.cons_append, afterGroup?_open, List.append_assoc, h, List.singleton_append,
    afterGroup?_close]

/-- **The search finds the matching parenthesis**: the one in front of which the text is
balanced. -/
theorem afterGroup?_one_eq_some_iff :
    afterGroup? 1 s = some after ↔
      ∃ group, Balanced group ∧ s = group ++ Byte.parenClose :: after := by
  constructor
  · intro h
    obtain ⟨group, rfl, hnone⟩ := exists_eq_append_of_afterGroup? h
    obtain ⟨depth', hcount, hrest⟩ := exists_depth_of_afterGroup? hnone
    -- if more groups were open, the search would go on in what it leaves behind
    have hdepth : depth' = 0 := by
      cases depth' with
      | zero => rfl
      | succ depth' =>
        rw [hrest, afterGroup?_close] at h
        exact absurd (length_afterGroup? h) (Nat.lt_irrefl _)
    refine ⟨group, ⟨fun t ht => ?_, by omega⟩, rfl⟩
    have hle := afterGroup?_eq_none_iff.1 hnone t ht
    omega
  · rintro ⟨group, hgroup, rfl⟩
    rw [hgroup.passedOver, afterGroup?_close_one]

/-! ## Texts that close their groups -/

/-- Every group that is opened in the text is closed in it: behind each opening parenthesis stands
the one that matches it. -/
def ClosesGroups (s : Text) : Prop :=
  ∀ before inside, s = before ++ Byte.parenOpen :: inside →
    ∃ group after, Balanced group ∧ inside = group ++ Byte.parenClose :: after

/-- The empty text opens no group. -/
@[simp] theorem closesGroups_nil : ClosesGroups [] := by
  intro before inside h
  simp at h

/-- What closes its groups still does so without its first bytes. -/
theorem ClosesGroups.of_isSuffix (h : ClosesGroups s) (ht : t <:+ s) : ClosesGroups t := by
  intro before inside heq
  obtain ⟨front, rfl⟩ := ht
  exact h (front ++ before) inside (by rw [heq, List.append_assoc])

/-- A text closes its groups exactly if it closes one it begins with, and the rest of it closes its
own. -/
theorem closesGroups_cons :
    ClosesGroups (c :: s) ↔
      (c = Byte.parenOpen → (afterGroup? 1 s).isSome) ∧ ClosesGroups s := by
  simp only [Option.isSome_iff_exists, afterGroup?_one_eq_some_iff]
  constructor
  · intro h
    refine ⟨fun hc => ?_, h.of_isSuffix (List.suffix_cons c s)⟩
    obtain ⟨group, after, hgroup⟩ := h [] s (by rw [hc]; rfl)
    exact ⟨after, group, hgroup⟩
  · rintro ⟨hopen, hs⟩ before inside heq
    cases before with
    | nil =>
      obtain ⟨hc, rfl⟩ := List.cons.inj heq
      obtain ⟨after, group, hgroup⟩ := hopen hc
      exact ⟨group, after, hgroup⟩
    | cons d before => exact hs before inside (List.cons.inj heq).2

instance decidableClosesGroups : (s : Text) → Decidable (ClosesGroups s)
  | [] => isTrue closesGroups_nil
  | c :: s =>
    have := decidableClosesGroups s
    decidable_of_iff _ (@closesGroups_cons c s).symm

/-! ## The group after a word -/

/-- The text begins with a parenthesised group, after any blanks: its first byte that is not blank
is an opening parenthesis. -/
def OpensGroup (s : Text) : Prop :=
  (s.dropWhile isBlank).head? = some Byte.parenOpen

instance (s : Text) : Decidable (OpensGroup s) :=
  inferInstanceAs (Decidable ((s.dropWhile isBlank).head? = some Byte.parenOpen))

/-- The blanks before a group do not count. -/
theorem afterArguments?_blanks_append {blanks : Text} (h : ∀ c ∈ blanks, isBlank c) (s : Text) :
    afterArguments? (blanks ++ s) = afterArguments? s := by
  unfold afterArguments?
  rw [List.dropWhile_append_of_pos h]

/-- At an opening parenthesis, the group begins right there. -/
theorem afterArguments?_open (s : Text) :
    afterArguments? (Byte.parenOpen :: s) = afterGroup? 1 s := by
  have hblank : (Byte.parenOpen :: s).dropWhile isBlank = Byte.parenOpen :: s :=
    List.dropWhile_cons_of_neg (by decide)
  rw [afterArguments?, hblank]
  exact if_pos rfl

/-- A text that opens no group has no arguments. -/
theorem afterArguments?_of_not_opensGroup (h : ¬ OpensGroup s) : afterArguments? s = none := by
  unfold afterArguments?
  split
  · rfl
  · next c rest hs =>
    refine if_neg fun hc => h ?_
    rw [OpensGroup, hs, hc, List.head?_cons]

/-- A text that opens a group does so behind blanks. -/
theorem OpensGroup.exists_eq (h : OpensGroup s) :
    ∃ blanks inside, (∀ c ∈ blanks, isBlank c) ∧ s = blanks ++ Byte.parenOpen :: inside := by
  refine ⟨s.takeWhile isBlank, (s.dropWhile isBlank).tail, ?_, ?_⟩
  · exact fun c hc => List.mem_takeWhile_imp hc
  · rw [← List.eq_cons_of_mem_head? h, List.takeWhile_append_dropWhile]

/-- A text without an opening parenthesis has no arguments. -/
theorem afterArguments?_of_notMem (h : Byte.parenOpen ∉ s) : afterArguments? s = none := by
  refine afterArguments?_of_not_opensGroup fun hopens => h ?_
  obtain ⟨blanks, inside, -, rfl⟩ := hopens.exists_eq
  exact List.mem_append_right _ List.mem_cons_self

/-- Of two texts side by side, the second can only open a group if the first is blank. -/
theorem opensGroup_append_iff :
    OpensGroup (s ++ t) ↔ OpensGroup s ∨ (∀ c ∈ s, isBlank c) ∧ OpensGroup t := by
  induction s with
  | nil => simp [OpensGroup]
  | cons c s ih =>
    by_cases hc : isBlank c
    · simpa [OpensGroup, hc] using ih
    · simp [OpensGroup, hc]

/-- What follows the arguments is the end of the text. -/
theorem isSuffix_of_afterArguments? (h : afterArguments? s = some after) : after <:+ s := by
  by_cases hopens : OpensGroup s
  · obtain ⟨blanks, inside, hblanks, rfl⟩ := hopens.exists_eq
    rw [afterArguments?_blanks_append hblanks, afterArguments?_open] at h
    obtain ⟨group, rfl, -⟩ := exists_eq_append_of_afterGroup? h
    exact ⟨blanks ++ Byte.parenOpen :: (group ++ [Byte.parenClose]), by simp⟩
  · rw [afterArguments?_of_not_opensGroup hopens] at h
    cases h

/-- **Arguments that end in the first of two texts** leave the second one behind. -/
theorem afterArguments?_append_of_some (h : afterArguments? s = some after) (t : Text) :
    afterArguments? (s ++ t) = some (after ++ t) := by
  by_cases hopens : OpensGroup s
  · obtain ⟨blanks, inside, hblanks, rfl⟩ := hopens.exists_eq
    rw [afterArguments?_blanks_append hblanks, afterArguments?_open] at h
    rw [List.append_assoc, afterArguments?_blanks_append hblanks, List.cons_append,
      afterArguments?_open, afterGroup?_append_of_some h]
  · rw [afterArguments?_of_not_opensGroup hopens] at h
    cases h

/-- **Arguments that do not end in the first of two texts** either are none, whatever follows
without opening a group, or end in the second one where a group of some depth is closed. -/
theorem exists_depth_of_afterArguments? (h : afterArguments? s = none) :
    (∀ t, ¬ OpensGroup t → afterArguments? (s ++ t) = none) ∨
      ∃ depth, ∀ t, afterArguments? (s ++ t) = afterGroup? (depth + 1) t := by
  by_cases hopens : OpensGroup s
  · obtain ⟨blanks, inside, hblanks, rfl⟩ := hopens.exists_eq
    rw [afterArguments?_blanks_append hblanks, afterArguments?_open] at h
    obtain ⟨depth, -, hrest⟩ := exists_depth_of_afterGroup? h
    refine .inr ⟨depth, fun t => ?_⟩
    rw [List.append_assoc, afterArguments?_blanks_append hblanks, List.cons_append,
      afterArguments?_open, hrest]
  · refine .inl fun t ht => afterArguments?_of_not_opensGroup fun hst => ?_
    rcases opensGroup_append_iff.1 hst with hs | ⟨-, ht'⟩
    · exact hopens hs
    · exact ht ht'

/-- A text that closes its groups and has no arguments gets none from a text that opens no
group. -/
theorem afterArguments?_append_of_closesGroups (hs : ClosesGroups s)
    (h : afterArguments? s = none) (ht : ¬ OpensGroup t) : afterArguments? (s ++ t) = none := by
  refine afterArguments?_of_not_opensGroup fun hst => ?_
  rcases opensGroup_append_iff.1 hst with hopens | ⟨-, ht'⟩
  · obtain ⟨blanks, inside, hblanks, rfl⟩ := hopens.exists_eq
    obtain ⟨group, after, hgroup, rfl⟩ := hs blanks inside rfl
    rw [afterArguments?_blanks_append hblanks, afterArguments?_open,
      afterGroup?_one_eq_some_iff.2 ⟨group, hgroup, rfl⟩] at h
    cases h
  · exact ht ht'

end CodeSimilarity
