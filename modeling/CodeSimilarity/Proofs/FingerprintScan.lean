import CodeSimilarity.Proofs.Parentheses
import CodeSimilarity.Proofs.Pieces

set_option autoImplicit false
set_option relaxedAutoImplicit false

/-!
# The fingerprint scan at a joint of two texts

The scan of a text looks ahead: to the end of a word, to an equals sign behind a comparison, to a
group behind blanks, and through a group to the parenthesis that closes it. Where two texts are
joined so that the first three do not reach across, only an open group can.

## Main definitions

* `IsHead` — a word that takes a group after it.
* `Joint` — the lookaheads of a scan do not reach across the joint of two texts, groups apart.

## Main results

* `fingerprint_induction` — induction along the steps of the scan.
* `fingerprint_append` — if the first text closes its groups, the fingerprint is put together
  from those of both texts.
* `fingerprint_append_congr` — in any case, texts that look the same to the scan can stand for
  each other behind the joint.
-/

namespace CodeSimilarity

open Text

variable {c : UInt8} {w s t t' after : Text}

/-! ## Steps of the scan on whole words -/

/-- A word that takes a group after it: it starts with a letter or an underscore. -/
def IsHead (w : Text) : Prop :=
  Text.IsWord w ∧ w.head?.any isWordStart

/-- A word is replaced together with a closed group after it. -/
theorem fingerprint_head_append (hw : IsHead w) (hs : StartsApart s)
    (h : afterArguments? s = some after) :
    fingerprint (w ++ s) = groupToken w ++ fingerprint after := by
  obtain ⟨hword, hstart⟩ := hw
  obtain ⟨c, v, rfl, -, hv⟩ := hword.exists_cons
  have hdrop := dropWhile_run_append hv hs
  rw [List.cons_append, fingerprint_group (by simpa using hstart) (hdrop.symm ▸ h),
    takeWhile_run_append hv hs]

/-- A word without a closed group after it is kept. -/
theorem fingerprint_word_append (hw : Text.IsWord w) (hs : StartsApart s)
    (h : IsHead w → afterArguments? s = none) : fingerprint (w ++ s) = w ++ fingerprint s := by
  obtain ⟨c, v, rfl, hc, hv⟩ := hw.exists_cons
  have hdrop := dropWhile_run_append hv hs
  have hnone : isWordStart c → afterArguments? ((v ++ s).dropWhile isWord) = none := by
    intro hstart
    rw [hdrop]
    exact h ⟨hw, by simpa using hstart⟩
  rw [List.cons_append, fingerprint_word hc hnone, takeWhile_run_append hv hs, hdrop]

/-- A word takes a group after it, or it is kept. -/
theorem takes_group_or_kept (w s : Text) :
    (∃ after, IsHead w ∧ afterArguments? s = some after) ∨
      (IsHead w → afterArguments? s = none) := by
  by_cases hw : IsHead w
  · cases afterArguments? s with
    | none => exact .inr fun _ => rfl
    | some after => exact .inl ⟨after, hw, rfl⟩
  · exact .inr fun hhead => absurd hhead hw

/-- **Induction along the steps of the scan**: a word with its group, a word alone, a comparison
of two bytes, or any other byte. -/
@[elab_as_elim] theorem fingerprint_induction {motive : Text → Prop} (nil : motive [])
    (group : ∀ w s after, IsHead w → StartsApart s → afterArguments? s = some after →
      motive after → motive (w ++ s))
    (word : ∀ w s, Text.IsWord w → StartsApart s → (IsHead w → afterArguments? s = none) →
      motive s → motive (w ++ s))
    (comparison : ∀ c s, startsComparison c → motive s → motive (c :: Byte.equals :: s))
    (operator : ∀ c s, ¬ isWord c → (startsComparison c → s.head? ≠ some Byte.equals) →
      motive s → motive (c :: s))
    (s : Text) : motive s := by
  induction hn : s.length using Nat.strong_induction_on generalizing s with
  | _ n ih =>
    cases s using piece_induction with
    | nil => exact nil
    | other c s hc =>
      rw [List.length_cons] at hn
      by_cases hpair : startsComparison c ∧ s.head? = some Byte.equals
      · obtain ⟨hstarts, hhead⟩ := hpair
        rw [List.eq_cons_of_mem_head? hhead]
        refine comparison c _ hstarts (ih _ ?_ _ rfl)
        rw [List.length_tail]
        omega
      · refine operator c s hc (fun hstarts hhead => hpair ⟨hstarts, hhead⟩) (ih _ ?_ s rfl)
        omega
    | word w s hw hs =>
      have hpos := List.length_pos_of_ne_nil hw.1
      rw [List.length_append] at hn
      rcases takes_group_or_kept w s with ⟨after, hhead, hafter⟩ | hnone
      · have hlt := length_afterArguments? hafter
        exact group w s after hhead hs hafter (ih _ (by omega) after rfl)
      · exact word w s hw hs hnone (ih _ (by omega) s rfl)

/-! ## Joints -/

/-- The scan of `s` does not see what follows it, open groups apart: no word and no comparison
runs on into `t`, and `t` does not begin with a group. -/
structure Joint (s t : Text) : Prop where
  word : Seam s t
  comparison : ∀ c ∈ s.getLast?, startsComparison c → t.head? ≠ some Byte.equals
  group : ¬ OpensGroup t

/-- The first text may be shorter. -/
theorem Joint.of_isSuffix (h : Joint s t) (hs : w <:+ s) : Joint w t := by
  have hlast : ∀ c ∈ w.getLast?, c ∈ s.getLast? := by
    obtain ⟨front, rfl⟩ := hs
    intro c hc
    rw [List.getLast?_append, Option.mem_def.1 hc]
    rfl
  exact
    { word := h.word.imp_left fun hword c hc => hword c (hlast c hc)
      comparison := fun c hc => h.comparison c (hlast c hc)
      group := h.group }

/-- A word ends before the second text where it ends in the first one. -/
theorem Joint.startsApart (h : Joint (w ++ s) t) (hw : Text.IsWord w) (hs : StartsApart s) :
    StartsApart (s ++ t) := by
  cases s with
  | nil =>
    rw [List.append_nil] at h
    refine h.word.resolve_left fun hword => ?_
    have hlast := List.getLast?_eq_some_getLast hw.1
    exact hword _ hlast (hw.2 _ (List.getLast_mem hw.1))
  | cons c s => exact (startsApart_cons c (s ++ t)).2 ((startsApart_cons c s).1 hs)

/-- Before a joint, the scan takes a word with a group that is closed there. -/
theorem Joint.scan_group (h : Joint (w ++ s) t) (hw : IsHead w) (hs : StartsApart s)
    (hafter : afterArguments? s = some after) :
    fingerprint (w ++ s ++ t) = groupToken w ++ fingerprint (after ++ t) := by
  rw [List.append_assoc, fingerprint_head_append hw (h.startsApart hw.1 hs)
    (afterArguments?_append_of_some hafter t)]

/-- Before a joint, the scan takes a byte that begins no comparison there as it does alone. -/
theorem Joint.scan_operator (h : Joint (c :: s) t) (hc : ¬ isWord c)
    (hs : startsComparison c → s.head? ≠ some Byte.equals) :
    fingerprint (c :: s ++ t) = operatorToken c ++ fingerprint (s ++ t) := by
  rw [List.cons_append, fingerprint_operator hc]
  intro hstarts
  cases s with
  | nil => exact h.comparison c rfl hstarts
  | cons d s => exact hs hstarts

/-- **The fingerprint across a joint** is put together from the fingerprints on both sides, if no
group is open there. -/
theorem fingerprint_append (h : Joint s t) (hs : ClosesGroups s) :
    fingerprint (s ++ t) = fingerprint s ++ fingerprint t := by
  induction s using fingerprint_induction with
  | nil => rw [List.nil_append, fingerprint_nil, List.nil_append]
  | group w s after hw hapart hafter ih =>
    have hsuffix : after <:+ w ++ s :=
      (isSuffix_of_afterArguments? hafter).trans (List.suffix_append w s)
    rw [h.scan_group hw hapart hafter, fingerprint_head_append hw hapart hafter,
      ih (h.of_isSuffix hsuffix) (hs.of_isSuffix hsuffix), List.append_assoc]
  | word w s hw hapart hnone ih =>
    have hsuffix : s <:+ w ++ s := List.suffix_append w s
    have hclosed := hs.of_isSuffix hsuffix
    have hnone' : IsHead w → afterArguments? (s ++ t) = none := fun hhead =>
      afterArguments?_append_of_closesGroups hclosed (hnone hhead) h.group
    rw [List.append_assoc, fingerprint_word_append hw (h.startsApart hw hapart) hnone',
      fingerprint_word_append hw hapart hnone, ih (h.of_isSuffix hsuffix) hclosed,
      List.append_assoc]
  | comparison c s hc ih =>
    have hsuffix : s <:+ c :: Byte.equals :: s := List.suffix_append [c, Byte.equals] s
    rw [List.cons_append, List.cons_append, fingerprint_comparison hc, fingerprint_comparison hc,
      ih (h.of_isSuffix hsuffix) (hs.of_isSuffix hsuffix), List.append_assoc]
  | operator c s hc hhead ih =>
    have hsuffix : s <:+ c :: s := List.suffix_cons c s
    rw [h.scan_operator hc hhead, fingerprint_operator hc hhead,
      ih (h.of_isSuffix hsuffix) (hs.of_isSuffix hsuffix), List.append_assoc]

/-- A word has the same fingerprint before texts with the same arguments and fingerprint. -/
theorem fingerprint_word_congr (hw : Text.IsWord w) (ht : StartsApart t) (ht' : StartsApart t')
    (hargs : IsHead w → afterArguments? t = afterArguments? t')
    (h : fingerprint t = fingerprint t') : fingerprint (w ++ t) = fingerprint (w ++ t') := by
  rcases takes_group_or_kept w t with ⟨after, hhead, hafter⟩ | hnone
  · rw [fingerprint_head_append hhead ht hafter,
      fingerprint_head_append hhead ht' (hargs hhead ▸ hafter)]
  · rw [fingerprint_word_append hw ht hnone,
      fingerprint_word_append hw ht' fun hhead => hargs hhead ▸ hnone hhead, h]

/-- **What stands behind a joint** counts for the scan only through its fingerprint and through
what it leaves behind where groups of some depth are closed.

**Proof sketch.** Along the steps of the scan of `s`. Only a word whose group is not closed in `s`
looks across the joint, and there it sees what is left behind the group, which is the same text
on both sides. -/
theorem fingerprint_append_congr (h : Joint s t) (h' : Joint s t')
    (hfingerprint : fingerprint t = fingerprint t')
    (hgroups : ∀ depth, afterGroup? (depth + 1) t = afterGroup? (depth + 1) t') :
    fingerprint (s ++ t) = fingerprint (s ++ t') := by
  induction s using fingerprint_induction with
  | nil => exact hfingerprint
  | group w s after hw hapart hafter ih =>
    have hsuffix : after <:+ w ++ s :=
      (isSuffix_of_afterArguments? hafter).trans (List.suffix_append w s)
    rw [h.scan_group hw hapart hafter, h'.scan_group hw hapart hafter,
      ih (h.of_isSuffix hsuffix) (h'.of_isSuffix hsuffix)]
  | word w s hw hapart hnone ih =>
    have hsuffix : s <:+ w ++ s := List.suffix_append w s
    have hargs : IsHead w → afterArguments? (s ++ t) = afterArguments? (s ++ t') := by
      intro hhead
      rcases exists_depth_of_afterArguments? (hnone hhead) with hnever | ⟨depth, hdepth⟩
      · rw [hnever t h.group, hnever t' h'.group]
      · rw [hdepth, hdepth, hgroups]
    rw [List.append_assoc, List.append_assoc]
    exact fingerprint_word_congr hw (h.startsApart hw hapart) (h'.startsApart hw hapart) hargs
      (ih (h.of_isSuffix hsuffix) (h'.of_isSuffix hsuffix))
  | comparison c s hc ih =>
    have hsuffix : s <:+ c :: Byte.equals :: s := List.suffix_append [c, Byte.equals] s
    simp only [List.cons_append, fingerprint_comparison hc]
    rw [ih (h.of_isSuffix hsuffix) (h'.of_isSuffix hsuffix)]
  | operator c s hc hhead ih =>
    have hsuffix : s <:+ c :: s := List.suffix_cons c s
    rw [h.scan_operator hc hhead, h'.scan_operator hc hhead,
      ih (h.of_isSuffix hsuffix) (h'.of_isSuffix hsuffix)]

end CodeSimilarity
