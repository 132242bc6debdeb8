import CodeSimilarity.Pairwise
import Mathlib.Algebra.BigOperators.Group.Finset.Piecewise
import Mathlib.Data.Fintype.Basic
import Mathlib.Logic.Relation

set_option autoImplicit false
set_option relaxedAutoImplicit false

/-!
# A pool of workers compares all pairs

Several workers share one counter and one list of slots, each slot filled with its pair in
advance. A worker draws the next number from the counter. If that is the place of a slot, the
worker compares the pair of the slot, writes the result into it and draws again; otherwise it
stops. Drawing, comparing and writing are single steps, and the workers take them in any order.

## Main definitions

* `Slot`, `Worker`, `Pool` — the states.
* `Pool.Step` — the steps of the pool.
* `Pool.Owns` — a worker works on a slot.
* `Pool.Invariant` — what holds in every reachable state.

## Main results

* `Pool.Invariant.update` — what all steps have in common.
* `Pool.Invariant.step`, `Pool.invariant_of_reachable` — a step keeps the invariant, so a run does.
* `Pool.Step.remaining_eq`, `Pool.exists_finished` — every run comes to an end.
* `Pool.Invariant.results_of_finished` — the results of a finished pool.
* `Pool.matches_serial_run` — every order of steps gives what a single worker gives.

## Design

A slot keeps all that was ever written into it, so that a second write would show. A worker that
has drawn a number behind the last slot owns nothing, and the counter may run past the end by as
many numbers as there are workers.
-/

namespace CodeSimilarity

/-! ## States and steps -/

/-- A slot of the list of results. -/
structure Slot where
  /-- The pair that is to be compared. -/
  pair : Pair
  /-- All that was written into the slot, the latest last. -/
  written : List PairResult := []
deriving DecidableEq, Repr

/-- The result in a slot, if one was written. -/
def Slot.result? (slot : Slot) : Option PairResult :=
  slot.written.getLast?

/-- What a worker is about to do. -/
inductive Worker where
  /-- Draw a number. -/
  | idle
  /-- Compare the pair of a slot, or stop if there is no such slot. -/
  | drawn (place : ℕ)
  /-- Write a result into a slot. -/
  | computed (place : ℕ) (result : PairResult)
  /-- Nothing any more. -/
  | stopped
deriving DecidableEq, Repr

/-- The number that a worker has drawn and not dealt with yet. -/
def Worker.place? : Worker → Option ℕ
  | idle => none
  | drawn p => some p
  | computed p _ => some p
  | stopped => none

/-- How many steps a worker has to take by itself until it has stopped, if it draws no further slot:
the last two are drawing a number behind the last slot and stopping. -/
def Worker.pending (slots : ℕ) : Worker → ℕ
  | idle => 2
  | drawn p => if p < slots then 4 else 1
  | computed _ _ => 3
  | stopped => 0

/-- A pool of `W` workers. -/
structure Pool (W : ℕ) where
  /-- The counter. -/
  next : ℕ
  /-- The slots. -/
  slots : List Slot
  /-- The workers. -/
  worker : Fin W → Worker

open Text

namespace Pool

variable {W : ℕ} {settings : Settings} {documents : List Document} {s t : Pool W} {w : Fin W}

/-- The pool before the first step. -/
def initial (W : ℕ) (documents : List Document) : Pool W where
  next := 0
  slots := (pairs documents).map fun p => { pair := p }
  worker := fun _ => .idle

/-- Worker `w` draws the next number. -/
def draw (s : Pool W) (w : Fin W) : Pool W where
  next := s.next + 1
  slots := s.slots
  worker := Function.update s.worker w (.drawn s.next)

/-- Worker `w` stops. -/
def stop (s : Pool W) (w : Fin W) : Pool W where
  next := s.next
  slots := s.slots
  worker := Function.update s.worker w .stopped

/-- Worker `w` keeps the result `r` for the slot at place `p`. -/
def compute (s : Pool W) (w : Fin W) (p : ℕ) (r : PairResult) : Pool W where
  next := s.next
  slots := s.slots
  worker := Function.update s.worker w (.computed p r)

/-- Worker `w` writes the result `r` into the slot at place `p`. -/
def write (s : Pool W) (w : Fin W) (p : ℕ) (r : PairResult) : Pool W where
  next := s.next
  slots := s.slots.modify p fun slot => { slot with written := slot.written ++ [r] }
  worker := Function.update s.worker w .idle

/-- One step of one worker. -/
inductive Step (settings : Settings) : Pool W → Pool W → Prop
  | draw {s : Pool W} {w : Fin W} (idle : s.worker w = .idle) : Step settings s (s.draw w)
  | stop {s : Pool W} {w : Fin W} {p : ℕ} (drawn : s.worker w = .drawn p)
      (overrun : s.slots.length ≤ p) : Step settings s (s.stop w)
  | compute {s : Pool W} {w : Fin W} {p : ℕ} {slot : Slot} (drawn : s.worker w = .drawn p)
      (get : s.slots[p]? = some slot) :
      Step settings s (s.compute w p (slot.pair.compare settings))
  | write {s : Pool W} {w : Fin W} {p : ℕ} {r : PairResult}
      (computed : s.worker w = .computed p r) : Step settings s (s.write w p r)

/-- A state that some steps lead to from the start. -/
def Reachable (settings : Settings) (documents : List Document) (s : Pool W) : Prop :=
  Relation.ReflTransGen (Step settings) (initial W documents) s

/-- All workers have stopped. -/
def Finished (s : Pool W) : Prop :=
  ∀ w, s.worker w = .stopped

/-- A worker works on a slot: it is running, has drawn the place of the slot and has not written
into it yet. A stopped worker owns nothing, since it holds no number. -/
def Owns (s : Pool W) (w : Fin W) (p : ℕ) : Prop :=
  p < s.slots.length ∧ (s.worker w).place? = some p

/-- The results in the slots, in the order of the slots. -/
def results (s : Pool W) : List PairResult :=
  s.slots.filterMap Slot.result?

/-! ## The invariant -/

/-- What may be the case with the slot at place `p`. -/
inductive Stage (settings : Settings) (s : Pool W) (p : ℕ) (slot : Slot) : Prop
  /-- Its place was not drawn yet. -/
  | free (place : s.next ≤ p) (unwritten : slot.written = [])
  /-- A worker has drawn its place. -/
  | owned (w : Fin W) (place : (s.worker w).place? = some p) (unwritten : slot.written = [])
  /-- It was written into, once, and no worker will do so again. -/
  | done (place : p < s.next) (unowned : ∀ w, (s.worker w).place? ≠ some p)
      (written : slot.written = [slot.pair.compare settings])

/-- What holds in every reachable state. -/
structure Invariant (settings : Settings) (documents : List Document) (s : Pool W) : Prop where
  pairs_eq : s.slots.map Slot.pair = pairs documents
  place_lt : ∀ w p, (s.worker w).place? = some p → p < s.next
  place_injective : ∀ v w p, (s.worker v).place? = some p → (s.worker w).place? = some p → v = w
  computed : ∀ w p r, s.worker w = .computed p r →
    ∃ q, (pairs documents)[p]? = some q ∧ r = q.compare settings
  stage : ∀ p slot, s.slots[p]? = some slot → s.Stage settings p slot
  overrun : ∀ w, s.worker w = .stopped → s.slots.length < s.next

/-- The invariant holds before the first step. -/
theorem invariant_initial (W : ℕ) (settings : Settings) (documents : List Document) :
    (initial W documents).Invariant settings documents where
  pairs_eq := by
    rw [initial, List.map_map]
    exact List.map_id _
  place_lt w p hp := nomatch hp
  place_injective v w p hp := nomatch hp
  computed w p r hw := nomatch hw
  stage p slot hslot := by
    obtain ⟨q, -, rfl⟩ := List.mem_map.1 (List.mem_of_getElem? hslot)
    exact .free (Nat.zero_le p) rfl
  overrun w hw := nomatch hw

/-! ### Steps change one worker -/

/-- A change of one worker that neither takes nor gives up the number `k` changes no holder of
`k`. -/
theorem place?_update_iff {worker : Fin W → Worker} {x : Worker} {k : ℕ}
    (hx : x.place? = some k ↔ (worker w).place? = some k) (v : Fin W) :
    (Function.update worker w x v).place? = some k ↔ (worker v).place? = some k := by
  rw [Function.update_apply]
  split
  · next hvw => rw [hvw, hx]
  · rfl

/-- A slot stays as it was if its number keeps its holder and is drawn only if it was. -/
theorem Stage.congr {p : ℕ} {slot : Slot} (h : s.Stage settings p slot) (hnext : s.next ≤ t.next)
    (hfree : s.next ≤ p → t.next ≤ p)
    (hplace : ∀ v, (t.worker v).place? = some p ↔ (s.worker v).place? = some p) :
    t.Stage settings p slot := by
  cases h with
  | free hp hunwritten => exact .free (hfree hp) hunwritten
  | owned v hv hunwritten => exact .owned v ((hplace v).2 hv) hunwritten
  | done hp hunowned hwritten =>
    exact .done (hp.trans_le hnext) (fun v hv => hunowned v ((hplace v).1 hv)) hwritten

/-- **What all steps have in common**: worker `w` becomes `x`, and if it holds a number then, it is
the one it held before or one that was drawn just now. What is left to show is what became of the
slots. -/
theorem Invariant.update (h : s.Invariant settings documents) {x : Worker} {next : ℕ}
    {slots : List Slot} (hnext : s.next ≤ next)
    (hpairs : slots.map Slot.pair = s.slots.map Slot.pair)
    (hplace : ∀ p, x.place? = some p → (s.worker w).place? = some p ∨ s.next ≤ p ∧ p < next)
    (hcomputed : ∀ p r, x = .computed p r →
      ∃ q, (pairs documents)[p]? = some q ∧ r = q.compare settings)
    (hoverrun : x = .stopped → s.slots.length < s.next)
    (hstage : ∀ p slot, slots[p]? = some slot →
      Stage settings ⟨next, slots, Function.update s.worker w x⟩ p slot) :
    Invariant settings documents ⟨next, slots, Function.update s.worker w x⟩ := by
  have hother : ∀ v p, v ≠ w → (s.worker v).place? = some p → x.place? ≠ some p := by
    intro v p hvw hv hx
    rcases hplace p hx with hw | ⟨hle, -⟩
    · exact hvw (h.place_injective v w p hv hw)
    · exact absurd (h.place_lt v p hv) hle.not_gt
  have hlength : slots.length = s.slots.length := by
    simpa only [List.length_map] using congrArg List.length hpairs
  refine
    { pairs_eq := hpairs.trans h.pairs_eq
      place_lt := fun v p hv => ?_
      place_injective := fun v v' p hv hv' => ?_
      computed := fun v p r hv => ?_
      stage := hstage
      overrun := fun v hv => ?_ }
  · simp only [Function.update_apply] at hv
    split at hv
    · rcases hplace p hv with hw | ⟨-, hlt⟩
      · exact (h.place_lt w p hw).trans_le hnext
      · exact hlt
    · exact (h.place_lt v p hv).trans_le hnext
  · simp only [Function.update_apply] at hv hv'
    split at hv <;> split at hv'
    · next hvw hvw' => rw [hvw, hvw']
    · next _ hvw' => exact absurd hv (hother v' p hvw' hv')
    · next hvw _ => exact absurd hv' (hother v p hvw hv)
    · exact h.place_injective v v' p hv hv'
  · simp only [Function.update_apply] at hv
    split at hv
    · exact hcomputed p r hv
    · exact h.computed v p r hv
  · change slots.length < next
    rw [hlength]
    simp only [Function.update_apply] at hv
    split at hv
    · exact (hoverrun hv).trans_le hnext
    · exact (h.overrun v hv).trans_le hnext

/-- **Drawing a number** makes the worker the owner of a slot that was free, if there is one. -/
theorem Invariant.draw (h : s.Invariant settings documents) (hw : s.worker w = .idle) :
    (s.draw w).Invariant settings documents := by
  refine h.update (Nat.le_succ _) rfl (fun p hp => ?_) nofun nofun fun p slot hslot => ?_
  · obtain rfl : s.next = p := Option.some.inj hp
    exact .inr ⟨le_rfl, Nat.lt_succ_self _⟩
  · by_cases hp : p = s.next
    · -- this is the number that the worker draws, so the slot was free
      cases h.stage p slot hslot with
      | free _ hunwritten =>
        exact .owned w (by simp only [Function.update_self, hp, Worker.place?]) hunwritten
      | owned v hv => exact absurd (h.place_lt v p hv) hp.ge.not_gt
      | done hlt => exact absurd hlt hp.ge.not_gt
    · refine (h.stage p slot hslot).congr (Nat.le_succ _) (fun hle => ?_) (place?_update_iff ?_)
      · exact Nat.lt_of_le_of_ne hle (Ne.symm hp)
      · rw [hw]
        simp only [Worker.place?, Option.some.injEq, reduceCtorEq, iff_false]
        exact Ne.symm hp

/-- **Stopping** gives up a number behind the last slot. -/
theorem Invariant.stop (h : s.Invariant settings documents) {p : ℕ} (hw : s.worker w = .drawn p)
    (hoverrun : s.slots.length ≤ p) : (s.stop w).Invariant settings documents := by
  have hplace : (s.worker w).place? = some p := by rw [hw]; rfl
  refine h.update le_rfl rfl nofun nofun (fun _ => ?_) fun k slot hslot => ?_
  · exact hoverrun.trans_lt (h.place_lt w p hplace)
  · have hk : p ≠ k := by
      rintro rfl
      exact absurd (List.getElem?_eq_some_iff.1 hslot).1 hoverrun.not_gt
    refine (h.stage k slot hslot).congr le_rfl id (place?_update_iff ?_)
    rw [hplace]
    simp only [Worker.place?, Option.some.injEq, reduceCtorEq, false_iff]
    exact hk

/-- **Comparing** changes no owner. -/
theorem Invariant.compute (h : s.Invariant settings documents) {p : ℕ} {slot : Slot}
    (hw : s.worker w = .drawn p) (hget : s.slots[p]? = some slot) :
    (s.compute w p (slot.pair.compare settings)).Invariant settings documents := by
  have hplace : (s.worker w).place? = some p := by rw [hw]; rfl
  refine h.update le_rfl rfl (fun k hk => ?_) (fun k r hx => ?_) nofun fun k slot' hslot' => ?_
  · exact .inl (hplace.trans hk)
  · obtain ⟨rfl, rfl⟩ := Worker.computed.inj hx
    refine ⟨slot.pair, ?_, rfl⟩
    rw [← h.pairs_eq, List.getElem?_map, hget]
    rfl
  · refine (h.stage k slot' hslot').congr le_rfl id (place?_update_iff ?_)
    rw [hplace]
    rfl

/-- **Writing** puts the result of its pair into a slot that was empty, and gives the slot up. -/
theorem Invariant.write (h : s.Invariant settings documents) {p : ℕ} {r : PairResult}
    (hw : s.worker w = .computed p r) : (s.write w p r).Invariant settings documents := by
  have hplace : (s.worker w).place? = some p := by rw [hw]; rfl
  refine h.update le_rfl ?_ nofun nofun nofun fun k slot hslot => ?_
  · refine List.ext_getElem? fun k => ?_
    simp only [List.getElem?_map, List.getElem?_modify]
    cases s.slots[k]? with
    | none => rfl
    | some slot => simp only [Option.map_eq_map, Option.map_some]; split <;> rfl
  · simp only [List.getElem?_modify, Option.map_eq_map, Option.map_eq_some_iff] at hslot
    obtain ⟨old, hold, rfl⟩ := hslot
    by_cases hk : p = k
    · subst hk
      rw [if_pos rfl]
      -- the worker owns the slot, so nothing was written into it
      have hunwritten : old.written = [] := by
        cases h.stage p old hold with
        | free hfree => exact absurd (h.place_lt w p hplace) hfree.not_gt
        | owned _ _ hunwritten => exact hunwritten
        | done _ hunowned => exact absurd hplace (hunowned w)
      obtain ⟨q, hq, rfl⟩ := h.computed w p r hw
      have hpair : old.pair = q := by
        rw [← h.pairs_eq, List.getElem?_map, hold] at hq
        exact Option.some.inj hq
      refine .done (h.place_lt w p hplace) (fun v hv => ?_) (by rw [hunwritten, hpair]; rfl)
      simp only [Function.update_apply] at hv
      split at hv
      · cases hv
      · next hvw => exact hvw (h.place_injective v w p hv hplace)
    · rw [if_neg hk]
      refine (h.stage k old hold).congr le_rfl id (place?_update_iff ?_)
      rw [hplace]
      simp only [Worker.place?, Option.some.injEq, reduceCtorEq, false_iff]
      exact hk

/-- **A step keeps the invariant.** -/
theorem Invariant.step (h : s.Invariant settings documents) (hstep : Step settings s t) :
    t.Invariant settings documents := by
  cases hstep with
  | draw idle => exact h.draw idle
  | stop drawn overrun => exact h.stop drawn overrun
  | compute drawn get => exact h.compute drawn get
  | write computed => exact h.write computed

/-- **Every reachable state satisfies the invariant.** -/
theorem invariant_of_reachable (h : Reachable settings documents s) :
    s.Invariant settings documents := by
  induction h with
  | refl => exact invariant_initial W settings documents
  | tail _ hstep ih => exact ih.step hstep

/-! ## The end of a run -/

/-- How many steps are left: three for each slot that was not drawn yet, and those that are pending
for the workers. -/
def remaining (s : Pool W) : ℕ :=
  3 * (s.slots.length - s.next) + ∑ w, (s.worker w).pending s.slots.length

/-- The sum over all workers changes by what one worker changes. -/
theorem sum_pending_update (slots : ℕ) (worker : Fin W → Worker) (w : Fin W) (x : Worker) :
    ∑ v, (Function.update worker w x v).pending slots + (worker w).pending slots =
      ∑ v, (worker v).pending slots + x.pending slots := by
  have hupdate : ∀ v, (Function.update worker w x v).pending slots =
      Function.update (fun v => (worker v).pending slots) w (x.pending slots) v :=
    Function.apply_update (fun _ => Worker.pending slots) worker w x
  simp only [hupdate]
  rw [Finset.sum_update_of_mem (Finset.mem_univ w),
    ← Finset.add_sum_erase _ _ (Finset.mem_univ w), Finset.sdiff_singleton_eq_erase]
  omega

/-- **Each step brings the end nearer**, whichever worker takes it. -/
theorem Step.remaining_eq (hstep : Step settings s t) : s.remaining = t.remaining + 1 := by
  cases hstep with
  | @draw w hw =>
    have hsum := sum_pending_update s.slots.length s.worker w (.drawn s.next)
    rw [hw] at hsum
    simp only [remaining, Pool.draw]
    simp only [Worker.pending] at hsum ⊢
    split at hsum <;> omega
  | @stop w p hw hoverrun =>
    have hsum := sum_pending_update s.slots.length s.worker w .stopped
    rw [hw] at hsum
    simp only [remaining, Pool.stop]
    simp only [Worker.pending, if_neg hoverrun.not_gt] at hsum ⊢
    omega
  | @compute w p slot hw hget =>
    have hp := (List.getElem?_eq_some_iff.1 hget).1
    have hsum := sum_pending_update s.slots.length s.worker w
      (.computed p (slot.pair.compare settings))
    rw [hw] at hsum
    simp only [remaining, Pool.compute]
    simp only [Worker.pending, if_pos hp] at hsum ⊢
    omega
  | @write w p r hw =>
    have hsum := sum_pending_update s.slots.length s.worker w .idle
    rw [hw] at hsum
    simp only [remaining, Pool.write, List.length_modify]
    simp only [Worker.pending] at hsum ⊢
    omega

/-- A pool that has not finished can take a step. -/
theorem exists_step (settings : Settings) (h : ¬ s.Finished) : ∃ t, Step settings s t := by
  obtain ⟨w, hw⟩ := not_forall.1 h
  cases hcase : s.worker w with
  | idle => exact ⟨_, .draw hcase⟩
  | drawn p =>
    cases hget : s.slots[p]? with
    | none => exact ⟨_, .stop hcase (List.getElem?_eq_none_iff.1 hget)⟩
    | some slot => exact ⟨_, .compute hcase hget⟩
  | computed p r => exact ⟨_, .write hcase⟩
  | stopped => exact absurd hcase hw

/-- **Every run comes to an end**: from every state some steps lead to one in which all workers have
stopped. -/
theorem exists_finished (settings : Settings) (s : Pool W) :
    ∃ t, Relation.ReflTransGen (Step settings) s t ∧ t.Finished := by
  induction hn : s.remaining generalizing s with
  | zero =>
    refine ⟨s, .refl, not_not.1 fun hrunning => ?_⟩
    obtain ⟨t, hstep⟩ := exists_step settings hrunning
    exact absurd (hn.symm.trans hstep.remaining_eq) (Nat.succ_ne_zero _).symm
  | succ n ih =>
    by_cases hfinished : s.Finished
    · exact ⟨s, .refl, hfinished⟩
    · obtain ⟨t, hstep⟩ := exists_step settings hfinished
      obtain ⟨u, hrun, hu⟩ := ih t (Nat.succ.inj (hstep.remaining_eq.symm.trans hn))
      exact ⟨u, hrun.head hstep, hu⟩

/-! ## What a finished pool has done -/

/-- In a finished pool every slot holds the result of its pair, written once. -/
theorem Invariant.written_of_finished (h : s.Invariant settings documents) (hW : 0 < W)
    (hfinished : s.Finished) {slot : Slot} (hslot : slot ∈ s.slots) :
    slot.written = [slot.pair.compare settings] := by
  obtain ⟨p, hp⟩ := List.mem_iff_getElem?.1 hslot
  cases h.stage p slot hp with
  | free hplace =>
    -- a worker has stopped, so the counter has run past the end
    have hoverrun := h.overrun ⟨0, hW⟩ (hfinished _)
    have hlength := (List.getElem?_eq_some_iff.1 hp).1
    omega
  | owned w hplace =>
    rw [hfinished w] at hplace
    cases hplace
  | done _ _ hwritten => exact hwritten

/-- **The results of a finished pool** are those of all pairs, in the order of the pairs. -/
theorem Invariant.results_of_finished (h : s.Invariant settings documents) (hW : 0 < W)
    (hfinished : s.Finished) : s.results = (pairs documents).map (Pair.compare settings) := by
  have hresult : ∀ slot ∈ s.slots, slot.result? = some (slot.pair.compare settings) := by
    intro slot hslot
    rw [Slot.result?, h.written_of_finished hW hfinished hslot]
    rfl
  calc s.results
      = s.slots.filterMap (some ∘ Pair.compare settings ∘ Slot.pair) :=
        List.filterMap_congr hresult
    _ = (s.slots.map Slot.pair).map (Pair.compare settings) := by
        rw [List.filterMap_eq_map, List.map_map]
    _ = (pairs documents).map (Pair.compare settings) := by rw [h.pairs_eq]

/-- A slot whose place was drawn is written and given up, or it is empty and one worker owns it. -/
theorem Invariant.written_or_owned (h : s.Invariant settings documents) {p : ℕ} {slot : Slot}
    (hslot : s.slots[p]? = some slot) (hp : p < s.next) :
    (slot.written = [slot.pair.compare settings] ∧ ∀ w, ¬ s.Owns w p) ∨
      (slot.written = [] ∧ ∃! w, s.Owns w p) := by
  cases h.stage p slot hslot with
  | free hfree => exact absurd hp hfree.not_gt
  | owned w hw hunwritten =>
    refine .inr ⟨hunwritten, w, ⟨(List.getElem?_eq_some_iff.1 hslot).1, hw⟩, fun v hv => ?_⟩
    exact h.place_injective v w p hv.2 hw
  | done _ hunowned hwritten => exact .inl ⟨hwritten, fun w hw => hunowned w hw.2⟩

/-- **A pool of workers gives the serial result under every order of steps.** No slot has two
owners or is written twice; a slot whose place was drawn is written, or one running worker owns it;
and when all workers have stopped, every slot holds the result of its own pair, so the sorted list
is the one that a single worker produces. Such a state can be reached from every other one. -/
theorem matches_serial_run (hW : 0 < W) (hs : Reachable settings documents s) :
    (∀ v w p, s.Owns v p → s.Owns w p → v = w) ∧
    (∀ slot ∈ s.slots, slot.written.length ≤ 1) ∧
    (∀ p slot, s.slots[p]? = some slot → p < s.next →
      (slot.written = [slot.pair.compare settings] ∧ ∀ w, ¬ s.Owns w p) ∨
        (slot.written = [] ∧ ∃! w, s.Owns w p)) ∧
    (s.Finished →
      s.slots.map Slot.pair = pairs documents ∧
      (∀ slot ∈ s.slots, slot.written = [slot.pair.compare settings]) ∧
      PairResult.sort s.results = comparePairs settings documents ∧
      ∀ t : Pool 1, Reachable settings documents t → t.Finished →
        PairResult.sort s.results = PairResult.sort t.results) ∧
    ∃ t, Relation.ReflTransGen (Step settings) s t ∧ t.Finished := by
  have h := invariant_of_reachable hs
  refine ⟨?_, ?_, ?_, ?_, exists_finished settings s⟩
  · intro v w p hv hw
    exact h.place_injective v w p hv.2 hw.2
  · intro slot hslot
    obtain ⟨p, hp⟩ := List.mem_iff_getElem?.1 hslot
    cases h.stage p slot hp with
    | free _ hunwritten => simp [hunwritten]
    | owned _ _ hunwritten => simp [hunwritten]
    | done _ _ hwritten => simp [hwritten]
  · intro p slot hslot hp
    exact h.written_or_owned hslot hp
  · intro hfinished
    have hresults := h.results_of_finished hW hfinished
    refine ⟨h.pairs_eq, fun slot hslot => h.written_of_finished hW hfinished hslot, ?_, ?_⟩
    · rw [hresults, comparePairs]
    · intro t ht htfinished
      rw [hresults, (invariant_of_reachable ht).results_of_finished Nat.one_pos htfinished]

/-- Two workers on one pair, of which the second draws a number behind the last slot while the
first has not compared its pair yet. -/
theorem matches_serial_run_overrun :
    ∃ s : Pool 2, s.next = 3 ∧
      Reachable {} [⟨ofAscii "a", ofAscii "f;"⟩, ⟨ofAscii "b", ofAscii "g;"⟩] s ∧ s.Finished ∧
        PairResult.sort s.results =
          comparePairs {} [⟨ofAscii "a", ofAscii "f;"⟩, ⟨ofAscii "b", ofAscii "g;"⟩] := by
  let documents : List Document := [⟨ofAscii "a", ofAscii "f;"⟩, ⟨ofAscii "b", ofAscii "g;"⟩]
  have hdraw : Reachable {} documents ((initial 2 documents).draw 0) :=
    .single (.draw rfl)
  have hoverrun := (hdraw.tail (.draw (w := 1) rfl)).tail (.stop (w := 1) (p := 1) rfl (le_refl 1))
  have hwrite := (hoverrun.tail (.compute (w := 0) (p := 0) rfl rfl)).tail (.write (w := 0) rfl)
  have hstop := (hwrite.tail (.draw (w := 0) rfl)).tail (.stop (w := 0) (p := 2) rfl (by decide))
  obtain ⟨s, hnext, hs, hfinished⟩ : ∃ s : Pool 2, s.next = 3 ∧ Reachable {} documents s ∧
      s.Finished := ⟨_, rfl, hstop, Fin.forall_fin_two.2 ⟨rfl, rfl⟩⟩
  obtain ⟨-, -, -, hserial, -⟩ := matches_serial_run Nat.two_pos hs
  exact ⟨s, hnext, hs, hfinished, (hserial hfinished).2.2.1⟩

end Pool

end CodeSimilarity
