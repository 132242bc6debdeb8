import CodeSimilarity.Proofs.Jaccard
import CodeSimilarity.Proofs.LegalSettings
import CodeSimilarity.Proofs.WrittenReports

set_option autoImplicit false
set_option relaxedAutoImplicit false

/-!
# The answers to requests

A request is answered with an error exactly if a source is missing or the threshold is no number
from zero to one, and a missing source goes first. Otherwise it is answered with what comparing the
two sources up to their first zero bytes finds out. The written answer shows which case it is.

## Main definitions

* `Answer.Answers` — what an answer says about two sources.
* `RequestError.ofJson?`, `Answer.ofResponse?` — the readers of written answers.

## Main results

* `respond_missingSource_iff`, `respond_thresholdOutOfRange_iff`, `respond_ok_iff` — when there is
  which answer.
* `respond_append_zero` — bytes behind a zero byte do not count.
* `score_respond_swap` — swapping the sources leaves the score.
* `readsBack_response`, `ordered_toJson_response` — the written form of all answers.
-/

namespace CodeSimilarity

open Json Settings

/-! ## Errors and comparisons -/

variable {env : Environment} {a b : Option Text} {threshold : Binary64}

/-- What is checked of a threshold is that it is one. -/
theorem isThreshold_iff (x : Binary64) :
    IsThreshold x ↔ ¬ (!x.isFinite || x.lt 0 || Binary64.lt 1 x) := by
  cases hfinite : x.isFinite with
  | false =>
    refine iff_of_false (fun h => ?_) (by simp)
    exact Bool.false_ne_true (hfinite.symm.trans h.isFinite)
  | true =>
    have hnan := Binary64.isNaN_of_isFinite hfinite
    have hlow : x.lt 0 ↔ x.value < 0 := by
      rw [Binary64.lt_iff hnan Binary64.isNaN_zero, Binary64.value_zero]
    have hhigh : Binary64.lt 1 x ↔ 1 < x.value := by
      rw [Binary64.lt_iff Binary64.isNaN_one hnan, Binary64.value_one]
    rw [Bool.not_true, Bool.false_or, Bool.or_eq_true, hlow, hhigh, not_or, not_lt, not_lt]
    exact ⟨fun h => ⟨h.nonneg, h.le_one⟩, fun h => ⟨hfinite, h.1, h.2⟩⟩

/-- What two sources and a threshold are answered, if the request can be met. -/
def Answer.ofSources (env : Environment) (a b : Text) (threshold : Binary64) : Answer :=
  let comparison := Comparison.ofTexts a.beforeNul b.beforeNul
  { score := comparison.score
    threshold
    segments := comparison.segments
    stats :=
      if Environment.flag false env.debug then
        some (Stats.record { timed := Environment.flag false env.timing } comparison)
      else none }

/-- A request with a threshold is met if both sources are there. -/
theorem respond_of_isThreshold (env : Environment) (a b : Text) (h : IsThreshold threshold) :
    respond env (some a) (some b) threshold = .ok (.ofSources env a b threshold) := by
  rw [isThreshold_iff] at h
  exact if_neg h

/-- A request with no threshold is not met. -/
theorem respond_of_not_isThreshold (env : Environment) (a b : Text) (h : ¬ IsThreshold threshold) :
    respond env (some a) (some b) threshold = .error .thresholdOutOfRange := by
  rw [isThreshold_iff, not_not] at h
  exact if_pos h

/-- A request without one of the sources is not met. -/
theorem respond_of_missing (env : Environment) (threshold : Binary64) (h : a = none ∨ b = none) :
    respond env a b threshold = .error .missingSource := by
  cases a with
  | none => rfl
  | some a =>
    cases b with
    | none => rfl
    | some b => simp at h

/-- **The three kinds of requests**: without a source, without a threshold, and with all three. -/
theorem respond_cases (env : Environment) (a b : Option Text) (threshold : Binary64) :
    (a = none ∨ b = none) ∧ respond env a b threshold = .error .missingSource ∨
    (∃ s t, a = some s ∧ b = some t) ∧ ¬ IsThreshold threshold ∧
      respond env a b threshold = .error .thresholdOutOfRange ∨
    ∃ s t, a = some s ∧ b = some t ∧ IsThreshold threshold ∧
      respond env a b threshold = .ok (.ofSources env s t threshold) := by
  cases a with
  | none => exact .inl ⟨.inl rfl, respond_of_missing env threshold (.inl rfl)⟩
  | some s =>
    cases b with
    | none => exact .inl ⟨.inr rfl, respond_of_missing env threshold (.inr rfl)⟩
    | some t =>
      by_cases h : IsThreshold threshold
      · exact .inr (.inr ⟨s, t, rfl, rfl, h, respond_of_isThreshold env s t h⟩)
      · exact .inr (.inl ⟨⟨s, t, rfl, rfl⟩, h, respond_of_not_isThreshold env s t h⟩)

/-- **A missing source** is what a request is refused for exactly if one is missing, whatever the
threshold is. -/
theorem respond_missingSource_iff :
    respond env a b threshold = .error .missingSource ↔ a = none ∨ b = none := by
  refine ⟨fun h => ?_, respond_of_missing env threshold⟩
  rcases respond_cases env a b threshold with ⟨hmissing, -⟩ | ⟨-, -, hr⟩ | ⟨s, t, -, -, -, hr⟩
  · exact hmissing
  · simp [hr] at h
  · simp [hr] at h

/-- **The threshold** is what a request is refused for exactly if both sources are there and it is
not a number from zero to one. -/
theorem respond_thresholdOutOfRange_iff :
    respond env a b threshold = .error .thresholdOutOfRange ↔
      a.isSome ∧ b.isSome ∧ ¬ IsThreshold threshold := by
  rcases respond_cases env a b threshold with ⟨hmissing, hr⟩ | ⟨⟨s, t, rfl, rfl⟩, hno, hr⟩ |
    ⟨s, t, rfl, rfl, hyes, hr⟩
  · rcases hmissing with rfl | rfl <;> simp [hr]
  · simp [hr, hno]
  · simp [hr, hyes]

/-! ## Answers -/

/-- What an answer says about two sources: the threshold of the request, the score and the segments
of the comparison of their texts up to the first zero bytes, and the counts of this comparison if
they are switched on, with durations if these are switched on too. -/
structure Answer.Answers (r : Answer) (env : Environment) (a b : Text) (threshold : Binary64) :
    Prop where
  threshold_eq : r.threshold = threshold
  score_eq : r.score = (Comparison.ofTexts a.beforeNul b.beforeNul).score
  segments_eq : r.segments = (Comparison.ofTexts a.beforeNul b.beforeNul).segments
  isSome_stats_iff : r.stats.isSome ↔ ∃ s, env.debug = some s ∧ s.SwitchesOn
  record_stats : ∀ stats ∈ r.stats,
    stats.record (Comparison.ofTexts a.beforeNul b.beforeNul) = stats
  timed_iff : ∀ stats ∈ r.stats, stats.timed ↔ ∃ s, env.timing = some s ∧ s.SwitchesOn

/-- A flag that is off by default is on exactly if its variable switches it on. -/
theorem flag_false_iff {value : Option Text} :
    Environment.flag false value ↔ ∃ s, value = some s ∧ s.SwitchesOn := by
  constructor
  · intro h
    by_contra hnot
    have hoff : Environment.flag false value = false := by
      by_cases hdecides : ∃ s, value = some s ∧ (s.SwitchesOn ∨ s.SwitchesOff)
      · obtain ⟨s, rfl, hon | hoff⟩ := hdecides
        · exact absurd ⟨s, rfl, hon⟩ hnot
        · exact Environment.flag_of_switchesOff false hoff
      · exact Environment.flag_of_neither false hdecides
    exact Bool.false_ne_true (hoff.symm.trans h)
  · rintro ⟨s, rfl, hs⟩
    exact Environment.flag_of_switchesOn false hs

/-- The answer to a request that can be met says what it should. -/
theorem Answer.answers_ofSources (env : Environment) (a b : Text) (threshold : Binary64) :
    (ofSources env a b threshold).Answers env a b threshold where
  threshold_eq := rfl
  score_eq := rfl
  segments_eq := rfl
  isSome_stats_iff := by
    rw [← flag_false_iff, ofSources]
    split <;> simp_all
  record_stats stats hstats := by
    rw [ofSources] at hstats
    split at hstats
    · obtain rfl := Option.some.inj hstats
      rfl
    · simp at hstats
  timed_iff stats hstats := by
    rw [← flag_false_iff]
    rw [ofSources] at hstats
    split at hstats
    · obtain rfl := Option.some.inj hstats
      rfl
    · simp at hstats

/-- There is only one answer that says what it should. -/
theorem Answer.Answers.unique {r r' : Answer} {a b : Text} (h : r.Answers env a b threshold)
    (h' : r'.Answers env a b threshold) : r = r' := by
  have hstats : r.stats = r'.stats := by
    cases hr : r.stats with
    | none =>
      have hnone := h.isSome_stats_iff.not.1 (by simp [hr])
      exact (Option.not_isSome_iff_eq_none.1 (h'.isSome_stats_iff.not.2 hnone)).symm
    | some stats =>
      have hsome := h'.isSome_stats_iff.2 (h.isSome_stats_iff.1 (by simp [hr]))
      obtain ⟨stats', hr'⟩ := Option.isSome_iff_exists.1 hsome
      have htimed : stats.timed = stats'.timed := Bool.eq_iff_iff.2
        ((h.timed_iff stats hr).trans (h'.timed_iff stats' hr').symm)
      rw [hr', ← h.record_stats stats hr, ← h'.record_stats stats' hr', Stats.record, htimed]
      rfl
  calc r = ⟨r.score, r.threshold, r.segments, r.stats⟩ := rfl
    _ = ⟨r'.score, r'.threshold, r'.segments, r'.stats⟩ := by
      rw [h.score_eq, h.threshold_eq, h.segments_eq, hstats, h'.score_eq, h'.threshold_eq,
        h'.segments_eq]
    _ = r' := rfl

/-- **A request is met** exactly if both sources are there and the threshold is one, and the answer
says what it should. -/
theorem respond_ok_iff {r : Answer} :
    respond env a b threshold = .ok r ↔
      ∃ s t, a = some s ∧ b = some t ∧ IsThreshold threshold ∧ r.Answers env s t threshold := by
  constructor
  · intro h
    rcases respond_cases env a b threshold with ⟨-, hr⟩ | ⟨-, -, hr⟩ | ⟨s, t, ha, hb, hyes, hr⟩
    · simp [hr] at h
    · simp [hr] at h
    · obtain rfl : Answer.ofSources env s t threshold = r := Except.ok.inj (hr.symm.trans h)
      exact ⟨s, t, ha, hb, hyes, Answer.answers_ofSources env s t threshold⟩
  · rintro ⟨s, t, rfl, rfl, hyes, hr⟩
    rw [respond_of_isThreshold env s t hyes,
      (Answer.answers_ofSources env s t threshold).unique hr]

/-- A text up to its first zero byte has nothing from behind any zero byte. -/
theorem beforeNul_append_zero (s rest : Text) : (s ++ 0 :: rest).beforeNul = s.beforeNul := by
  rw [Text.beforeNul, Text.beforeNul, List.takeWhile_append]
  split
  · next hlength =>
      rw [List.takeWhile_cons_of_neg (by decide), List.append_nil]
      exact ((List.takeWhile_prefix _).eq_of_length hlength).symm
  · rfl

/-- **Bytes behind a zero byte do not count.** -/
theorem respond_append_zero (env : Environment) (a b restA restB : Text) (threshold : Binary64) :
    respond env (some (a ++ 0 :: restA)) (some (b ++ 0 :: restB)) threshold =
      respond env (some a) (some b) threshold := by
  simp only [respond, beforeNul_append_zero]

/-- **Swapping the sources** leaves the score and the error. -/
theorem score_respond_swap (env : Environment) (a b : Option Text) (threshold : Binary64) :
    (respond env b a threshold).map Answer.score = (respond env a b threshold).map Answer.score := by
  rcases respond_cases env a b threshold with ⟨hmissing, hr⟩ | ⟨⟨s, t, rfl, rfl⟩, hno, hr⟩ |
    ⟨s, t, rfl, rfl, hyes, hr⟩
  · rw [hr, respond_of_missing env threshold hmissing.symm]
  · rw [hr, respond_of_not_isThreshold env t s hno]
  · rw [hr, respond_of_isThreshold env t s hyes]
    exact congrArg Except.ok (score_ofLines_swap _ _)

/-! ## Written answers -/

/-- The error that is written: the one with the message. -/
def RequestError.ofJson? (v : Json) : Option RequestError := do
  let message ← v.get? (get? text? "message") "error"
  [missingSource, thresholdOutOfRange].find? (·.message == message)

/-- The answer that is written, or the error if there is none. -/
def Answer.ofResponse? (v : Json) : Option (Except RequestError Answer) := do
  if ← v.get? bool? "ok" then (Answer.ofJson? v).map .ok else (RequestError.ofJson? v).map .error

/-- **Every answer is read back**, and every error is told apart. -/
theorem readsBack_response : ReadsBack Answer.ofResponse? := by
  intro response
  cases response with
  | ok r =>
    have hok : (toJson r).get? bool? "ok" = some true := by
      change (Json.object r.fields).get? bool? "ok" = some true
      simp [get?, Answer.fields, List.lookup_cons]
    change Answer.ofResponse? (toJson r) = _
    simp [Answer.ofResponse?, hok, Answer.readsBack r]
  | error e => cases e <;> decide +kernel

/-- **The names in every answer ascend**, in that of an error too. -/
theorem ordered_toJson_response (response : Except RequestError Answer) :
    (toJson response).Ordered := by
  cases response with
  | ok r => exact r.ordered_toJson
  | error e =>
    have hinner : (Json.object [("code", toJson (Text.ofAscii "bad_request")),
        ("message", toJson e.message)]).Ordered := by
      refine .object ?_ (by simp)
      simp only [List.map_cons, List.map_nil]
      decide +kernel
    refine .object ?_ (by simp [RequestError.fields, hinner])
    simp only [RequestError.fields, List.map_cons, List.map_nil]
    decide +kernel

end CodeSimilarity
