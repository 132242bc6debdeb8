import CodeSimilarity.Report

set_option autoImplicit false
set_option relaxedAutoImplicit false

/-!
# Requests

A request asks for one comparison and is answered by a JSON document, whether it can be met or
not.

## Main definitions

* `RequestError` — the reasons why a request cannot be met.
* `Answer` — what a request that can be met is answered.
* `respond` — the answer to a request.
-/

namespace CodeSimilarity

/-- The reasons why a request cannot be met. -/
inductive RequestError where
  /-- One of the two sources is missing. -/
  | missingSource
  /-- The threshold is not a number from 0 to 1. -/
  | thresholdOutOfRange
deriving DecidableEq, Repr

/-- What is said about an error. -/
def RequestError.message : RequestError → Text
  | .missingSource => Text.ofAscii "null source"
  | .thresholdOutOfRange => Text.ofAscii "threshold must be in [0,1]"

/-- What a request that can be met is answered. -/
structure Answer where
  /-- How similar the sources are. -/
  score : Binary64
  /-- The threshold of the request. -/
  threshold : Binary64
  /-- The matched segments. -/
  segments : List Segment
  /-- The counts behind the comparison, if they are shown. -/
  stats : Option Stats
deriving DecidableEq, Repr

/-- The answer to a request. The sources are zero-terminated texts. A missing source is the
first thing that is looked for; the threshold is only checked and repeated. -/
def respond (env : Environment) (a b : Option Text) (threshold : Binary64) :
    Except RequestError Answer :=
  match a, b with
  | some a, some b =>
    if !threshold.isFinite || threshold.lt 0 || Binary64.lt 1 threshold then
      .error .thresholdOutOfRange
    else
      let comparison := Comparison.ofTexts a.beforeNul b.beforeNul
      let timed := Environment.flag false env.timing
      .ok {
        score := comparison.score
        threshold
        segments := comparison.segments
        stats :=
          if Environment.flag false env.debug then some (Stats.record { timed } comparison)
          else none }
  | _, _ => .error .missingSource

/-- The fields of an answer to a request that can be met. -/
def Answer.fields (r : Answer) : List (String × Json) :=
  [("matched_segments", toJson r.segments), ("ok", toJson true),
   ("similarity_score", toJson r.score)] ++
  Stats.field r.stats ++
  [("threshold", toJson r.threshold)]

instance : ToJson Answer := ⟨fun r => .object r.fields⟩

/-- The fields of an answer to a request that cannot be met. -/
def RequestError.fields (e : RequestError) : List (String × Json) :=
  [("error",
      .object [("code", toJson (Text.ofAscii "bad_request")), ("message", toJson e.message)]),
   ("ok", toJson false)]

instance : ToJson RequestError := ⟨fun e => .object e.fields⟩

instance : ToJson (Except RequestError Answer) where
  toJson
    | .ok answer => toJson answer
    | .error e => toJson e

end CodeSimilarity
