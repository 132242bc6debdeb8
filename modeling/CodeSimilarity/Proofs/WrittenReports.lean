import CodeSimilarity.Proofs.DigestNumerals
import CodeSimilarity.Request

set_option autoImplicit false
set_option relaxedAutoImplicit false

/-!
# The written form of reports

A report is written as a JSON value and loses nothing by it: each field stands under a name of its
own and is read back from there. The names in an object ascend, so none stands there twice.

## Main definitions

* `Json.int?`, `Json.list?`, `Json.get?` — reading plain values, lists and fields.
* `Json.ReadsBack` — a reader gives back what was written.
* `Segment.ofJson?`, `Stats.ofJson?`, `ReportItem.ofJson?`, `Report.ofJson?`, `Answer.ofJson?` —
  the readers of the written forms.
* `Json.precedes`, `Json.Ordered` — the names in every object ascend.

## Main results

* `Segment.readsBack`, `Stats.readsBack`, `ReportItem.readsBack`, `Report.readsBack`,
  `Answer.readsBack` — nothing is lost by writing.
* `Stats.field?_durations` — durations are shown if they are asked for, all of them or none.
* `Report.ordered_toJson`, `Answer.ordered_toJson` — the names ascend in every object.
-/

namespace CodeSimilarity

/-! ## Reading values -/

namespace Json

/-- A truth value. -/
def bool? : Json → Option Bool
  | .bool b => some b
  | _ => none

/-- An integer. -/
def int? : Json → Option Int
  | .int z => some z
  | _ => none

/-- An integer that is not negative. -/
def nat? (v : Json) : Option Nat :=
  v.int?.bind Int.toNat?

/-- A number that is a double. -/
def real? : Json → Option Binary64
  | .real x => some x
  | _ => none

/-- The text of a string. -/
def text? : Json → Option Text
  | .text s => some s
  | _ => none

/-- A string that is the numeral of a digest. -/
def digest? (v : Json) : Option Digest :=
  (v.text?.bind (Text.signedNumeral? 16)).map Int32.ofInt

/-- A list of values that can all be read. -/
def list? {α : Type} (read : Json → Option α) : Json → Option (List α)
  | .array items => items.mapM read
  | _ => none

/-- A field of an object. -/
def get? {α : Type} (read : Json → Option α) (name : String) (v : Json) : Option α :=
  (v.field? name).bind read

/-- A field of an object that may be absent, but if it is there can be read. -/
def getOptional? {α : Type} (read : Json → Option α) (name : String) (v : Json) :
    Option (Option α) :=
  match v.field? name with
  | none => some none
  | some w => (read w).map some

/-- A field of an object is looked up among its fields. -/
@[simp] theorem field?_object (name : String) (fields : List (String × Json)) :
    (object fields).field? name = fields.lookup name := rfl

/-- A reader gives back whatever was written. -/
def ReadsBack {α : Type} [ToJson α] (read : Json → Option α) : Prop :=
  ∀ x : α, read (toJson x) = some x

/-- A written truth value is read back. -/
@[simp] theorem bool?_toJson (b : Bool) : bool? (toJson b) = some b := rfl

/-- A written integer is read back. -/
@[simp] theorem int?_toJson (z : Int) : int? (toJson z) = some z := rfl

/-- A written natural number is read back. -/
@[simp] theorem nat?_toJson (n : Nat) : nat? (toJson n) = some n := rfl

/-- A written double is read back. -/
@[simp] theorem real?_toJson (x : Binary64) : real? (toJson x) = some x := rfl

/-- A written text is read back. -/
@[simp] theorem text?_toJson (s : Text) : text? (toJson s) = some s := rfl

/-- The numeral of a digest is read as the digest. -/
@[simp] theorem digest?_format (d : Digest) : digest? (toJson d.format) = some d := by
  rw [digest?, text?_toJson, Option.bind_some, Digest.signedNumeral?_format, Option.map_some,
    Int32.ofInt_toInt]

/-- A list is read back if its elements are. -/
theorem list?_map {α β : Type} {read : Json → Option α} {write : β → Json} {f : β → α}
    (h : ∀ x, read (write x) = some (f x)) (xs : List β) :
    list? read (.array (xs.map write)) = some (xs.map f) := by
  change (xs.map write).mapM read = some (xs.map f)
  induction xs with
  | nil => rfl
  | cons x xs ih => simp only [List.map_cons, List.mapM_cons, h, ih]; rfl

/-- A list is read back if its elements are. -/
theorem ReadsBack.list {α : Type} [ToJson α] {read : Json → Option α} (h : ReadsBack read) :
    ReadsBack (list? read) := fun xs =>
  (list?_map h xs).trans (congrArg some (List.map_id xs))

/-- Every list of texts is read back. -/
@[simp] theorem list?_text?_toJson (texts : List Text) :
    list? text? (toJson texts) = some texts :=
  ReadsBack.list text?_toJson texts

/-- The numerals of digests are read as the digests. -/
@[simp] theorem list?_digest?_format (digests : List Digest) :
    list? digest? (toJson (digests.map Digest.format)) = some digests := by
  have hwritten : toJson (digests.map Digest.format) =
      .array (digests.map fun d => toJson d.format) := congrArg Json.array (List.map_map ..)
  rw [hwritten, list?_map digest?_format, List.map_id']

end Json

/-! ## Reading written forms -/

open Json

/-- The segment that is written. -/
def Segment.ofJson? (v : Json) : Option Segment := do
  let firstA ← v.get? int? "file1_start"
  let lastA ← v.get? int? "file1_end"
  let firstB ← v.get? int? "file2_start"
  let lastB ← v.get? int? "file2_end"
  let quote ← v.get? (list? text?) "lines"
  return { inA := ⟨firstA, lastA⟩, inB := ⟨firstB, lastB⟩, quote }

/-- **A segment is read back.** -/
theorem Segment.readsBack : ReadsBack Segment.ofJson? := by
  intro s
  change Segment.ofJson? (.object s.fields) = some s
  simp [Segment.ofJson?, get?, Segment.fields, List.lookup_cons]

/-- The counts that are written. -/
def Stats.ofJson? (v : Json) : Option Stats := do
  let linesA ← v.get? nat? "lines_a"
  let linesB ← v.get? nat? "lines_b"
  let windowsA ← v.get? nat? "windows_a"
  let windowsB ← v.get? nat? "windows_b"
  let shinglesA ← v.get? nat? "shingles_a"
  let shinglesB ← v.get? nat? "shingles_b"
  let intersection ← v.get? nat? "intersection"
  let unionSize ← v.get? nat? "union_size"
  let rawSegments ← v.get? nat? "raw_segments"
  let mergedSegments ← v.get? nat? "merged_segments"
  let matchedDigests ← v.get? (list? digest?) "matched_digests"
  let timed := (v.field? "t_norm_us").isSome
  return {
    timed, linesA, linesB, windowsA, windowsB, shinglesA, shinglesB, intersection, unionSize,
    rawSegments, mergedSegments, matchedDigests }

/-- **Counts are read back**, and whether durations are shown with them. -/
theorem Stats.readsBack : ReadsBack Stats.ofJson? := by
  intro s
  change Stats.ofJson? (.object s.fields) = some s
  -- every field after the first eight is found behind the durations or without them
  cases h : s.timed <;>
    simp [Stats.ofJson?, get?, Stats.fields, List.lookup_cons, h, Stats.durations]
  all_goals exact (congrArg (fun timed => { s with timed }) h.symm)

/-- **Durations are shown if they are asked for**, all of them or none, and each is zero. -/
theorem Stats.field?_durations (s : Stats) :
    ∀ name ∈ Stats.durations.map Prod.fst,
      (toJson s).field? name = if s.timed then some (.int 0) else none := by
  change ∀ name ∈ _, (Json.object s.fields).field? name = _
  cases h : s.timed <;> simp [Stats.fields, List.lookup_cons, h, Stats.durations, toJson]

/-- What a report says about a pair, if it is written so. -/
def ReportItem.ofJson? (v : Json) : Option ReportItem := do
  let idA ← v.get? text? "doc1"
  let idB ← v.get? text? "doc2"
  let score ← v.get? real? "similarity_score"
  let flagged ← v.get? bool? "flagged"
  let segments ← v.get? (list? Segment.ofJson?) "segments"
  let stats ← v.getOptional? Stats.ofJson? "stats"
  return { idA, idB, score, flagged, segments, stats }

/-- **What a report says about a pair is read back.** -/
theorem ReportItem.readsBack : ReadsBack ReportItem.ofJson? := by
  intro r
  change ReportItem.ofJson? (.object r.fields) = some r
  have hsegments := ReadsBack.list Segment.readsBack r.segments
  obtain ⟨idA, idB, score, flagged, segments, stats⟩ := r
  cases stats with
  | none =>
    simp [ReportItem.ofJson?, get?, getOptional?, ReportItem.fields, Stats.field, List.lookup_cons,
      hsegments]
  | some stats =>
    simp [ReportItem.ofJson?, get?, getOptional?, ReportItem.fields, Stats.field, List.lookup_cons,
      hsegments, Stats.readsBack stats]

/-- The report that is written. -/
def Report.ofJson? (v : Json) : Option Report := do
  let threshold ← v.get? real? "threshold"
  let documents ← v.get? nat? "documents"
  let pairs ← v.get? nat? "pairs"
  let flagged ← v.get? nat? "flagged"
  let items ← v.get? (list? ReportItem.ofJson?) "results"
  return { threshold, documents, pairs, flagged, items }

/-- **A report is read back.** -/
theorem Report.readsBack : ReadsBack Report.ofJson? := by
  intro r
  change Report.ofJson? (.object r.fields) = some r
  have hitems := ReadsBack.list ReportItem.readsBack r.items
  simp [Report.ofJson?, get?, Report.fields, List.lookup_cons, hitems]

/-- The answer that is written. -/
def Answer.ofJson? (v : Json) : Option Answer := do
  let score ← v.get? real? "similarity_score"
  let threshold ← v.get? real? "threshold"
  let segments ← v.get? (list? Segment.ofJson?) "matched_segments"
  let stats ← v.getOptional? Stats.ofJson? "stats"
  return { score, threshold, segments, stats }

/-- **An answer is read back.** -/
theorem Answer.readsBack : ReadsBack Answer.ofJson? := by
  intro r
  change Answer.ofJson? (.object r.fields) = some r
  have hsegments := ReadsBack.list Segment.readsBack r.segments
  obtain ⟨score, threshold, segments, stats⟩ := r
  cases stats with
  | none =>
    simp [Answer.ofJson?, get?, getOptional?, Answer.fields, Stats.field, List.lookup_cons, hsegments]
  | some stats =>
    simp [Answer.ofJson?, get?, getOptional?, Answer.fields, Stats.field, List.lookup_cons, hsegments,
      Stats.readsBack stats]

/-! ## The order of names -/

/-- The bytes of a name come before those of another one. -/
def Json.precedes (name other : String) : Bool :=
  (Text.ofAscii name).lex (Text.ofAscii other) fun c d => Nat.blt c.toNat d.toNat

/-- The names in every object ascend. -/
inductive Json.Ordered : Json → Prop
  | bool (b : Bool) : Ordered (.bool b)
  | int (z : Int) : Ordered (.int z)
  | real (x : Binary64) : Ordered (.real x)
  | text (s : Text) : Ordered (.text s)
  | array {items : List Json} (h : ∀ v ∈ items, Ordered v) : Ordered (.array items)
  | object {fields : List (String × Json)} (hnames : (fields.map Prod.fst).Pairwise (precedes · ·))
      (h : ∀ field ∈ fields, Ordered field.2) : Ordered (.object fields)

namespace Json

/-- A truth value has no members to order. -/
@[simp] theorem ordered_toJson_bool (b : Bool) : (toJson b).Ordered := .bool b

/-- A natural number has no members to order. -/
@[simp] theorem ordered_toJson_nat (n : Nat) : (toJson n).Ordered := .int n

/-- An integer has no members to order. -/
@[simp] theorem ordered_toJson_int (z : Int) : (toJson z).Ordered := .int z

/-- A double has no members to order. -/
@[simp] theorem ordered_toJson_real (x : Binary64) : (toJson x).Ordered := .real x

/-- A text has no members to order. -/
@[simp] theorem ordered_toJson_text (s : Text) : (toJson s).Ordered := .text s

/-- A list is in order if its elements are. -/
theorem ordered_toJson_list {α : Type} [ToJson α] (h : ∀ x : α, (toJson x).Ordered) (xs : List α) :
    (toJson xs).Ordered := by
  refine .array fun v hv => ?_
  obtain ⟨x, -, rfl⟩ := List.mem_map.1 hv
  exact h x

/-- A list of texts has no members to order. -/
@[simp] theorem ordered_toJson_texts (texts : List Text) : (toJson texts).Ordered :=
  ordered_toJson_list ordered_toJson_text texts

end Json

/-- The names in a segment ascend. -/
theorem Segment.ordered_toJson (s : Segment) : (toJson s).Ordered := by
  refine .object ?_ (by simp [Segment.fields])
  simp only [Segment.fields, List.map_cons, List.map_nil]
  decide +kernel

/-- The names in a record of counts ascend, with durations and without them. -/
theorem Stats.ordered_toJson (s : Stats) : (toJson s).Ordered := by
  cases h : s.timed with
  | false =>
    refine .object ?_ (by simp [Stats.fields, h])
    simp only [Stats.fields, h, Bool.false_eq_true, if_false, List.append_nil, List.map_append,
      List.map_cons, List.map_nil]
    decide +kernel
  | true =>
    refine .object ?_ (by simp [Stats.fields, Stats.durations, h])
    simp only [Stats.fields, Stats.durations, h, if_true, List.map_append, List.map_cons,
      List.map_nil]
    decide +kernel

/-- The names in what a report says about a pair ascend. -/
theorem ReportItem.ordered_toJson (r : ReportItem) : (toJson r).Ordered := by
  have hsegments := ordered_toJson_list Segment.ordered_toJson r.segments
  refine .object ?_ ?_
  · cases h : r.stats <;>
      simp only [ReportItem.fields, Stats.field, h, Option.toList_none, Option.toList_some,
        List.map_append, List.map_cons, List.map_nil] <;>
      decide +kernel
  · cases h : r.stats <;>
      simp [ReportItem.fields, Stats.field, h, hsegments, Stats.ordered_toJson]

/-- **The names in a report ascend**, in all its parts. -/
theorem Report.ordered_toJson (r : Report) : (toJson r).Ordered := by
  have hitems := ordered_toJson_list ReportItem.ordered_toJson r.items
  refine .object ?_ (by simp [Report.fields, hitems])
  simp only [Report.fields, List.map_cons, List.map_nil]
  decide +kernel

/-- **The names in an answer ascend**, in all its parts. -/
theorem Answer.ordered_toJson (r : Answer) : (toJson r).Ordered := by
  have hsegments := ordered_toJson_list Segment.ordered_toJson r.segments
  refine .object ?_ ?_
  · cases h : r.stats <;>
      simp only [Answer.fields, Stats.field, h, Option.toList_none, Option.toList_some,
        List.map_append, List.map_cons, List.map_nil] <;>
      decide +kernel
  · cases h : r.stats <;>
      simp [Answer.fields, Stats.field, h, hsegments, Stats.ordered_toJson]

end CodeSimilarity
