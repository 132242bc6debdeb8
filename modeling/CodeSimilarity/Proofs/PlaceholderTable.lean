import CodeSimilarity.Proofs.FirstNames
import Mathlib.Data.List.Induction
import Mathlib.Data.List.Nodup

set_option autoImplicit false
set_option relaxedAutoImplicit false

/-!
# A naming as a table of placeholders

A naming keeps its names in order and no placeholders, since these can be worked out. Seen from
outside it is a table in which each name has its placeholder, with a counter for the next new name.
However it is used, by asking for single placeholders or by canonicalizing lines, the table numbers
the names in the order of their first request, and from any later table a canonicalized line can be
turned back.

## Main definitions

* `Naming.Use`, `Naming.afterUses` — requests and lines, and the naming after a sequence of them.
* `Table`, `Naming.table` — placeholders by their names and a counter; the table of a naming.
* `Table.request`, `Table.canonicalize` — a table in use.
* `Table.Numbers` — a table numbers requests from a given number on.
* `Table.restore` — a line with the owners of its placeholders put back.

## Main results

* `Naming.afterUses_eq` — every use is a sequence of requests.
* `Naming.request_table` — a request looks up the table, or adds the next placeholder to it.
* `Naming.canonicalize_table`, `Naming.canonicalizeLines_table` — the table canonicalizes as the
  naming does.
* `Naming.restore_canonicalize` — any later table turns a canonicalized line back.
* `Naming.table_numbers_and_restores` — all of it, for any sequence of uses.
-/

namespace CodeSimilarity

open Text

/-! ## Tables -/

/-- Placeholders by their names, and the number that the next new name gets. -/
structure Table where
  /-- The names with their placeholders, the earliest first. -/
  stored : List (Text × Text)
  /-- The number of the next new name. -/
  next : Int
deriving DecidableEq

namespace Table

/-- The placeholder that is stored with a name. If there is none, the placeholder with the next
number is stored, and the counter moves on. -/
def request (t : Table) (name : Text) : Text × Table :=
  match t.stored.lookup name with
  | some placeholder => (placeholder, t)
  | none =>
    (Naming.label t.next, ⟨t.stored ++ [(name, Naming.label t.next)], t.next + 1⟩)

/-- The pieces of a line with the placeholders that the table gives to the identifiers among them,
and the table after that. -/
def canonicalizePieces (t : Table) : List Text → List Text × Table
  | [] => ([], t)
  | p :: ps =>
    if isIdentifier p then
      let (placeholder, t') := t.request p
      let (rest, t'') := canonicalizePieces t' ps
      (placeholder :: rest, t'')
    else
      let (rest, t') := canonicalizePieces t ps
      (p :: rest, t')

/-- A line with the placeholders that the table gives to its identifiers, and the table after
that. -/
def canonicalize (t : Table) (line : Text) : Text × Table :=
  let (pieces, t') := t.canonicalizePieces line.pieces
  (pieces.flatten, t')

/-- The lines of a document with the placeholders that the table gives to their identifiers. -/
def canonicalizeLines (t : Table) : List Text → List Text
  | [] => []
  | line :: lines => (t.canonicalize line).1 :: (t.canonicalize line).2.canonicalizeLines lines

/-- The name that a placeholder is stored with. -/
def owner? (t : Table) (placeholder : Text) : Option Text :=
  (t.stored.find? fun entry => entry.2 == placeholder).map Prod.fst

/-- The text with each identifier replaced by its owner, if it is a placeholder with an owner. -/
def restore (t : Table) (s : Text) : Text :=
  substitute (fun w => (t.owner? w).getD w) s

/-- The table numbers the names that were asked for from `first` on: each is stored once, in the
order of the first request, with one of the numbers up to the counter. -/
structure Numbers (t : Table) (first : Nat) (asked : List Text) : Prop where
  next_eq : t.next = first + t.stored.length
  placeholders_eq : t.stored.map Prod.snd =
    (List.range t.stored.length).map fun k => Naming.label (first + k : Nat)
  names_eq : t.stored.map Prod.fst = asked.eraseDups
  nodup_names : (t.stored.map Prod.fst).Nodup
  nodup_placeholders : (t.stored.map Prod.snd).Nodup

end Table

namespace Naming

/-! ## Uses -/

/-- One use of a naming. -/
inductive Use where
  /-- The placeholder of a name is asked for, which may be any bytes. -/
  | request (name : Text)
  /-- A line is canonicalized. -/
  | canonicalize (line : Text)
deriving DecidableEq, Repr

/-- The result of a use, and the naming after it. -/
def Use.run (n : Naming) : Use → Text × Naming
  | .request name => n.placeholder name
  | .canonicalize line => n.canonicalize line

/-- The names that a use asks for, in order. -/
def Use.asked : Use → List Text
  | .request name => [name]
  | .canonicalize line => line.pieces.filter isIdentifier

/-- The naming after a sequence of uses. -/
def afterUses (n : Naming) : List Use → Naming
  | [] => n
  | use :: uses => (use.run n).2.afterUses uses

/-- The naming after asking for some placeholders. -/
def requests (n : Naming) (names : List Text) : Naming :=
  names.foldl (fun n name => (n.placeholder name).2) n

/-- Names that are asked for one after the other may be asked for in two parts. -/
theorem requests_append (n : Naming) (names names' : List Text) :
    n.requests (names ++ names') = (n.requests names).requests names' :=
  List.foldl_append

/-- Canonicalizing pieces asks for the identifiers among them. -/
theorem canonicalizePieces_snd (n : Naming) (ps : List Text) :
    (n.canonicalizePieces ps).2 = n.requests (ps.filter isIdentifier) := by
  induction ps generalizing n with
  | nil => rfl
  | cons p ps ih =>
    by_cases hp : isIdentifier p
    · rw [canonicalizePieces_cons_of_isIdentifier hp, List.filter_cons_of_pos hp]
      exact ih _
    · rw [canonicalizePieces_cons_of_not_isIdentifier hp, List.filter_cons_of_neg hp]
      exact ih n

/-- One use is a sequence of requests. -/
theorem run_snd (n : Naming) (use : Use) : (use.run n).2 = n.requests use.asked := by
  cases use with
  | request name => rfl
  | canonicalize line => exact canonicalizePieces_snd n line.pieces

/-- **Every sequence of uses is a sequence of requests.** -/
theorem afterUses_eq (n : Naming) (uses : List Use) :
    n.afterUses uses = n.requests (uses.flatMap Use.asked) := by
  induction uses generalizing n with
  | nil => rfl
  | cons use uses ih => rw [afterUses, ih, run_snd, List.flatMap_cons, requests_append]

/-- Asking for placeholders extends a naming. -/
theorem extends_requests (n : Naming) (names : List Text) : n.Extends (n.requests names) := by
  induction names generalizing n with
  | nil => exact .refl n
  | cons name names ih => exact (extends_placeholder n name).trans (ih _)

/-- Uses only add names. -/
theorem extends_afterUses (n : Naming) (uses : List Use) : n.Extends (n.afterUses uses) :=
  afterUses_eq n uses ▸ extends_requests n _

/-- Names are met in the order of their first request. -/
theorem names_requests (first : Int) (names : List Text) :
    (requests { first := first } names).names = names.eraseDups := by
  induction names using List.reverseRecOn with
  | nil => rfl
  | append_singleton names name ih =>
    have hstep : requests { first := first } (names ++ [name]) =
        ((requests { first := first } names).placeholder name).2 := requests_append _ _ _
    rw [hstep, names_placeholder, ih, List.eraseDups_append]
    by_cases hmem : name ∈ names
    · rw [if_pos (List.mem_eraseDups.2 hmem)]
      simp [List.removeAll, hmem]
    · rw [if_neg (mt List.mem_eraseDups.1 hmem)]
      simp [List.removeAll, hmem, List.eraseDups_cons]

/-! ## The table of a naming -/

/-- The table of the names met so far. -/
def table (n : Naming) : Table where
  stored := n.names.map fun name => (name, n.labelOf name)
  next := n.next

/-- The table lists the names in the order in which they were met. -/
theorem map_fst_table (n : Naming) : n.table.stored.map Prod.fst = n.names := by
  rw [table, List.map_map]
  exact List.map_id _

/-- The table stores the placeholder of each name. -/
theorem map_snd_table (n : Naming) : n.table.stored.map Prod.snd = n.names.map n.labelOf := by
  rw [table, List.map_map]
  rfl

/-- The table has one entry for each name. -/
theorem length_table (n : Naming) : n.table.stored.length = n.names.length :=
  List.length_map _

/-- A name that was met is found with its placeholder. -/
theorem lookup_table_of_mem {n : Naming} {name : Text} (h : name ∈ n.names) :
    n.table.stored.lookup name = some (n.labelOf name) :=
  List.lookup_graph n.labelOf h

/-- A name that was not met is not found. -/
theorem lookup_table_of_notMem {n : Naming} {name : Text} (h : name ∉ n.names) :
    n.table.stored.lookup name = none := by
  rw [List.lookup_eq_none_iff]
  intro entry hentry
  obtain ⟨other, hother, rfl⟩ := List.mem_map.1 hentry
  have hne : name ≠ other := fun he => h (he ▸ hother)
  simpa using hne

/-- An older naming's part of the table stays as it is. -/
theorem Extends.isPrefix_table {n m : Naming} (h : n.Extends m) :
    n.table.stored <+: m.table.stored := by
  obtain ⟨later, hlater⟩ := h.names_isPrefix
  refine ⟨later.map fun name => (name, m.labelOf name), ?_⟩
  rw [table, table, ← hlater, List.map_append]
  refine congrArg (· ++ _) (List.map_congr_left fun name hname => ?_)
  rw [h.labelOf_eq hname]

/-- **A request looks up the table**, and adds the next placeholder to it if the name is new. -/
theorem request_table (n : Naming) (name : Text) :
    n.table.request name = ((n.placeholder name).1, (n.placeholder name).2.table) := by
  by_cases h : name ∈ n.names
  · rw [Table.request, lookup_table_of_mem h, placeholder_of_some (number?_of_mem h)]
    rfl
  · have hnew := placeholder_of_none (number?_eq_none_iff.2 h)
    have hlabel := placeholder_fst n name
    have hext := extends_placeholder n name
    rw [hnew] at hlabel hext
    have hold : n.names.map (fun w => (w, labelOf { n with names := n.names ++ [name] } w)) =
        n.table.stored :=
      List.map_congr_left fun w hw => congrArg (Prod.mk w) (hext.labelOf_eq hw)
    have hnext : next { n with names := n.names ++ [name] } = n.next + 1 := by
      simp [next, Int.add_assoc]
    rw [Table.request, lookup_table_of_notMem h, hnew]
    simp only [table, List.map_append, hold, hnext, List.map_singleton, ← hlabel]

/-- The table replaces the identifiers among some pieces as the naming does. -/
theorem canonicalizePieces_table (n : Naming) (ps : List Text) :
    n.table.canonicalizePieces ps =
      ((n.canonicalizePieces ps).1, (n.canonicalizePieces ps).2.table) := by
  induction ps generalizing n with
  | nil => rfl
  | cons p ps ih =>
    by_cases hp : isIdentifier p
    · rw [canonicalizePieces_cons_of_isIdentifier hp]
      simp only [Table.canonicalizePieces, if_pos hp, request_table, ih]
    · rw [canonicalizePieces_cons_of_not_isIdentifier hp]
      simp only [Table.canonicalizePieces, if_neg hp, ih]

/-- **The table canonicalizes a line** as the naming does. -/
theorem canonicalize_table (n : Naming) (line : Text) :
    n.table.canonicalize line = ((n.canonicalize line).1, (n.canonicalize line).2.table) := by
  rw [Table.canonicalize, canonicalizePieces_table]
  rfl

/-- The table canonicalizes the lines of a document as the naming does. -/
theorem canonicalizeLines_table (n : Naming) (lines : List Text) :
    n.table.canonicalizeLines lines = n.canonicalizeLines lines := by
  induction lines generalizing n with
  | nil => rfl
  | cons line lines ih =>
    rw [Table.canonicalizeLines, canonicalizeLines, canonicalize_table, ih]

/-- A name owns its placeholder. -/
theorem owner?_labelOf {n : Naming} (hn : 0 ≤ n.first) {name : Text} (h : name ∈ n.names) :
    n.table.owner? (n.labelOf name) = some name := by
  have hfind : n.names.find? (fun w => n.labelOf w == n.labelOf name) = some name := by
    cases hcase : n.names.find? fun w => n.labelOf w == n.labelOf name with
    | none => exact absurd (List.find?_eq_none.1 hcase name h) (by simp)
    | some w =>
      have hlabel : n.labelOf w = n.labelOf name := by simpa using List.find?_some hcase
      rw [injOn_labelOf hn (List.mem_of_find?_eq_some hcase) h hlabel]
  rw [Table.owner?, table, List.find?_map, Option.map_map]
  exact (congrArg (Option.map _) hfind).trans rfl

/-! ## Turning lines back -/

/-- **Any later table turns a canonicalized line back.** No word that was kept is mistaken for a
placeholder, since a word that looks like one has been replaced itself. -/
theorem restore_canonicalize {n m : Naming} (hm : 0 ≤ m.first) {line : Text}
    (h : (n.canonicalize line).2.Extends m) : m.table.restore (n.canonicalize line).1 = line := by
  have hline : (n.canonicalize line).1 = substitute m.labelOf line :=
    congrArg List.flatten (canonicalizePieces_fst h)
  have hmem : ∀ p ∈ line.pieces, isIdentifier p → p ∈ m.names := by
    intro p hp hi
    exact h.names_isPrefix.subset (mem_names_canonicalizePieces.2 (.inr ⟨hp, hi⟩))
  have hback : (line.pieces.map (substPiece m.labelOf)).map
      (substPiece fun w => (m.table.owner? w).getD w) = line.pieces := by
    rw [List.map_map]
    refine (List.map_congr_left fun p hp => ?_).trans (List.map_id _)
    by_cases hi : isIdentifier p
    · rw [Function.comp_apply, substPiece_of_isIdentifier hi,
        substPiece_of_isIdentifier (isName_labelOf hm p).2, owner?_labelOf hm (hmem p hp hi)]
      rfl
    · rw [Function.comp_apply, substPiece_of_not_isIdentifier hi, substPiece_of_not_isIdentifier hi]
      rfl
  rw [hline, Table.restore, substitute, pieces_substitute fun p _ _ => (isName_labelOf hm p).1,
    hback, flatten_pieces]

/-! ## All uses -/

/-- The table of a naming numbers what it was asked for. -/
theorem numbers_table (first : Nat) (names : List Text) :
    (requests { first := first } names).table.Numbers first names := by
  have hfirst : (requests { first := first } names).first = first :=
    (extends_requests { first := first } names).first_eq
  have hnames := names_requests first names
  generalize requests { first := first } names = n at hfirst hnames
  have hnonneg : 0 ≤ n.first := hfirst ▸ Int.natCast_nonneg first
  have hnodup : n.names.Nodup := hnames ▸ nodup_eraseDups names
  refine ⟨?_, ?_, (map_fst_table n).trans hnames, (map_fst_table n).symm ▸ hnodup, ?_⟩
  · rw [length_table, ← hfirst]
    rfl
  · rw [map_snd_table, length_table]
    refine List.ext_getElem (by simp) fun k hk _ => ?_
    rw [List.getElem_map, List.getElem_map, List.getElem_range, labelOf_eq hnonneg,
      hnodup.idxOf_getElem, hfirst, Int.toNat_natCast]
  · rw [map_snd_table]
    exact List.Nodup.map_on (fun v hv w hw => injOn_labelOf hnonneg hv hw) hnodup

/-- **However a naming is used, its table numbers the requests and turns lines back.** After any
sequence of uses, a request looks up the table or adds the next placeholder, and a line is
canonicalized by such requests; what is stored stays through all later uses; and a line that is
canonicalized then can be turned back from the table after it, or from any later one. -/
theorem table_numbers_and_restores (first : Nat) (uses : List Use) :
    let n := afterUses { first := first } uses
    n.table.Numbers first (uses.flatMap Use.asked) ∧
      (∀ name, n.table.request name = ((n.placeholder name).1, (n.placeholder name).2.table)) ∧
      (∀ line, n.table.canonicalize line =
        ((n.canonicalize line).1, (n.canonicalize line).2.table)) ∧
      (∀ later, n.table.stored <+: (n.afterUses later).table.stored) ∧
      ∀ line later,
        ((n.canonicalize line).2.afterUses later).table.restore (n.canonicalize line).1 = line := by
  intro n
  refine ⟨?_, request_table n, canonicalize_table n,
    fun later => (extends_afterUses n later).isPrefix_table, fun line later => ?_⟩
  · have hn : n = requests { first := first } (uses.flatMap Use.asked) := afterUses_eq _ uses
    rw [hn]
    exact numbers_table first _
  · have hext := extends_afterUses (n.canonicalize line).2 later
    have hfirst : ((n.canonicalize line).2.afterUses later).first = first :=
      (((extends_afterUses { first := first } uses).trans
        (extends_canonicalizePieces n line.pieces)).trans hext).first_eq
    exact restore_canonicalize (hfirst ▸ Int.natCast_nonneg first) hext

/-- A reserved word that was asked for keeps its spelling in a line, and a name that looks like its
placeholder gets another one. -/
example : (canonicalize (afterUses { first := 2 } [.request (ofAscii "int")])
    (ofAscii "int VAR_2 = x;")).1 = ofAscii "int VAR_3 = VAR_4;" := by
  decide +kernel

end Naming

end CodeSimilarity
