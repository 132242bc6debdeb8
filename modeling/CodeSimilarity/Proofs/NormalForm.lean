import CodeSimilarity.Proofs.Cleaning
import CodeSimilarity.Proofs.FirstNames
import CodeSimilarity.Proofs.Renaming

set_option autoImplicit false
set_option relaxedAutoImplicit false

/-!
# Documents in normal form

A document in normal form is one that `normalizeLines` leaves as it is. What it looks like can be
said line by line, except for the numbers of the placeholders, which are read off the document as a
whole.

## Main definitions

* `IsClean` — a line that the cleaning of raw lines leaves as it is.
* `IsNormal` — a document of clean lines whose names are `VAR_1`, `VAR_2` and so on.
* `IsRun` — a maximal run of word bytes.
* `Naming.toRenaming` — the placeholders of a naming as a renaming.

## Main results

* `isClean_of_mem_codeLines`, `codeLines_of_isClean` — what survives the cleaning is clean, and
  clean lines survive it.
* `Naming.canonicalizeLines_of_numbered` — placeholders numbered in order are numbered to
  themselves.
* `isNormal_normalizeLines`, `normalizeLines_eq_self_iff` — the normal forms are exactly the
  documents that are kept.
* `normal_form_and_idempotent` — the shape of a normal form, and that normalizing again changes
  nothing.

## Design

That placeholders are put into clean lines is a renaming like any other, so it commutes with
trimming, collapsing and the search for marks, and the lines stay clean.
-/

namespace CodeSimilarity

open Text Comment

/-! ## Clean lines -/

/-- A line of code without surplus blanks and without marks of comments. -/
structure IsClean (line : Text) : Prop where
  /-- There is code. -/
  ne_nil : line ≠ []
  /-- It begins with no blank. -/
  not_isBlank_head : ∀ c ∈ line.head?, ¬ isBlank c
  /-- It ends with no blank. -/
  not_isBlank_last : ∀ c ∈ line.getLast?, ¬ isBlank c
  /-- The only blank is the space. -/
  eq_space : ∀ c ∈ line, isBlank c → c = Byte.space
  /-- No two spaces meet. -/
  not_infix_spaces : ¬ [Byte.space, Byte.space] <:+: line
  /-- There is no `//`. -/
  not_infix_lineMark : ¬ lineMark <:+: line
  /-- There is no `/*`. -/
  not_infix_blockOpen : ¬ blockOpen <:+: line

/-- The clean lines in terms of the functions that make a line clean. -/
theorem isClean_iff {line : Text} :
    IsClean line ↔ line ≠ [] ∧ line.trim = line ∧ collapse line = line ∧
      line.cut? lineMark = none ∧ line.cut? blockOpen = none := by
  rw [trim_eq_self_iff, collapse_eq_self_iff, cut?_eq_none_iff (by decide),
    cut?_eq_none_iff (by decide)]
  constructor
  · intro h
    exact ⟨h.ne_nil, ⟨h.not_isBlank_head, h.not_isBlank_last⟩, ⟨h.eq_space, h.not_infix_spaces⟩,
      h.not_infix_lineMark, h.not_infix_blockOpen⟩
  · rintro ⟨hne, ⟨hhead, hlast⟩, ⟨hspace, hspaces⟩, hline, hopen⟩
    exact ⟨hne, hhead, hlast, hspace, hspaces, hline, hopen⟩

/-- Tidying makes code clean, unless nothing is left. -/
theorem isClean_tidy {code : Text} (hne : code.tidy ≠ []) (hline : ¬ lineMark <:+: code)
    (hopen : ¬ blockOpen <:+: code) : IsClean code.tidy := by
  have hcut : ∀ mark : Text, (∀ c ∈ mark, ¬ isBlank c) → mark ≠ [] → ¬ mark <:+: code →
      code.tidy.cut? mark = none := by
    intro mark hmark hmark' hnot
    have htrim : ¬ mark <:+: code.trim := fun h => hnot (h.trans (trim_isInfix code))
    rw [tidy, cut?_collapse hmark hmark', (cut?_eq_none_iff hmark').2 htrim, Option.map_none]
  refine isClean_iff.2 ⟨hne, ?_, ?_, hcut _ not_isBlank_lineMark (by decide) hline,
    hcut _ not_isBlank_blockOpen (by decide) hopen⟩
  · rw [tidy, trim_collapse, trim_trim]
  · rw [tidy, collapse_collapse]

/-- What survives of a raw line is clean. -/
theorem isClean_of_codeLine {inBlock : Bool} {raw line : Text}
    (h : (codeLine inBlock raw).1 = some line) : IsClean line := by
  have hcode : ∀ s, (contribution (strip false s)).1 = some line → IsClean line := by
    intro s hs
    obtain ⟨hline, hopen⟩ := not_infix_stripCode s
    rw [contribution_strip_false, nonempty?] at hs
    split at hs
    · simp at hs
    · next hne => exact Option.some.inj hs ▸ isClean_tidy hne hline hopen
  rw [codeLine_eq] at h
  cases inBlock with
  | false => exact hcode raw h
  | true =>
    cases hclose : raw.cut? blockClose with
    | none => simp [strip_true_of_unclosed hclose, contribution] at h
    | some parts =>
      rw [strip_true_of_closed hclose] at h
      exact hcode _ h

/-- **What survives the cleaning of a document is clean.** -/
theorem isClean_of_mem_codeLines {inBlock : Bool} {raws : List Text} {line : Text}
    (h : line ∈ codeLines inBlock raws) : IsClean line := by
  induction raws generalizing inBlock with
  | nil => simp [codeLines] at h
  | cons raw raws ih =>
    rw [codeLines_cons, List.mem_append, Option.mem_toList] at h
    rcases h with h | h
    · exact isClean_of_codeLine h
    · exact ih h

/-- A clean line is kept. -/
theorem IsClean.codeLine_eq_self {line : Text} (h : IsClean line) :
    codeLine false line = (some line, false) := by
  obtain ⟨hne, htrim, hcollapse, hline, hopen⟩ := isClean_iff.1 h
  have hstrip : stripCode line = (line, false) := by
    rw [stripCode, dropLine, hline]
    exact dropBlocks_of_none hopen
  have htidy : line.tidy = line := by rw [tidy, htrim, hcollapse]
  rw [codeLine_eq, contribution_strip_false, hstrip, htidy, nonempty?, if_neg hne]

/-- **A document of clean lines is kept by the cleaning.** -/
theorem codeLines_of_isClean {lines : List Text} (h : ∀ line ∈ lines, IsClean line) :
    codeLines false lines = lines := by
  induction lines with
  | nil => rfl
  | cons line lines ih =>
    have hline := (h line List.mem_cons_self).codeLine_eq_self
    rw [codeLines_cons, hline, ih fun l hl => h l (List.mem_cons_of_mem _ hl)]
    rfl

/-- A renaming keeps clean lines clean. -/
theorem IsClean.apply (r : Renaming) {line : Text} (h : IsClean line) : IsClean (r.apply line) := by
  obtain ⟨hne, htrim, hcollapse, hline, hopen⟩ := isClean_iff.1 h
  refine isClean_iff.2 ⟨by simpa using hne, ?_, ?_, ?_, ?_⟩
  · rw [r.trim_apply, htrim]
  · rw [r.collapse_apply, hcollapse]
  · rw [r.cut?_lineMark, hline, Option.map_none]
  · rw [r.cut?_blockOpen, hopen, Option.map_none]

/-! ## Placeholders -/

namespace Naming

/-- No placeholder begins with an `x`. -/
theorem labelOf_ne_prepend {n : Naming} (hn : 0 ≤ n.first) (v w : Text) :
    n.labelOf v ≠ Renaming.prepend.toFun w := by
  intro h
  rw [labelOf_eq hn, label_natCast] at h
  exact absurd (List.cons.inj h).1 (by decide)

/-- The renaming of the names met so far to their placeholders. Any other name gets an `x` before
it. -/
def toRenaming (n : Naming) (hn : 0 ≤ n.first) : Renaming where
  toFun w := if w ∈ n.names then n.labelOf w else Renaming.prepend.toFun w
  isName_toFun w hw := by
    split
    · exact isName_labelOf hn w
    · exact Renaming.prepend.isName_toFun w hw
  injOn := by
    intro v hv w hw h
    dsimp only at h
    split at h <;> split at h
    · next hv' hw' => exact injOn_labelOf hn hv' hw' h
    · exact absurd h (labelOf_ne_prepend hn v w)
    · exact absurd h.symm (labelOf_ne_prepend hn w v)
    · exact Renaming.prepend.injOn hv hw h

/-- **Canonicalizing a document is a renaming.** -/
theorem exists_canonicalizeLines_eq_map (lines : List Text) :
    ∃ r : Renaming, canonicalizeLines {} lines = lines.map r.apply := by
  have hfirst : (after {} lines).first = 1 := (extends_after {} lines).first_eq
  refine ⟨(after {} lines).toRenaming (by rw [hfirst]; decide), ?_⟩
  rw [canonicalizeLines_eq_map]
  refine List.map_congr_left fun line hline => substitute_congr fun p hp hi => ?_
  exact (if_pos (mem_names_after.2 (.inr ⟨hi, line, hline, hp⟩))).symm

/-- The names of a document are numbered from one on, without gaps, in the order of their first
occurrence. -/
def Numbered (lines : List Text) : Prop :=
  firstNames lines = (List.range (firstNames lines).length).map fun k => label (k + 1 : Nat)

/-- The placeholders of a canonical document are numbered from one without gaps. -/
theorem numbered_canonicalizeLines (lines : List Text) : Numbered (canonicalizeLines {} lines) := by
  rw [Numbered, firstNames_canonicalizeLines, List.length_map, List.length_range]

/-- **Placeholders numbered in order are numbered to themselves.** -/
theorem canonicalizeLines_of_numbered {lines : List Text} (h : Numbered lines) :
    canonicalizeLines {} lines = lines := by
  have hfirst : (after {} lines).first = 1 := (extends_after {} lines).first_eq
  have hself : ∀ w ∈ (after {} lines).names, (after {} lines).labelOf w = w := by
    intro w hw
    obtain ⟨k, hk, rfl⟩ := List.getElem_of_mem hw
    have hname := List.getElem_of_eq ((names_after_eq lines).trans h) hk
    rw [labelOf_getElem (nodup_names_after lines) hfirst hk, hname, List.getElem_map,
      List.getElem_range]
  rw [canonicalizeLines_eq_map]
  refine (List.map_congr_left fun line hline => ?_).trans (List.map_id _)
  refine substitute_eq_self fun p hp hi => hself p ?_
  exact mem_names_after.2 (.inr ⟨hi, line, hline, hp⟩)

end Naming

/-! ## Normal forms -/

/-- A document in normal form: its lines are clean, and its names are the placeholders from
`VAR_1` on, in the order of their first occurrence. -/
structure IsNormal (lines : List Text) : Prop where
  /-- The lines are clean. -/
  clean : ∀ line ∈ lines, IsClean line
  /-- The names are numbered. -/
  numbered : Naming.Numbered lines

/-- **The normal form of a document is in normal form.** -/
theorem isNormal_normalizeLines (raws : List Text) : IsNormal (normalizeLines raws) := by
  refine ⟨fun line hline => ?_, Naming.numbered_canonicalizeLines _⟩
  obtain ⟨r, hr⟩ := Naming.exists_canonicalizeLines_eq_map (codeLines false raws)
  rw [normalizeLines, hr] at hline
  obtain ⟨l, hl, rfl⟩ := List.mem_map.1 hline
  exact (isClean_of_mem_codeLines hl).apply r

/-- A document in normal form is kept. -/
theorem IsNormal.normalizeLines_eq {lines : List Text} (h : IsNormal lines) :
    normalizeLines lines = lines := by
  rw [normalizeLines, codeLines_of_isClean h.clean, Naming.canonicalizeLines_of_numbered h.numbered]

/-- **The documents in normal form are exactly those that normalizing keeps.** -/
theorem normalizeLines_eq_self_iff {lines : List Text} :
    normalizeLines lines = lines ↔ IsNormal lines := by
  constructor
  · intro h
    rw [← h]
    exact isNormal_normalizeLines lines
  · exact IsNormal.normalizeLines_eq

/-- A document in normal form is kept when it is written out and read again. -/
theorem IsNormal.normalize_unlines {lines : List Text} (h : IsNormal lines) :
    normalize (unlines lines) = lines := by
  by_cases hne : lines = []
  · -- written out, no lines at all and one empty line are the same
    subst hne
    rfl
  · have hnewline : ∀ line ∈ lines, Byte.newline ∉ line := by
      intro line hline hmem
      exact absurd ((h.clean line hline).eq_space _ hmem (by decide)) (by decide)
    rw [normalize, lines_unlines hne hnewline, h.normalizeLines_eq]

/-! ## Words of a normal form -/

/-- The word `w` stands in the line as a maximal run of word bytes. -/
def IsRun (w line : Text) : Prop :=
  IsWord w ∧ ∃ before after, line = before ++ w ++ after ∧
    (∀ c ∈ before.getLast?, ¬ isWord c) ∧ StartsApart after

/-- A maximal run is one of the pieces of a line. -/
theorem IsRun.mem_pieces {w line : Text} (h : IsRun w line) : w ∈ line.pieces := by
  obtain ⟨hw, before, after, rfl, hbefore, hafter⟩ := h
  have hseam : Seam before (w ++ after) := .inl hbefore
  rw [List.append_assoc, pieces_append hseam, pieces_word_append hw hafter]
  simp

/-- A word that is no identifier starts with a digit or is reserved. -/
theorem startsWithDigit_or_isReserved {w : Text} (hw : IsWord w) (hi : ¬ isIdentifier w) :
    (∃ c ∈ w.head?, isDigit c) ∨ isReserved w := by
  obtain ⟨c, v, rfl, hc, -⟩ := hw.exists_cons
  rw [isWord, Bool.or_eq_true] at hc
  rcases hc with hc | hc
  · refine .inr ?_
    simpa [isIdentifier, hc] using hi
  · exact .inl ⟨c, rfl, hc⟩

/-- A word of a document in normal form starts with a digit, is reserved, or is a placeholder. -/
theorem IsNormal.run_cases {lines : List Text} (h : IsNormal lines) {line w : Text}
    (hline : line ∈ lines) (hw : IsRun w line) :
    (∃ c ∈ w.head?, isDigit c) ∨ isReserved w ∨ ∃ k : Nat, w = Naming.label (k + 1 : Nat) := by
  by_cases hi : isIdentifier w
  · have hmem : w ∈ firstNames lines := mem_firstNames.2 ⟨hi, line, hline, hw.mem_pieces⟩
    rw [h.numbered] at hmem
    obtain ⟨k, -, rfl⟩ := List.mem_map.1 hmem
    exact .inr (.inr ⟨k, rfl⟩)
  · exact (startsWithDigit_or_isReserved hw.1 hi).imp_right .inl

/-- **Normalizing gives a normal form and is idempotent.** In a normal form every word starts with a
digit, is reserved, or is a placeholder. Normalizing the lines again changes nothing, nor does
normalizing the text that they make up. -/
theorem normal_form_and_idempotent (raws : List Text) (text : Text) :
    IsNormal (normalizeLines raws) ∧
      (∀ line ∈ normalizeLines raws, ∀ w, IsRun w line →
        (∃ c ∈ w.head?, isDigit c) ∨ isReserved w ∨ ∃ k : Nat, w = Naming.label (k + 1 : Nat)) ∧
      normalizeLines (normalizeLines raws) = normalizeLines raws ∧
      normalize (unlines (normalize text)) = normalize text := by
  have hnormal := isNormal_normalizeLines raws
  refine ⟨hnormal, fun line hline w hw => hnormal.run_cases hline hw, hnormal.normalizeLines_eq, ?_⟩
  exact (isNormal_normalizeLines text.lines).normalize_unlines

/-- Two lines with comments and a blank one between them, and a word of the normal form that starts
with a digit. -/
theorem normal_form_of_commented :
    normalizeLines [ofAscii "a/* x */ +=  b1; // y", ofAscii " ", ofAscii "\tint c = a + 1u;"] =
        [ofAscii "VAR_1 += VAR_2;", ofAscii "int VAR_3 = VAR_1 + 1u;"] ∧
      IsNormal [ofAscii "VAR_1 += VAR_2;", ofAscii "int VAR_3 = VAR_1 + 1u;"] ∧
      IsRun (ofAscii "1u") (ofAscii "int VAR_3 = VAR_1 + 1u;") ∧
      ((∃ c ∈ (ofAscii "1u").head?, isDigit c) ∨ isReserved (ofAscii "1u") ∨
        ∃ k : Nat, ofAscii "1u" = Naming.label (k + 1 : Nat)) ∧
      normalizeLines [ofAscii "VAR_1 += VAR_2;", ofAscii "int VAR_3 = VAR_1 + 1u;"] =
        [ofAscii "VAR_1 += VAR_2;", ofAscii "int VAR_3 = VAR_1 + 1u;"] := by
  have hlines : normalizeLines
      [ofAscii "a/* x */ +=  b1; // y", ofAscii " ", ofAscii "\tint c = a + 1u;"] =
        [ofAscii "VAR_1 += VAR_2;", ofAscii "int VAR_3 = VAR_1 + 1u;"] := by decide +kernel
  have hrun : IsRun (ofAscii "1u") (ofAscii "int VAR_3 = VAR_1 + 1u;") :=
    ⟨⟨by decide, List.all_eq_true.1 (by decide)⟩, ofAscii "int VAR_3 = VAR_1 + ", ofAscii ";", rfl,
      fun c hc => Option.some.inj hc ▸ by decide, by decide⟩
  obtain ⟨hnormal, hwords, hidem, -⟩ := normal_form_and_idempotent
    [ofAscii "a/* x */ +=  b1; // y", ofAscii " ", ofAscii "\tint c = a + 1u;"] []
  rw [hlines] at hnormal hwords hidem
  exact ⟨hlines, hnormal, hrun, hwords _ (by simp) _ hrun, hidem⟩

end CodeSimilarity
