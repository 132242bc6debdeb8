import CodeSimilarity.Proofs.Comments
import Mathlib.Logic.Relation

set_option autoImplicit false
set_option relaxedAutoImplicit false

/-!
# Taking comments out of a line in one pass

Comments are taken out of a line by searching and cutting: first the line comment, then one block
comment after the other, each time from the front of what is left. A scanner that reads the line
once from left to right and never looks back finds the same comments, unless a `//` hides inside a
block comment of the line.

## Main definitions

* `Comment.Mode`, `Comment.Region` — where the scanner stands, and what it takes a byte for.
* `Comment.scan` — one pass over a line.
* `Comment.LineMarksShown` — no `//` starts inside a block comment that the scanner finds.
* `Comment.Erases` — one turn of the loop that takes out block comments.

## Main results

* `Comment.scan_induction` — induction along the steps of a scan.
* `Comment.stripCode_eq_scan` — outside block comments, searching and cutting is scanning.
* `Comment.wellFounded_erases`, `Comment.exists_erases` — the loop ends, and what it ends with.
* `Comment.strip_eq_scan` — with a flag carried from the line before.
-/

namespace CodeSimilarity.Comment

open Text

/-! ## The scanner -/

/-- Where the scanner stands in a line. -/
inductive Mode
  /-- Outside block comments. -/
  | code
  /-- Inside a block comment. -/
  | block
deriving DecidableEq, Repr

/-- The mode in which a line begins, by the flag carried from the line before. -/
def Mode.ofFlag (inBlock : Bool) : Mode :=
  if inBlock then .block else .code

/-- The flag that the next line gets. -/
def Mode.toFlag : Mode → Bool
  | .code => false
  | .block => true

/-- What the scanner takes a byte for. -/
inductive Region
  /-- A byte of code. -/
  | code
  /-- A byte of a line comment, the mark included. -/
  | lineComment
  /-- A byte of a block comment, its marks included. -/
  | blockComment
deriving DecidableEq, Repr

/-- The outcome of a scan. -/
structure Scan where
  /-- The bytes that were read, each with what it was taken for. -/
  bytes : List (UInt8 × Region)
  /-- The mode at the end of the line. -/
  mode : Mode
deriving DecidableEq, Repr

namespace Scan

/-- The outcome if the bytes of `s` were read before, all of them as part of `region`. -/
def prepend (s : Text) (region : Region) (scan : Scan) : Scan :=
  ⟨s.map (·, region) ++ scan.bytes, scan.mode⟩

/-- What is kept of the line: its bytes of code. -/
def kept (scan : Scan) : Text :=
  (scan.bytes.filter (·.2 = .code)).map Prod.fst

/-- What the bytes were taken for. -/
def regions (scan : Scan) : List Region :=
  scan.bytes.map Prod.snd

/-- Bytes read before do not change where the pass ends. -/
@[simp] theorem mode_prepend (s : Text) (region : Region) (scan : Scan) :
    (scan.prepend s region).mode = scan.mode := rfl

/-- Bytes read before have their region each. -/
@[simp] theorem regions_prepend (s : Text) (region : Region) (scan : Scan) :
    (scan.prepend s region).regions = List.replicate s.length region ++ scan.regions := by
  simp [prepend, regions, Function.comp_def]

/-- Code that is read before is kept. -/
@[simp] theorem kept_prepend_code (s : Text) (scan : Scan) :
    (scan.prepend s .code).kept = s ++ scan.kept := by
  simp [prepend, kept, List.filter_map, Function.comp_def]

/-- Of comments that are read before, nothing is kept. -/
theorem kept_prepend_of_ne {region : Region} (h : region ≠ .code) (s : Text) (scan : Scan) :
    (scan.prepend s region).kept = scan.kept := by
  simp [prepend, kept, List.filter_map, Function.comp_def, h]

/-- Two stretches of one region are one stretch. -/
theorem prepend_prepend (s t : Text) (region : Region) (scan : Scan) :
    (scan.prepend t region).prepend s region = scan.prepend (s ++ t) region := by
  simp [prepend]

end Scan

/-- One pass over a line from left to right, with one byte of look-ahead. In code, `//` drops the
rest of the line and `/*` begins a block comment. In a block comment, `*/` goes back to code. -/
def scan : Mode → Text → Scan
  | mode, [] => ⟨[], mode⟩
  | .code, [c] => Scan.prepend [c] .code ⟨[], .code⟩
  | .block, [c] => Scan.prepend [c] .blockComment ⟨[], .block⟩
  | .code, c :: d :: s =>
    if [c, d] = lineMark then Scan.prepend (c :: d :: s) .lineComment ⟨[], .code⟩
    else if [c, d] = blockOpen then (scan .block s).prepend [c, d] .blockComment
    else (scan .code (d :: s)).prepend [c] .code
  | .block, c :: d :: s =>
    if [c, d] = blockClose then (scan .code s).prepend [c, d] .blockComment
    else (scan .block (d :: s)).prepend [c] .blockComment

/-- A mark of two bytes is at the front of a text exactly if it is the first two bytes. -/
private theorem isPrefix_iff_of_length_two {mark : Text} (hm : mark.length = 2) {c d : UInt8}
    {s : Text} : mark <+: c :: d :: s ↔ [c, d] = mark := by
  obtain ⟨x, y, rfl⟩ := List.length_eq_two.1 hm
  simp [List.cons_prefix_cons, eq_comm]

/-- A line comment takes the rest of the line. -/
theorem scan_lineMark (s : Text) :
    scan .code (lineMark ++ s) = Scan.prepend (lineMark ++ s) .lineComment ⟨[], .code⟩ := rfl

/-- An opening mark leads from code into a block comment. -/
theorem scan_blockOpen (s : Text) :
    scan .code (blockOpen ++ s) = (scan .block s).prepend blockOpen .blockComment := rfl

/-- A closing mark leads from a block comment back to code. -/
theorem scan_blockClose (s : Text) :
    scan .block (blockClose ++ s) = (scan .code s).prepend blockClose .blockComment := rfl

/-- In code, a byte at which no comment begins is a byte of code. -/
theorem scan_code_cons {c : UInt8} {s : Text} (hline : ¬ lineMark <+: c :: s)
    (hopen : ¬ blockOpen <+: c :: s) : scan .code (c :: s) = (scan .code s).prepend [c] .code := by
  cases s with
  | nil => rfl
  | cons d s =>
    rw [isPrefix_iff_of_length_two rfl] at hline hopen
    rw [scan, if_neg hline, if_neg hopen]

/-- In a block comment, a byte at which no `*/` begins is passed over. -/
theorem scan_block_cons {c : UInt8} {s : Text} (hclose : ¬ blockClose <+: c :: s) :
    scan .block (c :: s) = (scan .block s).prepend [c] .blockComment := by
  cases s with
  | nil => rfl
  | cons d s =>
    rw [isPrefix_iff_of_length_two rfl] at hclose
    rw [scan, if_neg hclose]

/-- A block comment that nothing closes takes the rest of the line. -/
theorem scan_block_of_unclosed {s : Text} (h : s.cut? blockClose = none) :
    scan .block s = Scan.prepend s .blockComment ⟨[], .block⟩ := by
  induction s with
  | nil => rfl
  | cons c s ih =>
    have hnot := (cut?_eq_none_iff (by decide)).1 h
    rw [List.infix_cons_iff, not_or] at hnot
    rw [scan_block_cons hnot.1, ih ((cut?_eq_none_iff (by decide)).2 hnot.2),
      Scan.prepend_prepend, List.singleton_append]

/-- A block comment ends with the first `*/`. -/
theorem scan_block_of_closed {s comment after : Text}
    (h : s.cut? blockClose = some (comment, after)) :
    scan .block s = (scan .code after).prepend (comment ++ blockClose) .blockComment := by
  induction s generalizing comment with
  | nil => simp [cut?] at h
  | cons c s ih =>
    by_cases hp : blockClose <+: c :: s
    · obtain ⟨r, hr⟩ := hp
      rw [← hr, cut?_mark_append (by decide), Option.some.injEq, Prod.mk.injEq] at h
      obtain ⟨rfl, rfl⟩ := h
      rw [← hr, scan_blockClose, List.nil_append]
    · rw [cut?_cons_skip hp] at h
      obtain ⟨⟨b, a⟩, hba, he⟩ := Option.map_eq_some_iff.1 h
      obtain ⟨rfl, rfl⟩ := Prod.mk.inj he
      rw [scan_block_cons hp, ih hba, Scan.prepend_prepend]
      rfl

/-- **Induction along the steps of a scan** that begins in code: the text is empty, or it begins
with a line comment, with a block comment that nothing closes, with a block comment after which
the text goes on, or with a byte of code. -/
theorem scan_induction {motive : Text → Prop} (nil : motive [])
    (line : ∀ s, motive (lineMark ++ s))
    (unclosed : ∀ inside, inside.cut? blockClose = none → motive (blockOpen ++ inside))
    (closed : ∀ inside comment after, inside.cut? blockClose = some (comment, after) →
      motive after → motive (blockOpen ++ inside))
    (byte : ∀ c s, ¬ lineMark <+: c :: s → ¬ blockOpen <+: c :: s → motive s → motive (c :: s))
    (s : Text) : motive s := by
  induction hn : s.length using Nat.strong_induction_on generalizing s with
  | _ n ih =>
    cases s with
    | nil => exact nil
    | cons c s =>
      by_cases hline : lineMark <+: c :: s
      · obtain ⟨r, hr⟩ := hline
        exact hr ▸ line r
      by_cases hopen : blockOpen <+: c :: s
      · obtain ⟨inside, hinside⟩ := hopen
        cases hclose : cut? inside blockClose with
        | none => exact hinside ▸ unclosed inside hclose
        | some parts =>
          have hlength := length_of_closed (cut?_mark_append (by decide) inside) hclose
          have hlt : parts.2.length < n := by
            rw [← hn, ← hinside, hlength]
            omega
          exact hinside ▸ closed inside parts.1 parts.2 hclose (ih _ hlt _ rfl)
      · exact byte c s hline hopen (ih _ (by simp [← hn]) s rfl)

/-! ## Line comments inside block comments -/

/-- No `//` of the text starts at a byte that the scanner takes for a part of a block comment. -/
def LineMarksShown (s : Text) : Prop :=
  ∀ k < s.length, lineMark <+: s.drop k → (scan .code s).regions[k]? ≠ some .blockComment

instance (s : Text) : Decidable (LineMarksShown s) := by
  unfold LineMarksShown
  infer_instance

/-- After what the scanner has passed, the rest of the text shows its `//`, too. -/
theorem LineMarksShown.of_prepend {s t : Text} {region : Region} (h : LineMarksShown (s ++ t))
    (hscan : scan .code (s ++ t) = (scan .code t).prepend s region) : LineMarksShown t := by
  intro k hk hmark
  have hshown := h (s.length + k) (by rw [List.length_append]; omega)
  rw [hscan, Scan.regions_prepend, List.drop_append, List.drop_of_length_le (by omega),
    List.nil_append, Nat.add_sub_cancel_left] at hshown
  have hregion := hshown hmark
  rwa [List.getElem?_append_right (by simp), List.length_replicate,
    Nat.add_sub_cancel_left] at hregion

/-- No `//` starts in what the scanner has passed as a block comment. -/
theorem LineMarksShown.not_mark {s t : Text} {scan' : Scan} (h : LineMarksShown (s ++ t))
    (hscan : scan .code (s ++ t) = scan'.prepend s .blockComment) {k : Nat} (hk : k < s.length) :
    ¬ lineMark <+: (s ++ t).drop k := by
  intro hmark
  refine h k (by rw [List.length_append]; omega) hmark ?_
  rw [hscan, Scan.regions_prepend, List.getElem?_append_left (by simpa), List.getElem?_replicate,
    if_pos hk]

/-- The search for `//` passes over bytes at which none starts. -/
theorem dropLine_append {s t : Text} (h : ∀ k < s.length, ¬ lineMark <+: (s ++ t).drop k) :
    dropLine (s ++ t) = s ++ dropLine t := by
  induction s with
  | nil => rfl
  | cons c s ih =>
    have hhead : ¬ lineMark <+: c :: (s ++ t) := h 0 (by simp)
    have htail : ∀ k < s.length, ¬ lineMark <+: (s ++ t).drop k := by
      intro k hk
      exact h (k + 1) (by simpa using hk)
    rw [List.cons_append, List.cons_append, ← ih htail, dropLine_cons hhead]

/-- Block comments are looked for behind a byte at which no comment begins. -/
theorem dropBlocks_cons {c : UInt8} {s : Text} (hline : ¬ lineMark <+: c :: s)
    (hopen : ¬ blockOpen <+: c :: s) :
    dropBlocks (c :: s) = (c :: (dropBlocks s).1, (dropBlocks s).2) := by
  have hone : ∀ d, ¬ blockOpen <:+: [d] := fun d h => absurd h.length_le (by simp [blockOpen])
  by_cases hc : c = Byte.slash
  · subst hc
    cases s with
    | nil => rw [dropBlocks_of_none (by decide), dropBlocks_of_none (by decide)]
    | cons d s =>
      rw [isPrefix_iff_of_length_two rfl] at hline hopen
      have hd : d ≠ Byte.slash := fun h => hline (by rw [h]; rfl)
      have htwo : ¬ blockOpen <:+: [Byte.slash, d] := fun h => hopen (h.eq_of_length rfl).symm
      -- the slash begins no mark, but alone it might, so the byte after it goes along
      have hpair := dropBlocks_append htwo (by simpa using hd) s
      have hbyte := dropBlocks_append (hone d) (by simpa using hd) s
      rw [List.singleton_append] at hbyte
      rw [hbyte]
      exact hpair
  · exact dropBlocks_append (hone c) (by simpa using hc) s

/-! ## Searching and cutting is scanning -/

/-- **Outside block comments, searching and cutting is scanning**, if the text shows its `//`.

**Proof sketch.** Along the steps of the scan. Where a block comment of the line is passed, no `//`
starts in it, so the first `//` of the text is the first one behind the comment, and taking out
the comment leaves what is behind it. -/
theorem stripCode_eq_scan {s : Text} (h : LineMarksShown s) :
    stripCode s = ((scan .code s).kept, (scan .code s).mode.toFlag) := by
  induction s using scan_induction with
  | nil =>
    rw [stripCode, dropBlocks_of_none rfl]
    rfl
  | line s =>
    have hdrop : dropLine (lineMark ++ s) = [] := by rw [dropLine, cut?_mark_append (by decide)]
    rw [stripCode, hdrop, dropBlocks_of_none rfl, scan_lineMark,
      Scan.kept_prepend_of_ne (by decide)]
    rfl
  | unclosed inside hclose =>
    have hscan : scan .code (blockOpen ++ inside ++ []) =
        Scan.prepend (blockOpen ++ inside) .blockComment ⟨[], .block⟩ := by
      rw [List.append_nil, scan_blockOpen, scan_block_of_unclosed hclose, Scan.prepend_prepend]
    rw [← List.append_nil (blockOpen ++ inside)] at h
    have hdrop : dropLine (blockOpen ++ inside) = blockOpen ++ inside := by
      simpa [dropLine, cut?] using dropLine_append fun k hk => h.not_mark hscan hk
    rw [List.append_nil] at hscan
    rw [stripCode, hdrop, dropBlocks_of_unclosed (cut?_mark_append (by decide) inside) hclose,
      hscan, Scan.kept_prepend_of_ne (by decide)]
    rfl
  | closed inside comment after hclose ih =>
    obtain rfl := cut?_eq_some hclose
    have hfirst := not_infix_of_cut? (by decide) hclose
    have hscan : scan .code (blockOpen ++ (comment ++ blockClose) ++ after) =
        (scan .code after).prepend (blockOpen ++ (comment ++ blockClose)) .blockComment := by
      rw [List.append_assoc, scan_blockOpen, scan_block_of_closed hclose, Scan.prepend_prepend]
    rw [← List.append_assoc] at h ⊢
    have hdrop := dropLine_append fun k hk => h.not_mark hscan hk
    have hblocks : dropBlocks (blockOpen ++ (comment ++ blockClose) ++ dropLine after) =
        stripCode after := by
      rw [List.append_assoc]
      exact dropBlocks_of_closed (cut?_mark_append (by decide) _)
        (cut?_of_first (by decide) hfirst (dropLine after))
    rw [stripCode, hdrop, hblocks, hscan, Scan.kept_prepend_of_ne (by decide), Scan.mode_prepend]
    exact ih (h.of_prepend hscan)
  | byte c s hline hopen ih =>
    have hscan := scan_code_cons hline hopen
    have hdrop : dropLine (c :: s) = c :: dropLine s :=
      dropLine_append (s := [c]) fun k hk => by
        obtain rfl : k = 0 := by simpa using hk
        exact hline
    have hprefix : c :: dropLine s <+: c :: s := List.cons_prefix_cons.2 ⟨rfl, dropLine_isPrefix s⟩
    have hblocks := dropBlocks_cons (fun h => hline (h.trans hprefix))
      (fun h => hopen (h.trans hprefix))
    have hrest := ih (LineMarksShown.of_prepend (s := [c]) h hscan)
    rw [stripCode] at hrest
    rw [stripCode, hdrop, hblocks, hscan, Scan.kept_prepend_code, Scan.mode_prepend, hrest]
    rfl

/-! ## The loop ends -/

/-- One turn of the loop: the first block comment of the line is closed, and it is taken out. -/
def Erases (line line' : Text) : Prop :=
  ∃ before inside comment after, line.cut? blockOpen = some (before, inside) ∧
    inside.cut? blockClose = some (comment, after) ∧ line' = before ++ after

/-- The loop stops at `last` with `result`: either no block comment is opened any more, or nothing
closes the first one, which then takes the rest of the line. -/
def StopsWith (last : Text) (result : Text × Bool) : Prop :=
  (last.cut? blockOpen = none ∧ result = (last, false)) ∨
    ∃ before inside, last.cut? blockOpen = some (before, inside) ∧
      inside.cut? blockClose = none ∧ result = (before, true)

/-- Every turn takes out the two marks of a comment at least. -/
theorem Erases.length_lt {line line' : Text} (h : Erases line line') :
    line'.length + 4 ≤ line.length := by
  obtain ⟨before, inside, comment, after, hopen, hclose, rfl⟩ := h
  have hlength := length_of_closed hopen hclose
  rw [List.length_append]
  omega

/-- **The loop cannot go on for ever.** -/
theorem wellFounded_erases : WellFounded fun line' line => Erases line line' := by
  refine Subrelation.wf (fun {line' line} h => ?_) (measure List.length).wf
  have hlength := Erases.length_lt h
  change line'.length < line.length
  omega

/-- Turn after turn, the loop comes to a line with which it stops, and what it leaves there is
what is left of the first line without its block comments. -/
theorem exists_erases (line : Text) :
    ∃ last, Relation.ReflTransGen Erases line last ∧ StopsWith last (dropBlocks line) := by
  induction line using loop_induction with
  | code line hopen => exact ⟨line, .refl, .inl ⟨hopen, dropBlocks_of_none hopen⟩⟩
  | unclosed line before inside hopen hclose =>
    exact ⟨line, .refl, .inr ⟨before, inside, hopen, hclose, dropBlocks_of_unclosed hopen hclose⟩⟩
  | closed line before inside comment after hopen hclose ih =>
    obtain ⟨last, hlast, hstop⟩ := ih
    rw [dropBlocks_of_closed hopen hclose]
    exact ⟨last, .head ⟨_, _, _, _, hopen, hclose, rfl⟩ hlast, hstop⟩

/-! ## With a comment carried in -/

/-- The part of a line behind the end of a block comment that an earlier line has opened. -/
def ownPart (inBlock : Bool) (line : Text) : Text :=
  if inBlock then ((line.cut? blockClose).map Prod.snd).getD [] else line

/-- **Taking out comments is one pass over the line**, if no `//` of its own part starts inside a
block comment that the line opens. The loop that takes out block comments ends on every line. -/
theorem strip_eq_scan (inBlock : Bool) (line : Text) (h : LineMarksShown (ownPart inBlock line)) :
    strip inBlock line =
        (if inBlock ∧ ¬ blockClose <:+: line then (none, true)
        else (some (scan (.ofFlag inBlock) line).kept, (scan (.ofFlag inBlock) line).mode.toFlag)) ∧
      (WellFounded fun line' line => Erases line line') ∧
      ∀ l, ∃ last, Relation.ReflTransGen Erases l last ∧ StopsWith last (dropBlocks l) := by
  refine ⟨?_, wellFounded_erases, exists_erases⟩
  cases inBlock with
  | false =>
    rw [if_neg (by simp)]
    have hcode := stripCode_eq_scan (s := line) h
    simp [strip, hcode, Mode.ofFlag]
  | true =>
    cases hclose : line.cut? blockClose with
    | none =>
      rw [if_pos ⟨rfl, (cut?_eq_none_iff (by decide)).1 hclose⟩]
      simp [strip, hclose]
    | some parts =>
      obtain ⟨comment, after⟩ := parts
      have hfound : blockClose <:+: line := ⟨comment, after, (cut?_eq_some hclose).symm⟩
      have hcode : stripCode after = _ := stripCode_eq_scan (by simpa [ownPart, hclose] using h)
      rw [if_neg fun hnot => hnot.2 hfound]
      simp [strip, hclose, hcode, Mode.ofFlag, scan_block_of_closed hclose,
        Scan.kept_prepend_of_ne]

/-- A line that closes a carried comment, holds two comments of its own, one of them with its marks
overlapping in part, and ends with a line comment. -/
theorem strip_eq_scan_carried :
    LineMarksShown (ownPart true (ofAscii "/ * */a/**/b /*/ c */ * / // d /* e")) ∧
      strip true (ofAscii "/ * */a/**/b /*/ c */ * / // d /* e") =
        (some (ofAscii "ab  * / "), false) := by
  have hshown : LineMarksShown (ownPart true (ofAscii "/ * */a/**/b /*/ c */ * / // d /* e")) := by
    decide
  refine ⟨hshown, ?_⟩
  rw [(strip_eq_scan true _ hshown).1]
  decide

end CodeSimilarity.Comment
