import CodeSimilarity.Proofs.NormalForm

set_option autoImplicit false
set_option relaxedAutoImplicit false

/-!
# Words that are joined where a comment was

Taking out a block comment puts nothing in its place, so a word that ends where the comment begins
and a word that begins where it ends become one word. This is the only way in which a cleaned line
comes to have a word that the raw line does not have.

## Main definitions

* `Text.StandsApart` — a stretch of a text with no word byte at either of its two sides.
* `Comment.Joined` — a stretch of a line and the word that is left of it.
* `Comment.CommentsApart` — no block comment of a line stands directly between two words.

## Main results

* `isRun_iff_mem_pieces` — the words of a text are the words among its pieces.
* `IsRun.of_tidy` — tidying makes no new words.
* `Comment.Joined.dropBlocks_eq`, `Comment.exists_joined_of_strip` — such a stretch leaves its word,
  and every word that is left comes from such a stretch.
* `words_of_cleaned_line` — the words of a cleaned line are joined from words of the raw line, and
  are words of the raw line if no comment stands directly between two of them.
* `joined_word_is_no_word_of_line` — a joined word, and a renaming that it makes visible.
-/

namespace CodeSimilarity

open Text

/-! ## Stretches of a text -/

namespace Text

/-- The text is empty or ends outside a word. -/
def EndsApart (s : Text) : Prop :=
  ∀ c ∈ s.getLast?, ¬ isWord c

/-- A text ends apart unless its last byte is a word byte. -/
theorem endsApart_iff {s : Text} : EndsApart s ↔ ¬ s.getLast?.any isWord := by
  rw [EndsApart]
  cases s.getLast? <;> simp

instance (s : Text) : Decidable (EndsApart s) :=
  decidable_of_iff _ endsApart_iff.symm

instance (s t : Text) : Decidable (Seam s t) :=
  inferInstanceAs (Decidable (EndsApart s ∨ StartsApart t))

/-- The empty text ends apart. -/
theorem endsApart_nil : EndsApart [] := by simp [EndsApart]

/-- A text whose last byte is not a word byte ends apart. -/
theorem endsApart_concat {c : UInt8} (hc : ¬ isWord c) (s : Text) : EndsApart (s ++ [c]) := by
  simpa [EndsApart] using hc

/-- Two texts that end apart do so together. -/
theorem EndsApart.append {s t : Text} (hs : EndsApart s) (ht : EndsApart t) :
    EndsApart (s ++ t) := by
  intro c hc
  rw [List.getLast?_append] at hc
  cases hlast : t.getLast? with
  | none => exact hs c (by rwa [hlast, Option.none_or] at hc)
  | some d => exact ht c (by rwa [hlast, Option.some_or, ← hlast] at hc)

/-- Two texts that begin apart do so together. -/
theorem StartsApart.append {s t : Text} (hs : StartsApart s) (ht : StartsApart t) :
    StartsApart (s ++ t) := by
  cases s with
  | nil => exact ht
  | cons c s => exact (startsApart_cons c _).2 ((startsApart_cons c s).1 hs)

/-- The end of a text that ends outside a word ends outside a word. -/
theorem EndsApart.of_isSuffix {s t : Text} (h : s <:+ t) (ht : EndsApart t) : EndsApart s := by
  obtain ⟨r, rfl⟩ := h
  intro c hc
  refine ht c ?_
  rw [List.getLast?_append, Option.mem_def.1 hc]
  rfl

/-- A text with a word at its end does not end outside a word. -/
theorem IsWord.not_endsApart {w : Text} (hw : IsWord w) (s : Text) : ¬ EndsApart (s ++ w) := by
  intro h
  obtain ⟨c, hc⟩ := Option.ne_none_iff_exists'.1 (mt List.getLast?_eq_none_iff.1 hw.1)
  exact h.of_isSuffix (List.suffix_append s w) c hc (hw.2 c (List.mem_of_getLast? hc))

/-- A text with a word at its front does not begin outside a word. -/
theorem IsWord.not_startsApart {w : Text} (hw : IsWord w) (s : Text) :
    ¬ StartsApart (w ++ s) := by
  obtain ⟨c, v, rfl, hc, -⟩ := hw.exists_cons
  exact fun h => (startsApart_cons c _).1 h hc

/-- The stretch stands in the text with no word byte at either of its two sides. -/
def StandsApart (part s : Text) : Prop :=
  ∃ before after, s = before ++ part ++ after ∧ EndsApart before ∧ StartsApart after

/-- A stretch stands apart behind another text, too, if that does not end with a word. -/
theorem StandsApart.append_left {part s t : Text} (h : StandsApart part s) (ht : EndsApart t) :
    StandsApart part (t ++ s) := by
  obtain ⟨before, after, rfl, hbefore, hafter⟩ := h
  exact ⟨t ++ before, after, by simp only [List.append_assoc], ht.append hbefore, hafter⟩

/-- A stretch stands apart before another text, too, if that does not begin with a word. -/
theorem StandsApart.append_right {part s t : Text} (h : StandsApart part s) (ht : StartsApart t) :
    StandsApart part (s ++ t) := by
  obtain ⟨before, after, rfl, hbefore, hafter⟩ := h
  exact ⟨before, after ++ t, by simp only [List.append_assoc], hbefore, hafter.append ht⟩

/-- Where a word stands in two texts side by side: in the second one, in the first one, or across
the place where they meet. -/
theorem eq_append_word_cases {s t before w after : Text} (h : s ++ t = before ++ w ++ after)
    (hw : w ≠ []) :
    (∃ u, before = s ++ u ∧ t = u ++ w ++ after) ∨ (∃ u, s = before ++ w ++ u ∧ after = u ++ t) ∨
      ∃ u v, u ≠ [] ∧ v ≠ [] ∧ w = u ++ v ∧ s = before ++ u ∧ t = v ++ after := by
  rw [List.append_assoc] at h
  obtain ⟨u, rfl, rfl⟩ | ⟨u, rfl, htail⟩ := List.append_eq_append_iff.1 h
  · exact .inl ⟨u, rfl, (List.append_assoc u w after).symm⟩
  obtain ⟨v, rfl, rfl⟩ | ⟨v, rfl, rfl⟩ := List.append_eq_append_iff.1 htail
  · exact .inr (.inl ⟨v, (List.append_assoc before w v).symm, rfl⟩)
  by_cases hu : u = []
  · exact .inl ⟨[], by simp [hu], by simp [hu]⟩
  by_cases hv : v = []
  · exact .inr (.inl ⟨[], by simp [hv], by simp [hv]⟩)
  exact .inr (.inr ⟨u, v, hu, hv, rfl, rfl, rfl⟩)

end Text

/-! ## Words and pieces -/

/-- The words of a text are the words among its pieces. -/
theorem isRun_iff_mem_pieces {w s : Text} : IsRun w s ↔ IsWord w ∧ w ∈ s.pieces := by
  refine ⟨fun h => ⟨h.1, h.mem_pieces⟩, ?_⟩
  rintro ⟨hw, hmem⟩
  refine ⟨hw, ?_⟩
  induction s using piece_induction with
  | nil => simp at hmem
  | other c s hc ih =>
    rw [pieces_cons_of_not_word hc, List.mem_cons] at hmem
    rcases hmem with rfl | hmem
    · exact absurd (hw.2 c List.mem_cons_self) hc
    · exact StandsApart.append_left (ih hmem) (endsApart_concat hc [])
  | word v s hv hs ih =>
    rw [pieces_word_append hv hs, List.mem_cons] at hmem
    rcases hmem with rfl | hmem
    · exact ⟨[], s, rfl, endsApart_nil, hs⟩
    · obtain ⟨before, after, rfl, hbefore, hafter⟩ := ih hmem
      refine ⟨v ++ before, after, by simp only [List.append_assoc], ?_, hafter⟩
      -- something stands between `v` and the word, since a word does not begin apart
      have hne : before ≠ [] := by
        rintro rfl
        exact hw.not_startsApart after hs
      intro c hc
      rw [List.getLast?_append_of_ne_nil v hne] at hc
      exact hbefore c hc

/-- Collapsing adds no word to the pieces of a text. -/
theorem mem_pieces_of_collapse {w s : Text} (hw : IsWord w) (h : w ∈ (collapse s).pieces) :
    w ∈ s.pieces := by
  induction s using piece_induction with
  | nil => exact h
  | other c s hc ih =>
    have hother : ∀ {d : UInt8}, ¬ isWord d → w ∈ pieces (d :: collapse s) → w ∈ s.pieces := by
      intro d hd hmem
      rw [pieces_cons_of_not_word hd, List.mem_cons] at hmem
      rcases hmem with rfl | hmem
      · exact absurd (hw.2 d List.mem_cons_self) hd
      · exact ih hmem
    rw [pieces_cons_of_not_word hc]
    refine List.mem_cons_of_mem _ ?_
    rw [collapse_cons, pushCollapsed] at h
    split at h
    · split at h
      · exact ih h
      · exact hother (by decide) h
    · exact hother hc h
  | word v s hv hs ih =>
    rw [collapse_append_of_not_isBlank fun c => hv.not_isBlank,
      pieces_word_append hv (startsApart_collapse hs), List.mem_cons] at h
    rw [pieces_word_append hv hs, List.mem_cons]
    exact h.imp_right ih

/-- **Tidying makes no new words.** -/
theorem IsRun.of_tidy {w s : Text} (h : IsRun w s.tidy) : IsRun w s := by
  have htrim : IsRun w s.trim :=
    isRun_iff_mem_pieces.2 ⟨h.1, mem_pieces_of_collapse h.1 h.mem_pieces⟩
  obtain ⟨u, v, hu, hv, hs⟩ := exists_eq_blank_trim_blank s
  have hlast : EndsApart u := fun c hc =>
    not_isWord_of_isBlank (hu c (List.mem_of_getLast? hc))
  have hhead : StartsApart v := fun c hc => not_isWord_of_isBlank (hv c (List.mem_of_head? hc))
  rw [hs]
  exact ⟨h.1, (StandsApart.append_left htrim.2 hlast).append_right hhead⟩

namespace Comment

/-! ## What a word is left of -/

/-- A stretch of a line and the word that is left of it: a word, or a word directly before a block
comment that is directly before such a stretch. -/
inductive Joined : Text → Text → Prop
  | word {w : Text} (hw : IsWord w) : Joined w w
  | comment {w comment part v : Text} (hw : IsWord w) (hcomment : ¬ blockClose <:+: comment)
      (h : Joined part v) : Joined (w ++ blockOpen ++ comment ++ blockClose ++ part) (w ++ v)

/-- Such a stretch begins with a word byte. -/
theorem Joined.not_startsApart {part w : Text} (h : Joined part w) (s : Text) :
    ¬ StartsApart (part ++ s) := by
  cases h with
  | word hw => exact hw.not_startsApart s
  | comment hw _ _ =>
    simp only [List.append_assoc]
    exact hw.not_startsApart _

/-- **A stretch leaves its word** when its block comments are taken out. -/
theorem Joined.dropBlocks_eq {part w : Text} (h : Joined part w) :
    dropBlocks part = (w, false) := by
  have hslash : ∀ {u : Text}, IsWord u → Byte.slash ∉ u :=
    fun hu hmem => absurd (hu.2 _ hmem) (by decide)
  have hopen : ∀ {u : Text}, IsWord u → ¬ blockOpen <:+: u :=
    fun hu h => hslash hu (h.subset (by decide))
  induction h with
  | word hw => exact dropBlocks_of_none ((cut?_eq_none_iff (by decide)).2 (hopen hw))
  | comment hw hcomment _ ih =>
    have hlast := mt List.mem_of_getLast? (hslash hw)
    rw [dropBlocks_comment (hopen hw) hcomment, dropBlocks_append (hopen hw) hlast, ih]

/-- A block comment begins apart. -/
theorem startsApart_blockOpen_append (s : Text) : StartsApart (blockOpen ++ s) :=
  (startsApart_cons Byte.slash _).2 (by decide)

/-- A block comment ends apart. -/
theorem endsApart_append_blockClose (s : Text) : EndsApart (s ++ blockClose) := by
  rw [blockClose, List.append_cons]
  exact endsApart_concat (by decide) _

/-- Behind a block comment no other one begins, since its marks would make up a `//`. -/
theorem not_isPrefix_of_closed {line before inside comment after : Text}
    (hline : ¬ lineMark <:+: line) (hopen : line.cut? blockOpen = some (before, inside))
    (hclose : inside.cut? blockClose = some (comment, after)) : ¬ blockOpen <+: after := by
  rintro ⟨s, rfl⟩
  refine hline ⟨before ++ blockOpen ++ comment ++ [0x2A], 0x2A :: s, ?_⟩
  rw [eq_of_closed hopen hclose]
  simp [lineMark, blockOpen, blockClose]

/-- A line is code, and its line comment if there is one. -/
theorem exists_eq_dropLine_append (line : Text) :
    ∃ rest, line = dropLine line ++ rest ∧ StartsApart rest := by
  rw [dropLine]
  split
  · exact ⟨[], (List.append_nil _).symm, startsApart_nil⟩
  · next code comment h =>
    refine ⟨lineMark ++ comment, by rw [← List.append_assoc]; exact cut?_eq_some h, ?_⟩
    exact (startsApart_cons Byte.slash _).2 (by decide)

/-- **Every word that is left of a line without `//` is left of a stretch that stands apart.** If
the word is the first thing that is left, the stretch begins the line, unless a block comment does.

**Proof sketch.** A word that is left before or behind the first block comment stood there. A word
across it has for its end the first thing that is left behind it, where no comment begins. -/
theorem exists_joined_of_dropBlocks {line front w rest : Text} (hline : ¬ lineMark <:+: line)
    (hcode : (dropBlocks line).1 = front ++ w ++ rest) (hw : IsWord w) (hfront : EndsApart front)
    (hrest : StartsApart rest) :
    ∃ start part end', line = start ++ part ++ end' ∧ Joined part w ∧ EndsApart start ∧
      StartsApart end' ∧ (front = [] → ¬ blockOpen <+: line → start = []) := by
  induction line using block_induction generalizing front w with
  | code line hopen =>
    rw [dropBlocks_of_none hopen] at hcode
    exact ⟨front, w, rest, hcode, .word hw, hfront, hrest, fun h _ => h⟩
  | unclosed line before inside hopen hclose =>
    rw [dropBlocks_of_unclosed hopen hclose] at hcode
    obtain rfl : before = front ++ w ++ rest := hcode
    refine ⟨front, w, rest ++ (blockOpen ++ inside), ?_, .word hw, hfront,
      hrest.append (startsApart_blockOpen_append inside), fun h _ => h⟩
    rw [cut?_eq_some hopen]
    simp only [List.append_assoc]
  | closed line before inside comment after hopen hclose ih =>
    have heq := eq_of_closed hopen hclose
    have hafter : ¬ lineMark <:+: after := fun h => hline (h.trans (infix_of_closed hopen hclose))
    rw [dropBlocks_of_closed_of_no_line hline hopen hclose] at hcode
    obtain ⟨u, rfl, hu⟩ | ⟨u, rfl, rfl⟩ | ⟨u, v, hu, hv, rfl, rfl, hv'⟩ :=
      eq_append_word_cases hcode hw.1
    · -- the word is left of what stands behind the comment
      obtain ⟨start, part, end', rfl, hjoined, hstart, hend, -⟩ :=
        ih hafter hu hw (hfront.of_isSuffix (List.suffix_append before u))
      refine ⟨before ++ blockOpen ++ comment ++ blockClose ++ start, part, end',
        by rw [heq]; simp only [List.append_assoc], hjoined,
        (endsApart_append_blockClose _).append hstart, hend, fun hnil hnot => ?_⟩
      obtain ⟨rfl, -⟩ := List.append_eq_nil_iff.1 hnil
      refine absurd ?_ hnot
      rw [heq]
      simp only [List.append_assoc]
      exact List.prefix_append _ _
    · -- the word stands before the comment
      refine ⟨front, w, u ++ (blockOpen ++ (comment ++ blockClose ++ after)),
        by rw [heq]; simp only [List.append_assoc], .word hw, hfront, ?_, fun h _ => h⟩
      exact (hrest.of_isPrefix (List.prefix_append u _)).append (startsApart_blockOpen_append _)
    · -- the word lies across the comment
      have hwu : IsWord u := ⟨hu, fun c hc => hw.2 c (List.mem_append_left v hc)⟩
      have hwv : IsWord v := ⟨hv, fun c hc => hw.2 c (List.mem_append_right u hc)⟩
      have hrest' : (dropBlocks after).1 = [] ++ v ++ rest := hv'
      obtain ⟨start, part, end', hsplit, hjoined, -, hend, hstart⟩ :=
        ih hafter hrest' hwv endsApart_nil
      obtain rfl := hstart rfl (not_isPrefix_of_closed hline hopen hclose)
      refine ⟨front, u ++ blockOpen ++ comment ++ blockClose ++ part, end', ?_,
        .comment hwu (not_infix_of_cut? (by decide) hclose) hjoined, hfront, hend, fun h _ => h⟩
      rw [heq, hsplit]
      simp only [List.append_assoc, List.nil_append]

/-- A word of the code of a line comes from a stretch that stands apart in the line. -/
theorem exists_joined_of_stripCode {line w : Text} (h : IsRun w (stripCode line).1) :
    ∃ part, StandsApart part line ∧ Joined part w := by
  obtain ⟨hw, front, rest, hcode, hfront, hrest⟩ := h
  obtain ⟨start, part, end', hsplit, hjoined, hstart, hend, -⟩ :=
    exists_joined_of_dropBlocks (not_infix_dropLine line) hcode hw hfront hrest
  obtain ⟨comment, hline, hcomment⟩ := exists_eq_dropLine_append line
  have hpart : StandsApart part (dropLine line) := ⟨start, end', hsplit, hstart, hend⟩
  rw [hline]
  exact ⟨part, hpart.append_right hcomment, hjoined⟩

/-- **Every word that is left of a line is left of a stretch that stands apart**, be a comment
carried in or not. -/
theorem exists_joined_of_strip {inBlock : Bool} {line code w : Text}
    (hcode : code ∈ (strip inBlock line).1) (h : IsRun w code) :
    ∃ part, StandsApart part line ∧ Joined part w := by
  cases inBlock with
  | false =>
    obtain rfl := Option.some.inj hcode
    exact exists_joined_of_stripCode h
  | true =>
    cases hclose : line.cut? blockClose with
    | none => simp [strip_true_of_unclosed hclose] at hcode
    | some parts =>
      obtain ⟨comment, after⟩ := parts
      rw [strip_true_of_closed hclose] at hcode
      obtain rfl := Option.some.inj hcode
      obtain ⟨part, hpart, hjoined⟩ := exists_joined_of_stripCode h
      rw [cut?_eq_some hclose]
      exact ⟨part, hpart.append_left (endsApart_append_blockClose comment), hjoined⟩

/-! ## Comments that keep words apart -/

/-- No block comment of the line stands directly between two words. -/
def CommentsApart (line : Text) : Prop :=
  ∀ before comment after, line = before ++ blockOpen ++ comment ++ blockClose ++ after →
    ¬ blockClose <:+: comment → Seam before after

/-- Whether comments keep words apart can be read off the places where a `/*` stands. -/
theorem commentsApart_iff {line : Text} :
    CommentsApart line ↔ ∀ i ≤ line.length, blockOpen <+: line.drop i →
      ∀ parts ∈ cut? (line.drop (i + 2)) blockClose, Seam (line.take i) parts.2 := by
  constructor
  · rintro h i - ⟨inside, hinside⟩ ⟨comment, after⟩ hclose
    have hdrop : line.drop (i + 2) = inside := by
      rw [← List.drop_drop, ← hinside]
      rfl
    rw [hdrop] at hclose
    refine h _ comment after ?_ (not_infix_of_cut? (by decide) hclose)
    calc line = line.take i ++ line.drop i := (List.take_append_drop i line).symm
      _ = line.take i ++ (blockOpen ++ (comment ++ blockClose ++ after)) := by
          rw [← hinside, cut?_eq_some hclose]
      _ = line.take i ++ blockOpen ++ comment ++ blockClose ++ after := by
          simp only [List.append_assoc]
  · rintro h before comment after rfl hcomment
    have hsplit : before ++ blockOpen ++ comment ++ blockClose ++ after =
        before ++ (blockOpen ++ (comment ++ blockClose ++ after)) := by
      simp only [List.append_assoc]
    have hclose : (comment ++ blockClose ++ after).cut? blockClose = some (comment, after) :=
      cut?_of_first (by decide) hcomment after
    rw [hsplit] at h
    have hseam := h before.length (by simp) (by rw [List.drop_left]; exact List.prefix_append _ _)
      (comment, after) (by rw [← List.drop_drop, List.drop_left]; exact hclose)
    rwa [List.take_left] at hseam

instance (line : Text) : Decidable (CommentsApart line) :=
  decidable_of_iff _ commentsApart_iff.symm

/-- If comments keep words apart, no words are joined. -/
theorem CommentsApart.isRun_of_joined {line part w : Text} (hline : CommentsApart line)
    (hpart : StandsApart part line) (h : Joined part w) : IsRun w line := by
  cases h with
  | word hw => exact ⟨hw, hpart⟩
  | @comment u comment part v hu hcomment h =>
    obtain ⟨before, after, heq, -, -⟩ := hpart
    have hseam : Seam (before ++ u) (part ++ after) := by
      refine hline _ comment _ ?_ hcomment
      rw [heq]
      simp only [List.append_assoc]
    rcases hseam with hlast | hhead
    · exact absurd hlast (hu.not_endsApart before)
    · exact absurd hhead (h.not_startsApart after)

end Comment

/-! ## The words of a cleaned line -/

open Comment

/-- A word of a cleaned line is a word of the line without its comments. -/
theorem exists_code_of_codeLine {inBlock : Bool} {raw cleaned w : Text}
    (hcleaned : cleaned ∈ (codeLine inBlock raw).1) (h : IsRun w cleaned) :
    ∃ code ∈ (strip inBlock raw).1, IsRun w code := by
  rw [codeLine_eq, contribution, Option.mem_def, Option.bind_eq_some_iff] at hcleaned
  obtain ⟨code, hcode, hcleaned⟩ := hcleaned
  rw [nonempty?] at hcleaned
  split at hcleaned
  · simp at hcleaned
  · exact ⟨code, hcode, IsRun.of_tidy (Option.some.inj hcleaned ▸ h)⟩

/-- **The words of a line without its comments, and those of the cleaned line,** are left of
stretches of the raw line that stand apart. They are words of the raw line, if no block comment
stands directly between two words. -/
theorem words_of_cleaned_line (inBlock : Bool) (raw w : Text)
    (h : (∃ code ∈ (strip inBlock raw).1, IsRun w code) ∨
      ∃ cleaned ∈ (codeLine inBlock raw).1, IsRun w cleaned) :
    (∃ part, StandsApart part raw ∧ Joined part w) ∧ (CommentsApart raw → IsRun w raw) := by
  obtain ⟨code, hcode, hw⟩ : ∃ code ∈ (strip inBlock raw).1, IsRun w code := by
    rcases h with h | ⟨cleaned, hcleaned, hw⟩
    · exact h
    · exact exists_code_of_codeLine hcleaned hw
  obtain ⟨part, hpart, hjoined⟩ := exists_joined_of_strip hcode hw
  exact ⟨⟨part, hpart, hjoined⟩, fun hraw => hraw.isRun_of_joined hpart hjoined⟩

/-- A word between the end of a carried comment and another comment. -/
theorem words_of_cleaned_line_carried :
    CommentsApart (ofAscii "a */b/* c */ += d; // e") ∧
      (∃ cleaned ∈ (codeLine true (ofAscii "a */b/* c */ += d; // e")).1,
        IsRun (ofAscii "b") cleaned) ∧
      IsRun (ofAscii "b") (ofAscii "a */b/* c */ += d; // e") := by
  have hapart : CommentsApart (ofAscii "a */b/* c */ += d; // e") := by decide +kernel
  have hcleaned : ∃ cleaned ∈ (codeLine true (ofAscii "a */b/* c */ += d; // e")).1,
      IsRun (ofAscii "b") cleaned := by
    refine ⟨ofAscii "b += d;", by decide +kernel, isRun_iff_mem_pieces.2 ⟨?_, by decide⟩⟩
    exact ⟨by decide, List.all_eq_true.1 (by decide)⟩
  exact ⟨hapart, hcleaned, (words_of_cleaned_line _ _ _ (.inr hcleaned)).2 hapart⟩

/-- **A joined word need be no word of the line.** Where the joined word stands elsewhere in the
document, a renaming tells the two apart, and the normal form depends on the names. -/
theorem joined_word_is_no_word_of_line :
    (¬ ∀ (inBlock : Bool) (line code w : Text), code ∈ (strip inBlock line).1 → IsRun w code →
        IsRun w line) ∧
      normalizeLines ([ofAscii "foo/**/bar = 1;", ofAscii "foobar = 2;"].map
          Renaming.prepend.apply) ≠
        normalizeLines [ofAscii "foo/**/bar = 1;", ofAscii "foobar = 2;"] := by
  constructor
  · intro hall
    have hrun : IsRun (ofAscii "intx") (ofAscii "intx = 1;") :=
      isRun_iff_mem_pieces.2 ⟨⟨by decide, List.all_eq_true.1 (by decide)⟩, by decide⟩
    have h := hall false (ofAscii "int/**/x = 1;") _ _ (by decide +kernel) hrun
    exact absurd h.mem_pieces (by decide)
  · decide +kernel

end CodeSimilarity
