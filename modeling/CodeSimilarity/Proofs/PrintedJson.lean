import CodeSimilarity.Json.Printer
import CodeSimilarity.Proofs.Decoding
import CodeSimilarity.Proofs.ShortestDoubles
import Mathlib.Data.List.Forall2
import Mathlib.Tactic.SplitIfs

set_option autoImplicit false
set_option relaxedAutoImplicit false

/-!
# What printed JSON spells

A value is printed as a text that the grammar of JSON has for it: integers and doubles as numbers that
are read back, strings as literals of well-formed characters, lists and objects between their brackets
with commas between the parts. What in a string is no character is printed as the replacement
character.

## Main definitions

* `Text.characters` — the characters of a text, the replacement character for what is none.
* `Json.IsBody`, `Json.IsLiteral` — string literals and what they stand for.
* `Json.IsEnclosed` — parts between two brackets, with commas and blanks.
* `Json.Spells` — a text is JSON for a value.

## Main results

* `Text.characters_utf8` — well-formed characters are kept.
* `Json.IsBody.unique` — a string literal stands for one text only.
* `Json.isLiteral_quote` — a text is quoted as its characters.
* `Json.spells_print` — every value is printed as JSON for it.
-/

namespace CodeSimilarity

/-! ## Characters -/

namespace Text

/-- The character that was read, or the replacement character if it is none in its shortest form. -/
def characterOf (d : Decoded) : Char :=
  if Json.isScalarForm d then Char.ofNat d.codePoint else '\uFFFD'

/-- The characters of a text. -/
def characters (s : Text) : List Char :=
  s.decode.map characterOf

variable {count codePoint : Nat}

/-- The number of bytes in the shortest form of a code point. -/
def shortestSize (codePoint : Nat) : Nat :=
  if codePoint ≤ 0x7F then 1 else if codePoint ≤ 0x7FF then 2 else if codePoint ≤ 0xFFFF then 3 else 4

/-- What is in its shortest form is known by its size and by being no surrogate. -/
theorem isScalarForm_iff (h : codePoint < capacity count) :
    Json.isScalarForm ⟨codePoint, count + 1, true⟩ ↔
      codePoint.isValidChar ∧ shortestSize codePoint = count + 1 := by
  have hcount := count_le_three h
  unfold Json.isScalarForm Nat.isValidChar shortestSize
  rcases count with _ | _ | _ | _ | count <;>
    simp only [capacity, leadCount, Bool.and_eq_true, Bool.not_eq_true', decide_eq_true_eq,
      Bool.and_eq_false_iff, decide_eq_false_iff_not, Bool.true_and, and_true] at h ⊢ <;>
    split_ifs <;> omega

/-- A character is encoded in its shortest form. -/
theorem utf8Size_eq (c : Char) : c.utf8Size = shortestSize c.toNat := by
  simp only [Char.utf8Size, UInt32.le_iff_toNat_le, UInt32.toNat_ofNatLT]
  rfl

/-- A code point that is a character is the code point of this character. -/
theorem toNat_ofNat_of_isValidChar (h : codePoint.isValidChar) :
    (Char.ofNat codePoint).toNat = codePoint := by
  rw [Char.ofNat, dif_pos h]
  rfl

/-- **The shortest form of a character is its encoding.** -/
theorem pattern_eq_utf8EncodeChar (h : codePoint < capacity count)
    (hscalar : Json.isScalarForm ⟨codePoint, count + 1, true⟩) :
    pattern count codePoint = String.utf8EncodeChar (Char.ofNat codePoint) := by
  obtain ⟨hvalid, hsize⟩ := (isScalarForm_iff h).1 hscalar
  have hnat : (Char.ofNat codePoint).toNat = codePoint := toNat_ofNat_of_isValidChar hvalid
  obtain ⟨count', hpattern, -, hsize'⟩ := utf8EncodeChar_eq (Char.ofNat codePoint)
  rw [utf8Size_eq, hnat, hsize] at hsize'
  rw [hpattern, hnat, Nat.succ.inj hsize']

/-- An encoded character is read as itself. -/
theorem characterOf_char (c : Char) : characterOf ⟨c.toNat, c.utf8Size, true⟩ = c := by
  obtain ⟨count, -, hfits, hsize⟩ := utf8EncodeChar_eq c
  have hscalar : Json.isScalarForm ⟨c.toNat, c.utf8Size, true⟩ := by
    rw [hsize, isScalarForm_iff hfits, ← utf8Size_eq, hsize]
    exact ⟨c.valid, rfl⟩
  rw [characterOf, if_pos hscalar]
  exact Char.ofNat_toNat c

/-- **Well-formed characters are kept.** -/
theorem characters_utf8 (cs : List Char) : (utf8 cs).characters = cs := by
  rw [characters, decode_utf8, List.map_map]
  exact (List.map_congr_left fun c _ => characterOf_char c).trans (List.map_id cs)

end Text

/-! ## String literals -/

namespace Json

open Text

/-- The letters that stand for a character when they follow a backslash. -/
def shortEscapes : List (UInt8 × UInt8) :=
  [(0x22, 0x22), (0x5C, 0x5C), (0x2F, 0x2F), (0x62, 0x08), (0x66, 0x0C), (0x6E, 0x0A), (0x72, 0x0D),
    (0x74, 0x09)]

/-- An escape sequence and the ASCII character that it stands for. -/
inductive IsEscape : Text → UInt8 → Prop
  | short {letter c : UInt8} (h : shortEscapes.lookup letter = some c) : IsEscape [0x5C, letter] c
  | code {digits : Text} {c : UInt8} (hlength : digits.length = 4)
      (h : numeral? 16 digits = some c.toNat) (hc : c < 0x80) :
      IsEscape (0x5C :: 0x75 :: digits) c

/-- What stands between the quotes of a literal, and the text that it stands for. No control
character, quote or backslash stands for itself. -/
inductive IsBody : Text → Text → Prop
  | nil : IsBody [] []
  | plain {c : UInt8} {body s : Text} (hc : Byte.space ≤ c ∧ c ≠ 0x22 ∧ c ≠ 0x5C) (h : IsBody body s) :
      IsBody (c :: body) (c :: s)
  | escape {e body s : Text} {c : UInt8} (he : IsEscape e c) (h : IsBody body s) :
      IsBody (e ++ body) (c :: s)

/-- A string literal and the text that it stands for. -/
inductive IsLiteral : Text → Text → Prop
  | intro {body s : Text} (h : IsBody body s) : IsLiteral (0x22 :: body ++ [0x22]) s

/-- One body after another stands for both texts. -/
theorem IsBody.append {body body' s s' : Text} (h : IsBody body s) (h' : IsBody body' s') :
    IsBody (body ++ body') (s ++ s') := by
  induction h with
  | nil => exact h'
  | plain hc _ ih => exact .plain hc ih
  | escape he _ ih => exact List.append_assoc .. ▸ .escape he ih

/-- Escape sequences begin with a backslash. -/
theorem IsEscape.exists_cons {e : Text} {c : UInt8} (h : IsEscape e c) :
    ∃ t, e = 0x5C :: t := by
  cases h with
  | short => exact ⟨_, rfl⟩
  | code => exact ⟨_, rfl⟩

/-- No escape sequence is the beginning of another one, and each stands for one character. -/
theorem IsEscape.unique {e e' t t' : Text} {c c' : UInt8} (h : IsEscape e c) (h' : IsEscape e' c')
    (heq : e ++ t = e' ++ t') : c = c' ∧ t = t' := by
  have hcode : shortEscapes.lookup 0x75 = none := by decide +kernel
  cases h with
  | short hshort =>
    cases h' with
    | short hshort' =>
      simp only [List.cons_append, List.nil_append, List.cons.injEq, true_and] at heq
      obtain ⟨rfl, rfl⟩ := heq
      exact ⟨Option.some.inj (hshort.symm.trans hshort'), rfl⟩
    | code =>
      simp only [List.cons_append, List.nil_append, List.cons.injEq, true_and] at heq
      rw [heq.1, hcode] at hshort
      simp at hshort
  | code hlength hread =>
    cases h' with
    | short hshort =>
      simp only [List.cons_append, List.nil_append, List.cons.injEq, true_and] at heq
      rw [← heq.1, hcode] at hshort
      simp at hshort
    | code hlength' hread' =>
      simp only [List.cons_append, List.cons.injEq, true_and] at heq
      obtain ⟨rfl, rfl⟩ := List.append_inj heq (hlength.trans hlength'.symm)
      exact ⟨UInt8.toNat_inj.1 (Option.some.inj (hread.symm.trans hread')), rfl⟩

/-- **A string literal stands for one text only.** -/
theorem IsBody.unique {body s s' : Text} (h : IsBody body s) (h' : IsBody body s') : s = s' := by
  induction h generalizing s' with
  | nil =>
    generalize hbody : ([] : Text) = body at h'
    cases h' with
    | nil => rfl
    | plain => simp at hbody
    | escape he =>
      obtain ⟨t, rfl⟩ := he.exists_cons
      simp at hbody
  | @plain c body s hc _ ih =>
    generalize hbody : c :: body = whole at h'
    cases h' with
    | nil => simp at hbody
    | plain _ h' =>
      obtain ⟨rfl, rfl⟩ := List.cons.inj hbody
      rw [ih h']
    | escape he _ =>
      obtain ⟨t, rfl⟩ := he.exists_cons
      exact absurd (List.cons.inj hbody).1 hc.2.2
  | @escape e body s c he _ ih =>
    generalize hbody : e ++ body = whole at h'
    cases h' with
    | nil =>
      obtain ⟨t, rfl⟩ := he.exists_cons
      simp at hbody
    | plain hc' _ =>
      obtain ⟨t, rfl⟩ := he.exists_cons
      exact absurd (List.cons.inj hbody).1.symm hc'.2.2
    | escape he' h' =>
      obtain ⟨rfl, rfl⟩ := he.unique he' hbody
      rw [ih h']

/-! ## Quoting -/

/-- A control character is escaped by its code. -/
theorem isEscape_escapeControl {c : UInt8} (hc : c < Byte.space) : IsEscape (escapeControl c) c := by
  have hcode : ∀ c : UInt8, c < Byte.space → c < 0x80 ∧
      escapeControl c = 0x5C :: 0x75 :: (escapeControl c).drop 2 ∧
      ((escapeControl c).drop 2).length = 4 ∧
      numeral? 16 ((escapeControl c).drop 2) = some c.toNat :=
    Byte.forall_of_lt (by decide +kernel)
  obtain ⟨hascii, heq, hlength, hread⟩ := hcode c hc
  exact heq ▸ .code hlength hread hascii

/-- An ASCII character is quoted by what stands for it. -/
theorem isBody_escape (c : UInt8) : IsBody (escape c) [c] := by
  have hescape : ∀ {e : Text}, IsEscape e c → IsBody e [c] := fun he => by
    simpa using IsBody.escape he .nil
  unfold escape
  split_ifs with hmark hnewline hreturn htab hcontrol
  · rcases hmark with rfl | rfl <;> exact hescape (.short (by decide))
  · subst hnewline
    exact hescape (show IsEscape [0x5C, 0x6E] _ from .short (by decide))
  · subst hreturn
    exact hescape (show IsEscape [0x5C, 0x72] _ from .short (by decide))
  · subst htab
    exact hescape (show IsEscape [0x5C, 0x74] _ from .short (by decide))
  · exact hescape (isEscape_escapeControl hcontrol)
  · rw [not_or] at hmark
    exact .plain ⟨UInt8.not_lt.1 hcontrol, hmark⟩ .nil

/-- Bytes are quoted one by one. -/
theorem isBody_flatMap (s : Text) :
    IsBody (s.flatMap fun c => if c < 0x80 then escape c else [c]) s := by
  induction s with
  | nil => exact .nil
  | cons c s ih =>
    have hone : IsBody (if c < 0x80 then escape c else [c]) [c] := by
      split
      · exact isBody_escape c
      · next hc =>
        have hplain : ∀ c : UInt8, ¬ c < 0x80 → Byte.space ≤ c ∧ c ≠ 0x22 ∧ c ≠ 0x5C :=
          Byte.forall_of_lt (by decide +kernel)
        exact .plain (hplain c hc) .nil
    exact hone.append ih

/-- The replacement character is quoted as its encoding. -/
theorem isBody_replacement : IsBody [0xEF, 0xBF, 0xBD] (utf8 ['\uFFFD']) := by
  have hencoded : utf8 ['\uFFFD'] = [0xEF, 0xBF, 0xBD] := by decide +kernel
  have hbody := isBody_flatMap [0xEF, 0xBF, 0xBD]
  rwa [← hencoded] at hbody ⊢

/-- What is between the quotes stands for the characters that were read.

**Proof sketch.** Induction on the reading. A pattern in its shortest form is the encoding of its
character and is quoted byte by byte; any other pattern, and a byte at which none begins, is quoted as
the replacement character. -/
theorem isBody_quoteDecoded {s : Text} {ds : List Decoded} (h : IsReading s ds) :
    IsBody (quoteDecoded ds s) (utf8 (ds.map characterOf)) := by
  induction h with
  | nil => exact .nil
  | @pattern count codePoint s ds hfits _ ih =>
    have hlength : (pattern count codePoint).length = count + 1 :=
      congrArg Nat.succ (length_continuations count codePoint)
    rw [quoteDecoded, List.take_left' hlength, List.drop_left' hlength, List.map_cons, utf8,
      List.flatMap_cons, ← utf8]
    refine IsBody.append ?_ ih
    rw [characterOf]
    split
    · next hscalar =>
      rw [← pattern_eq_utf8EncodeChar hfits hscalar]
      exact isBody_flatMap _
    · simpa [utf8] using isBody_replacement
  | @malformed c s ds _ _ ih =>
    exact isBody_replacement.append ih

/-- **A text is quoted as its characters.** -/
theorem isLiteral_quote (s : Text) : IsLiteral (quote s) (utf8 s.characters) :=
  .intro (isBody_quoteDecoded (isReading_decode s))

/-! ## Values -/

/-- Blanks between the parts of a value: spaces and line feeds. -/
def IsSpacing (s : Text) : Prop :=
  ∀ c ∈ s, c = Byte.space ∨ c = Byte.newline

/-- Parts with commas between them, and with blanks around each. -/
inductive IsRow : List Text → Text → Prop
  | last {before part after : Text} (hbefore : IsSpacing before) (hafter : IsSpacing after) :
      IsRow [part] (before ++ part ++ after)
  | cons {before part after row : Text} {parts : List Text} (hbefore : IsSpacing before)
      (hafter : IsSpacing after) (h : IsRow parts row) :
      IsRow (part :: parts) (before ++ part ++ after ++ 0x2C :: row)

/-- Parts between two brackets. -/
inductive IsEnclosed (left right : UInt8) : List Text → Text → Prop
  | nil {blanks : Text} (h : IsSpacing blanks) : IsEnclosed left right [] (left :: blanks ++ [right])
  | row {parts : List Text} {row : Text} (h : IsRow parts row) :
      IsEnclosed left right parts (left :: row ++ [right])

/-- A text is JSON for a value. Only the numbers of JSON are doubles, so what is infinite or no number
is written as null. -/
inductive Spells : Json → Text → Prop
  | bool (b : Bool) : Spells (.bool b) (ofAscii (if b then "true" else "false"))
  | int {z : Int} {t : Text} (hcanonical : t.IsCanonical) (h : signedNumeral? 10 t = some z) :
      Spells (.int z) t
  | real {x : Binary64} {t : Text} {q : ℚ} (hdecimal : IsDecimal t x.negative q)
      (h : Binary64.read? t = some x) : Spells (.real x) t
  | null {x : Binary64} (h : x.isFinite = false) : Spells (.real x) (ofAscii "null")
  | text {s t : Text} (h : IsLiteral t (utf8 s.characters)) : Spells (.text s) t
  | array {items : List Json} {parts : List Text} {t : Text} (h : List.Forall₂ Spells items parts)
      (ht : IsEnclosed 0x5B 0x5D parts t) : Spells (.array items) t
  | object {fields : List (String × Json)} {names values : List Text} {t : Text}
      (hnames : List.Forall₂ IsLiteral names (fields.map fun field =>
        utf8 (ofAscii field.1).characters))
      (hvalues : List.Forall₂ Spells (fields.map Prod.snd) values)
      (ht : IsEnclosed 0x7B 0x7D (List.zipWith (fun name value => name ++ ofAscii ": " ++ value)
        names values) t) : Spells (.object fields) t

/-! ## Printing -/

/-- There may be no blanks at all. -/
theorem isSpacing_nil : IsSpacing [] := by
  simp [IsSpacing]

/-- A new line and its indentation are blanks. -/
theorem isSpacing_lineBreak (level : Nat) : IsSpacing (lineBreak level) := by
  intro c hc
  rcases List.mem_cons.1 hc with rfl | hc
  · exact .inr rfl
  · exact .inl (List.eq_of_mem_replicate hc)

/-- Items on lines of their own are a row. -/
theorem isRow_intercalate (level : Nat) (part : Text) (parts : List Text) :
    IsRow (part :: parts) (lineBreak (level + 1) ++
      (0x2C :: lineBreak (level + 1)).intercalate (part :: parts) ++ lineBreak level) := by
  induction parts generalizing part with
  | nil =>
    rw [List.intercalate_singleton]
    exact .last (isSpacing_lineBreak _) (isSpacing_lineBreak _)
  | cons next parts ih =>
    have hrow : IsRow (part :: next :: parts) _ :=
      .cons (isSpacing_lineBreak (level + 1)) isSpacing_nil (ih next)
    simpa [List.intercalate_cons_cons] using hrow

/-- **Items between brackets**, each on a line of its own, are enclosed by them. -/
theorem isEnclosed_bracketed (level : Nat) (left right : UInt8) (items : List Text) :
    IsEnclosed left right items (bracketed level left right items) := by
  rw [bracketed]
  cases items with
  | nil => exact .nil isSpacing_nil
  | cons part parts =>
    rw [if_neg (List.cons_ne_nil _ _)]
    exact .row (isRow_intercalate level part parts)

/-- A double is printed as a number that is read back, or as null. -/
theorem spells_real (x : Binary64) :
    Spells (.real x) (if x.isFinite then x.shortest else ofAscii "null") := by
  split
  · next hx =>
    obtain ⟨count, hpos, hle, hshortest, -⟩ := Binary64.exists_count_shortest hx
    exact .real (hshortest ▸ Binary64.isDecimal_general hpos hle hx) (Binary64.read?_shortest hx)
  · next hx => exact .null (Bool.not_eq_true _ ▸ hx)

mutual

/-- A value is printed as JSON for it, at any level of indentation. -/
theorem spells_printAt (level : Nat) : ∀ v : Json, Spells v (printAt level v)
  | .bool b => .bool b
  | .int z => .int (isCanonical_ofInt (by decide) (by decide)) (signedNumeral?_ofInt (by decide) (by decide))
  | .real x => spells_real x
  | .text s => .text (isLiteral_quote s)
  | .array items => .array (forall₂_printItems (level + 1) items) (isEnclosed_bracketed ..)
  | .object fields => by
    obtain ⟨names, values, hnames, hvalues, hprint⟩ := exists_printFields (level + 1) fields
    rw [printAt, hprint]
    exact .object hnames hvalues (isEnclosed_bracketed ..)

/-- The items of an array are printed as JSON for them. -/
theorem forall₂_printItems (level : Nat) :
    ∀ items : List Json, List.Forall₂ Spells items (printItems level items)
  | [] => .nil
  | v :: vs => .cons (spells_printAt level v) (forall₂_printItems level vs)

/-- The fields of an object are printed as their names and JSON for their values. -/
theorem exists_printFields (level : Nat) : ∀ fields : List (String × Json),
    ∃ names values, List.Forall₂ IsLiteral names (fields.map fun field =>
        utf8 (ofAscii field.1).characters) ∧
      List.Forall₂ Spells (fields.map Prod.snd) values ∧
      printFields level fields =
        List.zipWith (fun name value => name ++ ofAscii ": " ++ value) names values
  | [] => ⟨[], [], .nil, .nil, rfl⟩
  | (name, v) :: fields => by
    obtain ⟨names, values, hnames, hvalues, hprint⟩ := exists_printFields level fields
    refine ⟨quote (ofAscii name) :: names, printAt level v :: values,
      .cons (isLiteral_quote _) hnames, .cons (spells_printAt level v) hvalues, ?_⟩
    rw [printFields, hprint]
    rfl

end

/-- **Every value is printed as JSON for it.** -/
theorem spells_print (v : Json) : Spells v v.print :=
  spells_printAt 0 v

end Json

end CodeSimilarity
