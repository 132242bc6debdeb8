set_option autoImplicit false
set_option relaxedAutoImplicit false

/-!
# Texts

Source code is read as a sequence of bytes. A byte counts as blank, digit or letter by its
ASCII value alone; a byte above `0x7F` is none of these.

## Main definitions

* `Text` — a sequence of bytes.
* `isBlank`, `isDigit`, `isWordStart`, `isWord` — the byte classes.
* `Text.trim`, `Text.collapse` — the two layout normalisations of a line.
* `Text.lines`, `Text.unlines` — cutting a text at its line feeds and joining it again.
* `Text.cut?` — the text before and after the first occurrence of a mark.

## Main results

* `Text.cut?_eq_some` — a successful cut shows the mark between its two parts.

## Implementation notes

The functions that walk over whole documents are right folds, which the compiler turns into
loops; each comes with its defining equation on `c :: s`.
-/

namespace CodeSimilarity

/-- A sequence of bytes. -/
abbrev Text := List UInt8

/-! ## Bytes -/

namespace Byte

/-- The line feed, which ends a line. -/
abbrev newline : UInt8 := 0x0A

/-- The space, which stands for any run of blanks in a collapsed line. -/
abbrev space : UInt8 := 0x20

/-- The character `(`. -/
abbrev parenOpen : UInt8 := 0x28

/-- The character `)`. -/
abbrev parenClose : UInt8 := 0x29

/-- The character `+`. -/
abbrev plus : UInt8 := 0x2B

/-- The character `-`. -/
abbrev minus : UInt8 := 0x2D

/-- The character `.`. -/
abbrev dot : UInt8 := 0x2E

/-- The character `/`. -/
abbrev slash : UInt8 := 0x2F

/-- The character `0`. -/
abbrev zero : UInt8 := 0x30

/-- The character `1`. -/
abbrev one : UInt8 := 0x31

/-- The character `=`. -/
abbrev equals : UInt8 := 0x3D

end Byte

/-- What holds of the first 256 numbers as bytes holds of every byte. -/
theorem Byte.forall_of_lt {p : UInt8 → Prop} (h : ∀ n < 256, p (.ofNat n)) (c : UInt8) : p c := by
  have hc := h c.toNat c.toNat_lt
  rwa [UInt8.ofNat_toNat] at hc

/-- Whether `c` is a space, or one of the five ASCII controls from tab to carriage return. -/
def isBlank (c : UInt8) : Bool :=
  c == Byte.space || (0x09 ≤ c && c ≤ 0x0D)

/-- Whether `c` is one of `0` to `9`. -/
def isDigit (c : UInt8) : Bool :=
  0x30 ≤ c && c ≤ 0x39

/-- Whether `c` can begin an identifier: an ASCII letter or the underscore. -/
def isWordStart (c : UInt8) : Bool :=
  (0x61 ≤ c && c ≤ 0x7A) || (0x41 ≤ c && c ≤ 0x5A) || c == 0x5F

/-- Whether `c` can stand in a word: an ASCII letter, the underscore or a digit. -/
def isWord (c : UInt8) : Bool :=
  isWordStart c || isDigit c

/-- The ASCII small letter of a capital letter; any other byte is unchanged. -/
def toLower (c : UInt8) : UInt8 :=
  if 0x41 ≤ c && c ≤ 0x5A then c + 0x20 else c

namespace Text

/-- The bytes of an ASCII string. -/
def ofAscii (s : String) : Text :=
  s.toList.map Char.toUInt8

/-! ## Layout -/

/-- The text without its leading and trailing blanks. -/
def trim (s : Text) : Text :=
  ((s.dropWhile isBlank).reverse.dropWhile isBlank).reverse

/-- Puts `c` before a collapsed text: a blank becomes a space, or nothing where a space is
already next. -/
def pushCollapsed (c : UInt8) (s : Text) : Text :=
  if isBlank c then
    if s.head? = some Byte.space then s else Byte.space :: s
  else
    c :: s

/-- The text with every run of blanks replaced by one space. -/
def collapse (s : Text) : Text :=
  s.foldr pushCollapsed []

/-- The empty text has nothing to collapse. -/
@[simp] theorem collapse_nil : collapse [] = [] := rfl

/-- The rest is collapsed first, and the byte is put before it. -/
@[simp] theorem collapse_cons (c : UInt8) (s : Text) :
    collapse (c :: s) = pushCollapsed c (collapse s) := rfl

/-! ## Lines -/

/-- Puts `c` before a list of lines: a line feed opens a new first line, any other byte joins
the first line. -/
def pushLine (c : UInt8) (ls : List Text) : List Text :=
  if c = Byte.newline then [] :: ls else (c :: ls.headD []) :: ls.tail

/-- The lines of a text. Every line feed ends a line and belongs to no line, so there is one
line more than there are line feeds. -/
def lines (s : Text) : List Text :=
  s.foldr pushLine [[]]

/-- The lines joined by line feeds. -/
def unlines (ls : List Text) : Text :=
  [Byte.newline].intercalate ls

/-- The empty text is one empty line. -/
@[simp] theorem lines_nil : lines [] = [[]] := rfl

/-- The first byte begins the first line or ends it, as `pushLine` says. -/
@[simp] theorem lines_cons (c : UInt8) (s : Text) : lines (c :: s) = pushLine c (lines s) := rfl

/-- Every text has a line, if only an empty one. -/
theorem lines_ne_nil (s : Text) : lines s ≠ [] := by
  cases s with
  | nil => simp
  | cons c s => rw [lines_cons, pushLine]; split <;> simp

/-! ## Marks -/

/-- The text before and after the first occurrence of `mark`, if there is one. -/
def cut? : (s mark : Text) → Option (Text × Text)
  | [], _ => none
  | c :: s, mark =>
    if mark.isPrefixOf (c :: s) then some ([], (c :: s).drop mark.length)
    else (cut? s mark).map fun (before, after) => (c :: before, after)

/-- A successful cut shows the mark between its two parts. -/
theorem cut?_eq_some {s mark before after : Text} (h : s.cut? mark = some (before, after)) :
    s = before ++ mark ++ after := by
  induction s generalizing before with
  | nil => simp [cut?] at h
  | cons c s ih =>
    rw [cut?] at h
    split at h
    · next hp =>
      obtain ⟨rfl, rfl⟩ := Prod.mk.inj (Option.some.inj h)
      obtain ⟨r, hr⟩ := List.isPrefixOf_iff_prefix.1 hp
      simp [← hr]
    · obtain ⟨⟨p, q⟩, hq, he⟩ := Option.map_eq_some_iff.1 h
      obtain ⟨rfl, rfl⟩ := Prod.mk.inj he
      simp [ih hq]

/-- What follows the mark is shorter than the whole. -/
theorem length_of_cut? {s mark before after : Text} (h : s.cut? mark = some (before, after)) :
    s.length = before.length + mark.length + after.length := by
  rw [cut?_eq_some h]
  simp [Nat.add_assoc]

/-- The text up to its first zero byte, as a zero-terminated text is read. -/
def beforeNul (s : Text) : Text :=
  s.takeWhile (· ≠ 0)

end Text

end CodeSimilarity
