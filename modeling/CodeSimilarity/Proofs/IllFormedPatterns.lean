import CodeSimilarity.Digest
import CodeSimilarity.Proofs.Decoding

set_option autoImplicit false
set_option relaxedAutoImplicit false

/-!
# Patterns that encode no character

The standard encoding of a character is a pattern: the shortest one that holds the number of the
character. The reverse fails. Reading accepts every pattern, also one that is longer than it need
be, and one that holds a surrogate or a number beyond the last character. These are exactly the
places at which a strict decoder would pass over one byte.

## Main definitions

* `Text.IllFormed` — the three reasons why a pattern encodes no character.
* `Text.ReadsStrictly` — what a strict decoder reads at the front of a text.

## Main results

* `Text.pattern_prefix_unique` — at most one pattern begins at a place.
* `Text.exists_utf8EncodeChar_eq_pattern_iff` — the patterns that encode a character.
* `Text.reads_strictly_unless_ill_formed` — reading is strict exactly where no ill-formed pattern
  begins, and takes such a pattern for the number it holds.
-/

namespace CodeSimilarity.Text

/-! ## Ill-formed patterns -/

/-- The reasons why no character is encoded by the pattern of `codePoint` in `count` continuation
bytes. -/
inductive IllFormed (count codePoint : Nat) : Prop
  /-- Fewer continuation bytes hold the number as well. -/
  | overlong {fewer : Nat} (hfewer : fewer < count) (hfits : codePoint < capacity fewer)
  /-- The number is kept free for surrogates. -/
  | surrogate (hfirst : 0xD800 ≤ codePoint) (hlast : codePoint ≤ 0xDFFF)
  /-- The number lies beyond the last character. -/
  | beyond (hlast : 0x10FFFF < codePoint)

variable {count count' codePoint codePoint' : Nat} {s : Text}

/-- **At most one pattern begins at a place.** Both are what reading finds there. -/
theorem pattern_prefix_unique (h : codePoint < capacity count) (h' : codePoint' < capacity count')
    (hs : pattern count codePoint <+: s) (hs' : pattern count' codePoint' <+: s) :
    count = count' ∧ codePoint = codePoint' := by
  obtain ⟨rest, rfl⟩ := hs
  obtain ⟨rest', hrest'⟩ := hs'
  have hread := decode_pattern_append h rest
  rw [← hrest', decode_pattern_append h' rest'] at hread
  obtain ⟨hhead, -⟩ := List.cons.inj hread
  rw [Decoded.mk.injEq] at hhead
  omega

/-- A number is that of a character unless it is kept free for surrogates or too large. -/
theorem exists_char_iff : (∃ c : Char, c.toNat = codePoint) ↔
    ¬ (0xD800 ≤ codePoint ∧ codePoint ≤ 0xDFFF) ∧ codePoint ≤ 0x10FFFF := by
  constructor
  · rintro ⟨c, rfl⟩
    have hvalid : c.toNat < 0xD800 ∨ 0xDFFF < c.toNat ∧ c.toNat < 0x110000 := c.valid
    omega
  · rintro ⟨hsurrogate, hlast⟩
    have hvalid : codePoint.isValidChar := by
      rw [Nat.isValidChar]
      omega
    refine ⟨Char.ofNatAux codePoint hvalid, ?_⟩
    exact UInt32.toNat_ofNatLT

/-- A character is encoded in as few bytes as can hold its number. -/
theorem utf8Size_le {c : Char} (h : c.toNat < capacity count) : c.utf8Size ≤ count + 1 := by
  have hle : c.utf8Size ≤ 4 := c.utf8Size_le_four
  have hsize : c.utf8Size = if c.toNat ≤ 0x7F then 1 else if c.toNat ≤ 0x7FF then 2
      else if c.toNat ≤ 0xFFFF then 3 else 4 := by
    simp only [Char.utf8Size, UInt32.le_iff_toNat_le, UInt32.toNat_ofNatLT, Char.toNat]
  rcases count with _ | _ | _ | count <;> simp only [capacity, leadCount] at h
  · rw [hsize, if_pos (by omega)]
  · rw [hsize]
    split_ifs <;> omega
  · rw [hsize]
    split_ifs <;> omega
  · omega

/-- **The patterns that encode a character** are those that are not ill-formed. -/
theorem exists_utf8EncodeChar_eq_pattern_iff (h : codePoint < capacity count) :
    (∃ c : Char, String.utf8EncodeChar c = pattern count codePoint) ↔
      ¬ IllFormed count codePoint := by
  constructor
  · rintro ⟨c, hc⟩ hill
    obtain ⟨k, hk, hfits, hsize⟩ := utf8EncodeChar_eq c
    rw [hk] at hc
    obtain ⟨rfl, rfl⟩ := pattern_prefix_unique hfits h List.prefix_rfl (hc ▸ List.prefix_rfl)
    obtain ⟨hsurrogate, hlast⟩ := exists_char_iff.1 ⟨c, rfl⟩
    cases hill with
    | overlong hfewer hfits =>
      have := utf8Size_le hfits
      omega
    | surrogate hfirst hlast => exact hsurrogate ⟨hfirst, hlast⟩
    | beyond hbeyond => omega
  · intro hill
    have hsurrogate : ¬ (0xD800 ≤ codePoint ∧ codePoint ≤ 0xDFFF) :=
      fun hs => hill (.surrogate hs.1 hs.2)
    have hlast : codePoint ≤ 0x10FFFF := Nat.le_of_not_lt fun hl => hill (.beyond hl)
    obtain ⟨c, rfl⟩ := exists_char_iff.2 ⟨hsurrogate, hlast⟩
    obtain ⟨k, hk, hfits, hsize⟩ := utf8EncodeChar_eq c
    have hle : k ≤ count := by
      have := utf8Size_le h
      omega
    -- fewer continuation bytes than the pattern has would make it over-long
    have hge : count ≤ k := Nat.le_of_not_lt fun hlt => hill (.overlong hlt hfits)
    exact ⟨c, Nat.le_antisymm hle hge ▸ hk⟩

/-! ## Strict reading -/

/-- What a strict decoder reads at the front of a text: an encoded character, or else one byte that
a space stands for. -/
structure ReadsStrictly (s : Text) (d : Decoded) : Prop where
  /-- The reading is accepted if and only if a character is encoded at the front. -/
  wellFormed_iff : d.wellFormed ↔ ∃ c : Char, String.utf8EncodeChar c <+: s
  /-- An encoded character is read in full. -/
  eq_of_char : ∀ c : Char, String.utf8EncodeChar c <+: s → d = ⟨c.toNat, c.utf8Size, true⟩
  /-- Anything else is passed over by one byte. -/
  eq_of_no_char : (¬ ∃ c : Char, String.utf8EncodeChar c <+: s) → d = ⟨0x20, 1, false⟩

/-- An ill-formed pattern begins a text. -/
def BeginsIllFormed (s : Text) : Prop :=
  ∃ count codePoint, IllFormed count codePoint ∧ codePoint < capacity count ∧
    pattern count codePoint <+: s

/-- A pattern is read as the number it holds, ill-formed or not. -/
theorem decodeFirst_of_isPrefix_pattern {c : UInt8} {s : Text} (h : codePoint < capacity count)
    (hs : pattern count codePoint <+: c :: s) : decodeFirst c s = ⟨codePoint, count + 1, true⟩ := by
  obtain ⟨rest, hrest⟩ := hs
  have hread := decode_pattern_append h rest
  rw [hrest, decode_cons] at hread
  exact (List.cons.inj hread).1

/-- A text that begins with an encoded character decodes to that character first. -/
theorem decodeFirst_of_char {b : UInt8} {s : Text} (c : Char)
    (hs : String.utf8EncodeChar c <+: b :: s) : decodeFirst b s = ⟨c.toNat, c.utf8Size, true⟩ := by
  obtain ⟨k, hk, hfits, hsize⟩ := utf8EncodeChar_eq c
  rw [decodeFirst_of_isPrefix_pattern hfits (hk ▸ hs), hsize]

/-- No character is encoded where an ill-formed pattern begins. -/
theorem BeginsIllFormed.not_exists_char (h : BeginsIllFormed s) :
    ¬ ∃ c : Char, String.utf8EncodeChar c <+: s := by
  rintro ⟨c, hc⟩
  obtain ⟨count, codePoint, hill, hfits, hs⟩ := h
  obtain ⟨k, hk, hfits', -⟩ := utf8EncodeChar_eq c
  obtain ⟨rfl, rfl⟩ := pattern_prefix_unique hfits' hfits (hk ▸ hc) hs
  exact (exists_utf8EncodeChar_eq_pattern_iff hfits).1 ⟨c, hk⟩ hill

/-- Reading is strict exactly where no ill-formed pattern begins. -/
theorem readsStrictly_iff (c : UInt8) (s : Text) :
    ReadsStrictly (c :: s) (decodeFirst c s) ↔ ¬ BeginsIllFormed (c :: s) := by
  constructor
  · rintro h ⟨count, codePoint, hill, hfits, hs⟩
    have haccepted : (decodeFirst c s).wellFormed := by
      rw [decodeFirst_of_isPrefix_pattern hfits hs]
    exact BeginsIllFormed.not_exists_char ⟨count, codePoint, hill, hfits, hs⟩
      (h.wellFormed_iff.1 haccepted)
  · intro hill
    rcases decodeFirst_cases c s with ⟨count, codePoint, rest, hfits, heq, hread⟩ | ⟨hnot, hread⟩
    · have hs : pattern count codePoint <+: c :: s := ⟨rest, heq.symm⟩
      obtain ⟨d, hd⟩ := (exists_utf8EncodeChar_eq_pattern_iff hfits).2 fun h =>
        hill ⟨count, codePoint, h, hfits, hs⟩
      have hchar : ∃ d : Char, String.utf8EncodeChar d <+: c :: s := ⟨d, hd ▸ hs⟩
      refine ⟨?_, decodeFirst_of_char, fun h => absurd hchar h⟩
      rw [hread]
      exact iff_of_true rfl hchar
    · have hchar : ¬ ∃ d : Char, String.utf8EncodeChar d <+: c :: s := by
        rintro ⟨d, hd⟩
        obtain ⟨k, hk, hfits, -⟩ := utf8EncodeChar_eq d
        exact hnot k _ hfits (hk ▸ hd)
      refine ⟨?_, decodeFirst_of_char, fun _ => hread⟩
      rw [hread]
      exact iff_of_false (by simp [malformed]) hchar

/-- **Reading at a place of a text is strict unless an ill-formed pattern begins there.** An encoded
character is read as such, an ill-formed pattern as the number it holds, and whatever is refused is
passed over by one byte, for which a space stands. -/
theorem reads_strictly_unless_ill_formed (s : Text) (i : Nat) (h : i < s.length) :
    let d := decodeFirst s[i] (s.drop (i + 1))
    (ReadsStrictly (s.drop i) d ↔ ¬ BeginsIllFormed (s.drop i)) ∧
      (∀ c : Char, String.utf8EncodeChar c <+: s.drop i → d = ⟨c.toNat, c.utf8Size, true⟩) ∧
      (∀ count codePoint, IllFormed count codePoint → codePoint < capacity count →
        pattern count codePoint <+: s.drop i → d = ⟨codePoint, count + 1, true⟩) ∧
      (¬ d.wellFormed → d = ⟨0x20, 1, false⟩) := by
  intro d
  have hdrop : s.drop i = s[i] :: s.drop (i + 1) := List.drop_eq_getElem_cons h
  rw [hdrop]
  refine ⟨readsStrictly_iff _ _, decodeFirst_of_char, ?_, ?_⟩
  · intro count codePoint _ hfits hs
    exact decodeFirst_of_isPrefix_pattern hfits hs
  · intro hrefused
    rcases decodeFirst_cases s[i] (s.drop (i + 1)) with ⟨_, _, _, _, _, hread⟩ | ⟨-, hread⟩
    · exact absurd (congrArg Decoded.wellFormed hread) hrefused
    · exact hread

/-- Behind a letter, an over-long slash in three bytes; and a surrogate, of which the last byte is
cut off. -/
theorem reads_strictly_unless_ill_formed_kinds :
    1 < ([0x61, 0xE0, 0x80, 0xAF] : Text).length ∧
      ¬ ReadsStrictly [0xE0, 0x80, 0xAF] (decodeFirst 0xE0 [0x80, 0xAF]) ∧
      decodeFirst 0xE0 [0x80, 0xAF] = ⟨0x2F, 3, true⟩ ∧
      1 < ([0x61, 0xED, 0xA0] : Text).length ∧
      decodeFirst 0xED [0xA0] = ⟨0x20, 1, false⟩ := by
  have hlength : 1 < ([0x61, 0xE0, 0x80, 0xAF] : Text).length := by decide
  have hlength' : 1 < ([0x61, 0xED, 0xA0] : Text).length := by decide
  have hill : IllFormed 2 0x2F := .overlong (by decide : 0 < 2) (by decide)
  have hs : pattern 2 0x2F <+: ([0xE0, 0x80, 0xAF] : Text) := by decide
  obtain ⟨hstrict, -, hread, -⟩ := reads_strictly_unless_ill_formed _ 1 hlength
  obtain ⟨-, -, -, hspace⟩ := reads_strictly_unless_ill_formed _ 1 hlength'
  have hrefused : ¬ (decodeFirst 0xED [0xA0]).wellFormed := by decide
  refine ⟨hlength, fun h => ?_, hread 2 0x2F hill (by decide) hs, hlength', hspace hrefused⟩
  exact hstrict.1 h ⟨2, 0x2F, hill, by decide, hs⟩

/-- **Bytes that encode no character can be accepted**: the two bytes of an over-long zero. And an
over-long slash has the digest of a slash, not that of two spaces. -/
theorem overlong_zero_is_accepted :
    (¬ ∀ (s : Text) (i : Nat) (h : i < s.length),
        (decodeFirst s[i] (s.drop (i + 1))).wellFormed ↔
          ∃ c : Char, String.utf8EncodeChar c <+: s.drop i) ∧
      Digest.ofText [0xC0, 0xAF] = Digest.ofText [0x2F] ∧
      Digest.ofText [0xC0, 0xAF] ≠ Digest.ofText [0x20, 0x20] := by
  refine ⟨fun hall => ?_, by decide +kernel, by decide +kernel⟩
  have hill : BeginsIllFormed [0xC0, 0x80] :=
    ⟨1, 0, .overlong (by decide : 0 < 1) (by decide), by decide, by decide⟩
  exact hill.not_exists_char ((hall [0xC0, 0x80] 0 (by decide)).1 (by decide))

end CodeSimilarity.Text
