import CodeSimilarity.Proofs.NumberGrammar
import Mathlib.Data.Bool.AllAny

set_option autoImplicit false
set_option relaxedAutoImplicit false

/-!
# The number at the front of a text

What is read from a text is the longest number that it begins with, rounded correctly to a double. A
text that begins with no number is not read at all.

## Main results

* `Binary64.read?_of_beginsWithNumber`, `Binary64.read?_eq_none` — what is read, for any text.
* `Environment.real_of_beginsWithNumber`, `Environment.real_of_not_beginsWithNumber` — what a
  variable gives for a number.
-/

namespace CodeSimilarity

namespace Text

variable {base : Nat} {s t rest m e marks : Text} {c : UInt8} {ds : List Nat} {q : ℚ} {k : ℤ}
  {v : Numeric} {negative : Bool}

/-! ## The bytes of a number -/

/-- Each byte of a run of digits is one. -/
theorem AreDigits.exists_of_mem (hs : AreDigits base s ds) (hc : c ∈ s) :
    ∃ v, IsDigitOf base c v := by
  induction hs with
  | nil => simp at hc
  | cons hd _ ih =>
    rcases List.mem_cons.1 hc with rfl | hc
    · exact ⟨_, hd⟩
    · exact ih hc

/-- A significand consists of digits and points. -/
theorem IsSignificand.exists_of_mem (hm : IsSignificand base m q) (hc : c ∈ m) :
    c = Byte.dot ∨ ∃ v, IsDigitOf base c v := by
  cases hm with
  | whole hs => exact .inr (hs.exists_of_mem hc)
  | pointed hs ht =>
    rcases List.mem_append.1 hc with hc | hc
    · exact .inr (hs.exists_of_mem hc)
    · rcases List.mem_cons.1 hc with rfl | hc
      · exact .inl rfl
      · exact .inr (ht.exists_of_mem hc)

/-- A significand is not empty. -/
theorem IsSignificand.ne_nil (hm : IsSignificand base m q) : m ≠ [] := by
  cases hm with
  | whole _ hne => exact hne
  | pointed => simp

/-- A decimal significand starts with a digit or with the point. -/
theorem IsSignificand.exists_cons (hm : IsSignificand 10 m q) :
    ∃ c t, m = c :: t ∧ (isDigit c ∨ c = Byte.dot) := by
  obtain ⟨c, t, rfl⟩ := List.exists_cons_of_ne_nil hm.ne_nil
  refine ⟨c, t, rfl, ?_⟩
  rcases hm.exists_of_mem List.mem_cons_self with h | ⟨v, hv⟩
  · exact .inr h
  · exact .inl (isDigit_of_isDigitOf hv)

/-- Behind its mark a power consists of digits and at most one sign. -/
theorem IsPower.of_mem (he : IsPower marks e k) (hc : c ∈ e) :
    c ∈ marks ∨ c = Byte.plus ∨ c = Byte.minus ∨ isDigit c := by
  cases he with
  | none => simp at hc
  | some hmark hsign hs =>
    rcases List.mem_cons.1 hc with rfl | hc
    · exact .inl hmark
    rcases List.mem_append.1 hc with hc | hc
    · cases hsign with
      | none => simp at hc
      | plus => exact .inr (.inl (List.mem_singleton.1 hc))
      | minus => exact .inr (.inr (.inl (List.mem_singleton.1 hc)))
    · obtain ⟨v, hv⟩ := hs.exists_of_mem hc
      exact .inr (.inr (.inr (isDigit_of_isDigitOf hv)))

/-- No mark of hexadecimal digits stands in a decimal number. -/
theorem notMem_hexMarks (hm : IsSignificand 10 m q) (he : IsPower (ofAscii "eE") e k)
    (hc : c ∈ m ++ e) : c ∉ ofAscii "xX" := by
  intro hx
  have hmarks : ∀ c ∈ ofAscii "xX", c ≠ Byte.dot ∧ c ∉ ofAscii "eE" ∧ c ≠ Byte.plus ∧
      c ≠ Byte.minus ∧ ¬ isDigit c :=
    List.all_iff_forall_prop.1 (by decide)
  obtain ⟨hdot, hmark, hplus, hminus, hdigit⟩ := hmarks c hx
  rcases List.mem_append.1 hc with hc | hc
  · rcases hm.exists_of_mem hc with h | ⟨v, hv⟩
    · exact hdot h
    · exact hdigit (isDigit_of_isDigitOf hv)
  · rcases he.of_mem hc with h | h | h | h
    · exact hmark h
    · exact hplus h
    · exact hminus h
    · exact hdigit h

/-- The mark of a power does not go on a significand. -/
theorem not_isSignificand_concat (hbase : base ≤ 16) (hdot : Byte.dot ∉ marks)
    (hdigit : ∀ c ∈ marks, digit? base c = none) (hc : c ∈ marks) :
    ¬ IsSignificand base (m ++ [c]) q := by
  intro hm
  rcases hm.exists_of_mem (List.mem_append_right m (List.mem_singleton_self c)) with rfl | ⟨v, hv⟩
  · exact hdot hc
  · exact (digit?_eq_none_iff hbase).1 (hdigit c hc) v hv

/-- The first byte of a number is a digit, a point, or a letter of its word. -/
theorem IsNumeral.exists_cons (hs : IsNumeral s v) :
    ∃ c t, s = c :: t ∧ (isDigit c ∨ c = Byte.dot ∨ c ∈ ofAscii "iInN") := by
  have hword : ∀ {word : String} {s : Text}, IsSpelling word s →
      word = "inf" ∨ word = "infinity" ∨ word = "nan" →
      ∃ c t, s = c :: t ∧ c ∈ ofAscii "iInN" := by
    rintro word s hs (rfl | rfl | rfl) <;>
    · obtain ⟨c, t, hc, -, rfl⟩ := List.forall₂_cons_right_iff.1 hs
      refine ⟨c, t, rfl, ?_⟩
      rcases hc with rfl | rfl <;> decide
  cases hs with
  | @decimal m e _ _ hm he =>
    obtain ⟨c, t, rfl, hc⟩ := hm.exists_cons
    exact ⟨c, t ++ e, rfl, hc.imp_right .inl⟩
  | hexadecimal => exact ⟨_, _, rfl, .inl (by decide)⟩
  | infinity hs =>
    obtain ⟨c, t, ht, hc⟩ := hs.elim (fun hs => hword hs (.inl rfl))
      (fun hs => hword hs (.inr (.inl rfl)))
    exact ⟨c, t, ht, .inr (.inr hc)⟩
  | nan hs =>
    obtain ⟨c, t, ht, hc⟩ := hword hs (.inr (.inr rfl))
    exact ⟨c, t, ht, .inr (.inr hc)⟩
  | taggedNan hs =>
    obtain ⟨c, t, rfl, hc⟩ := hword hs (.inr (.inr rfl))
    exact ⟨c, _, rfl, .inr (.inr hc)⟩

/-! ## Words -/

/-- Whether a word is made of some of the small letters. -/
def isSmall (word : String) : Bool :=
  word.toList.all fun letter => "abcdefghijklmnopqrstuvwxyz".toList.contains letter

/-- A text is a word in either case exactly if it is a spelling of it. -/
theorem map_toLower_eq_iff {word : String} (hword : isSmall word) :
    s.map toLower = ofAscii word ↔ IsSpelling word s := by
  have hletter : ∀ c : UInt8, "abcdefghijklmnopqrstuvwxyz".toList.all fun l =>
      toLower c = Char.toUInt8 l ↔ c = Char.toUInt8 l ∨ c = l.toUpper.toUInt8 :=
    Byte.forall_of_lt (by decide +kernel)
  have hword : ∀ l ∈ word.toList, "abcdefghijklmnopqrstuvwxyz".toList.contains l :=
    List.all_eq_true.1 hword
  rw [ofAscii, IsSpelling]
  generalize word.toList = letters at hword
  induction letters generalizing s with
  | nil => simp
  | cons l letters ih =>
    obtain ⟨hl, hletters⟩ := List.forall_mem_cons.1 hword
    cases s with
    | nil => simp
    | cons c s =>
      rw [List.map_cons, List.map_cons, List.cons_eq_cons, List.forall₂_cons]
      have hc := List.all_iff_forall_prop.1 (hletter c) l (List.contains_iff_mem.1 hl)
      exact and_congr hc (ih hletters)

/-- A text starts with a word in either case exactly if a spelling of it is a beginning. -/
theorem startsWithWord_iff {word : String} (hword : isSmall word) :
    startsWithWord word s ↔ ∃ t rest, IsSpelling word t ∧ s = t ++ rest := by
  rw [startsWithWord, List.isPrefixOf_iff_prefix, List.prefix_map_iff]
  constructor
  · rintro ⟨t, ⟨rest, rfl⟩, ht⟩
    exact ⟨t, rest, (map_toLower_eq_iff hword).1 ht.symm, rfl⟩
  · rintro ⟨t, rest, ht, rfl⟩
    exact ⟨t, List.prefix_append t rest, ((map_toLower_eq_iff hword).2 ht).symm⟩

/-- A text that starts with another letter does not start with the word. -/
theorem startsWithWord_cons_eq_false {word : String} {d : UInt8} {letters : Text}
    (hword : ofAscii word = d :: letters) (hc : toLower c ≠ d) :
    startsWithWord word (c :: s) = false := by
  rw [startsWithWord, Bool.eq_false_iff, ne_eq, List.isPrefixOf_iff_prefix, hword, List.map_cons,
    List.cons_prefix_cons]
  exact fun h => hc h.1.symm

/-- A text that starts with a digit or a point starts with no word. -/
theorem startsWithWord_eq_false (hc : isDigit c ∨ c = Byte.dot) (s : Text) :
    startsWithWord "inf" (c :: s) = false ∧ startsWithWord "nan" (c :: s) = false := by
  have hbyte : ∀ c, isDigit c ∨ c = Byte.dot → toLower c ≠ 0x69 ∧ toLower c ≠ 0x6E :=
    Byte.forall_of_lt (by decide +kernel)
  obtain ⟨hi, hn⟩ := hbyte c hc
  exact ⟨startsWithWord_cons_eq_false rfl hi, startsWithWord_cons_eq_false rfl hn⟩

/-- The factor of a sign tells whether it was a minus sign. -/
theorem factorOf_injective : Function.Injective factorOf := by
  decide

/-! ## The longest number -/

/-- If a text starts with a number, it starts with a longest one. -/
theorem exists_longest {w : Numeric} (ht : IsNumeral t w) (hs : t <+: s) :
    ∃ p rest v, IsNumeral p v ∧ s = p ++ rest ∧
      ∀ t w, IsNumeral t w → t <+: p ++ rest → t.length ≤ p.length := by
  classical
  let IsLength (n : ℕ) : Prop := ∃ p v, IsNumeral p v ∧ p <+: s ∧ p.length = n
  have hbound : ∀ n, IsLength n → n ≤ s.length := by
    rintro n ⟨p, v, -, hp, rfl⟩
    exact hp.length_le
  obtain ⟨p, v, hp, ⟨rest, rfl⟩, hlength⟩ :=
    Nat.findGreatest_spec (P := IsLength) hs.length_le ⟨t, w, ht, hs, rfl⟩
  refine ⟨p, rest, v, hp, rfl, fun t w ht hs => ?_⟩
  rw [hlength]
  exact Nat.le_findGreatest (hbound _ ⟨t, w, ht, hs, rfl⟩) ⟨t, w, ht, hs, rfl⟩

end Text

open Text

namespace Binary64

variable {s rest m e : Text} {q : ℚ} {k : ℤ} {v : Numeric} {negative : Bool}

/-! ## Numbers without a sign -/

/-- The number at the front of a text, once blanks and a sign are taken off. -/
def readUnsigned? (negative : Bool) (s : Text) : Option Binary64 :=
  if startsWithWord "inf" s then some (infinity negative)
  else if startsWithWord "nan" s then some (nan negative)
  else ((afterHexMark? s).bind (readHex? negative)).or (readDecimal? negative s)

/-- A number is read behind the blanks, with its sign apart. -/
theorem read?_eq (s : Text) :
    read? s = readUnsigned? (signed (s.dropWhile isBlank)).1 (signed (s.dropWhile isBlank)).2 := rfl

/-- The significand of a longest number is not gone on with. -/
theorem not_isSignificand_of_longest {base : Nat} {marks : Text} (hbase : base ≤ 16)
    (he : IsPower marks e k) (hdot : Byte.dot ∉ marks)
    (hdigit : ∀ c ∈ marks, digit? base c = none)
    (hlongest : ∀ m' e' q' k', IsSignificand base m' q' → IsPower marks e' k' →
      m' ++ e' <+: m ++ (e ++ rest) → (m' ++ e').length ≤ (m ++ e).length) :
    ∀ c ∈ (e ++ rest).head?, ∀ q', ¬ IsSignificand base (m ++ [c]) q' := by
  intro c hc q' hm'
  cases he with
  | none =>
    obtain ⟨rest, hrest⟩ := List.head?_eq_some_iff.1 hc
    have hlength := hlongest _ _ _ _ hm' .none ⟨rest, by simp [hrest]⟩
    simp at hlength
  | some hmark =>
    obtain rfl := Option.some.inj hc
    exact not_isSignificand_concat hbase hdot hdigit hmark hm'

/-- The power of a longest number is not gone on with. -/
theorem length_le_of_longest {base : Nat} {marks : Text} (hm : IsSignificand base m q)
    (hlongest : ∀ m' e' q' k', IsSignificand base m' q' → IsPower marks e' k' →
      m' ++ e' <+: m ++ (e ++ rest) → (m' ++ e').length ≤ (m ++ e).length) :
    ∀ e' k', IsPower marks e' k' → e' <+: e ++ rest → e'.length ≤ e.length := by
  intro e' k' he' hstart
  have hlength := hlongest m e' q k' hm he' ((List.prefix_append_right_inj m).2 hstart)
  rw [List.length_append, List.length_append] at hlength
  omega

/-- The marks of a decimal power, as they are read. -/
theorem toLower_eq_e_iff : ∀ c, toLower c = 0x65 ↔ c ∈ ofAscii "eE" :=
  Byte.forall_of_lt (by decide +kernel)

/-- The marks of a hexadecimal power, as they are read. -/
theorem toLower_eq_p_iff : ∀ c, toLower c = 0x70 ↔ c ∈ ofAscii "pP" :=
  Byte.forall_of_lt (by decide +kernel)

/-- The marks of hexadecimal digits, as they are read. -/
theorem toLower_eq_x_iff : ∀ c, toLower c = 0x78 ↔ c ∈ ofAscii "xX" :=
  Byte.forall_of_lt (by decide +kernel)

/-- Hexadecimal digits are looked for behind a zero and a mark. -/
theorem afterHexMark?_eq_some_iff {s t : Text} :
    afterHexMark? s = some t ↔ ∃ x ∈ ofAscii "xX", s = Byte.zero :: x :: t := by
  match s with
  | [] => simp [afterHexMark?]
  | [c] => simp [afterHexMark?]
  | c :: d :: s =>
    rw [afterHexMark?]
    split
    · next h =>
      obtain ⟨rfl, hx⟩ := h
      rw [toLower_eq_x_iff] at hx
      constructor
      · intro hs
        exact ⟨d, hx, by rw [Option.some.inj hs]⟩
      · rintro ⟨x, -, hs⟩
        simp only [List.cons.injEq] at hs
        rw [hs.2.2]
    · next h =>
      refine ⟨fun hs => absurd hs (by simp), ?_⟩
      rintro ⟨x, hx, hs⟩
      simp only [List.cons.injEq] at hs
      exact absurd ⟨hs.1, (toLower_eq_x_iff d).2 (hs.2.1 ▸ hx)⟩ h

/-- **A decimal number is rounded correctly.** -/
theorem exists_readDecimal? (negative : Bool) (hm : IsSignificand 10 m q) (he : IsPower (ofAscii "eE") e k)
    (hlongest : ∀ m' e' q' k', IsSignificand 10 m' q' → IsPower (ofAscii "eE") e' k' →
      m' ++ e' <+: m ++ (e ++ rest) → (m' ++ e').length ≤ (m ++ e).length) :
    ∃ x, readDecimal? negative (m ++ (e ++ rest)) = some x ∧ x.IsRounded negative (q * 10 ^ k) := by
  obtain ⟨value, places, rfl, hread⟩ := Significand.read?_of_isSignificand (by decide) hm
    (not_isSignificand_of_longest (by decide) he (by decide)
      (List.all_iff_forall_prop.1 (by decide)) hlongest)
  have hpower := exponentPart_of_isPower toLower_eq_e_iff he (length_le_of_longest hm hlongest)
  refine ⟨ofScaled negative value 10 (k - places), ?_, ?_⟩
  · rw [readDecimal?, hread, Option.map_some, hpower]
  · have hvalue : (value : ℚ) / ((10 : ℕ) : ℚ) ^ places * 10 ^ k =
        value * ((10 : ℕ) : ℚ) ^ (k - places) := by
      rw [Nat.cast_ofNat, zpow_sub₀ (by norm_num), zpow_natCast]
      ring
    rw [hvalue]
    exact isRounded_ofScaled negative value (by decide) _

/-- **A hexadecimal number is rounded correctly.** -/
theorem exists_readHex? (negative : Bool) (hm : IsSignificand 16 m q) (he : IsPower (ofAscii "pP") e k)
    (hlongest : ∀ m' e' q' k', IsSignificand 16 m' q' → IsPower (ofAscii "pP") e' k' →
      m' ++ e' <+: m ++ (e ++ rest) → (m' ++ e').length ≤ (m ++ e).length) :
    ∃ x, readHex? negative (m ++ (e ++ rest)) = some x ∧ x.IsRounded negative (q * 2 ^ k) := by
  obtain ⟨value, places, rfl, hread⟩ := Significand.read?_of_isSignificand (by decide) hm
    (not_isSignificand_of_longest (by decide) he (by decide)
      (List.all_iff_forall_prop.1 (by decide)) hlongest)
  have hpower := exponentPart_of_isPower toLower_eq_p_iff he (length_le_of_longest hm hlongest)
  refine ⟨ofScaled negative value 2 (k - 4 * places), ?_, ?_⟩
  · rw [readHex?, hread, Option.map_some, hpower]
  · have hvalue : (value : ℚ) / ((16 : ℕ) : ℚ) ^ places * 2 ^ k =
        value * ((2 : ℕ) : ℚ) ^ (k - 4 * places) := by
      have hsixteen : ((16 : ℕ) : ℚ) = 2 ^ (4 : ℤ) := by norm_num
      rw [hsixteen, Nat.cast_ofNat, zpow_sub₀ (by norm_num), ← zpow_natCast, ← zpow_mul]
      ring
    rw [hvalue]
    exact isRounded_ofScaled negative value (by decide) _

/-- No hexadecimal number stands where a decimal one is the longest. -/
theorem bind_readHex?_eq_none (hm : IsSignificand 10 m q) (he : IsPower (ofAscii "eE") e k)
    (hlongest : ∀ t w, IsNumeral t w → t <+: m ++ (e ++ rest) → t.length ≤ (m ++ e).length) :
    (afterHexMark? (m ++ (e ++ rest))).bind (readHex? negative) = none := by
  rw [Option.bind_eq_none_iff]
  intro t ht
  obtain ⟨x, hx, ht⟩ := afterHexMark?_eq_some_iff.1 ht
  rw [readHex?, Option.map_eq_none_iff, Option.eq_none_iff_forall_ne_some]
  intro r hr
  obtain ⟨m', q', hm', rfl⟩ := Significand.exists_isSignificand (by decide) hr
  have hlength := hlongest _ _ (.hexadecimal hx hm' .none) ⟨r.rest, by simp [ht]⟩
  -- the decimal number would reach over the mark, which no decimal number has
  rw [← List.append_assoc] at ht
  match hme : m ++ e with
  | [] => simp [hm.ne_nil] at hme
  | [c] => simp [hme] at hlength
  | c :: d :: u =>
    rw [hme] at ht
    simp only [List.cons_append, List.cons.injEq] at ht
    have hd : d ∈ m ++ e := by simp [hme]
    exact notMem_hexMarks hm he hd (ht.2.1 ▸ hx)

/-- A spelling of one word is not the beginning of another. -/
theorem startsWithWord_inf_of_nan {t : Text} (ht : IsSpelling "nan" t) (rest : Text) :
    startsWithWord "inf" (t ++ rest) = false := by
  obtain ⟨c, t, hc, -, rfl⟩ := List.forall₂_cons_right_iff.1 ht
  have hn : toLower c ≠ 0x69 := by
    rcases hc with rfl | rfl <;> decide
  exact startsWithWord_cons_eq_false rfl hn

/-- The longer word begins with the shorter one. -/
theorem startsWithWord_inf {t : Text} (ht : IsSpelling "inf" t ∨ IsSpelling "infinity" t)
    (rest : Text) : startsWithWord "inf" (t ++ rest) = true := by
  rcases ht with ht | ht
  · exact (startsWithWord_iff (by decide)).2 ⟨t, rest, ht, rfl⟩
  · have hsplit : "infinity".toList = "inf".toList ++ "inity".toList := rfl
    rw [IsSpelling, hsplit] at ht
    have hinf := List.forall₂_take_append t _ _ ht
    refine (startsWithWord_iff (by decide)).2 ⟨_, t.drop "inf".toList.length ++ rest, hinf, ?_⟩
    rw [← List.append_assoc, List.take_append_drop]

/-- A text that starts with the word for no number is read as none. -/
theorem readUnsigned?_of_nan (negative : Bool) {t : Text} (ht : IsSpelling "nan" t) (rest : Text) :
    readUnsigned? negative (t ++ rest) = some (nan negative) := by
  have hnan : startsWithWord "nan" (t ++ rest) = true :=
    (startsWithWord_iff (by decide)).2 ⟨t, rest, ht, rfl⟩
  rw [readUnsigned?, startsWithWord_inf_of_nan ht rest, hnan]
  rfl

/-- The longest number at the front of a text is rounded correctly if it is decimal. -/
theorem exists_readUnsigned?_of_decimal (negative : Bool) (hm : IsSignificand 10 m q)
    (he : IsPower (ofAscii "eE") e k)
    (hlongest : ∀ t w, IsNumeral t w → t <+: m ++ (e ++ rest) → t.length ≤ (m ++ e).length) :
    ∃ x, readUnsigned? negative (m ++ (e ++ rest)) = some x ∧
      x.IsRounded negative (q * 10 ^ k) := by
  obtain ⟨x, hread, hx⟩ := exists_readDecimal? negative hm he
    fun _ _ _ _ hm' he' => hlongest _ _ (.decimal hm' he')
  obtain ⟨hinf, hnan⟩ : startsWithWord "inf" (m ++ (e ++ rest)) = false ∧
      startsWithWord "nan" (m ++ (e ++ rest)) = false := by
    obtain ⟨c, t, rfl, hc⟩ := hm.exists_cons
    exact startsWithWord_eq_false hc (t ++ (e ++ rest))
  refine ⟨x, ?_, hx⟩
  rw [readUnsigned?, hinf, hnan, bind_readHex?_eq_none hm he hlongest]
  exact hread

/-- The longest number at the front of a text is rounded correctly if it is hexadecimal. -/
theorem exists_readUnsigned?_of_hexadecimal (negative : Bool) {x : UInt8} (hx : x ∈ ofAscii "xX")
    (hm : IsSignificand 16 m q) (he : IsPower (ofAscii "pP") e k)
    (hlongest : ∀ t w, IsNumeral t w → t <+: Byte.zero :: x :: (m ++ (e ++ rest)) →
      t.length ≤ (Byte.zero :: x :: (m ++ e)).length) :
    ∃ y, readUnsigned? negative (Byte.zero :: x :: (m ++ (e ++ rest))) = some y ∧
      y.IsRounded negative (q * 2 ^ k) := by
  obtain ⟨y, hread, hy⟩ := exists_readHex? negative hm he
    fun m' e' q' k' hm' he' hstart => by
      have hlength := hlongest _ _ (.hexadecimal hx hm' he') (by simpa using hstart)
      simpa using hlength
  have hafter : afterHexMark? (Byte.zero :: x :: (m ++ (e ++ rest))) = some (m ++ (e ++ rest)) :=
    afterHexMark?_eq_some_iff.2 ⟨x, hx, rfl⟩
  obtain ⟨hinf, hnan⟩ := startsWithWord_eq_false (c := Byte.zero) (.inl (by decide))
    (x :: (m ++ (e ++ rest)))
  refine ⟨y, ?_, hy⟩
  rw [readUnsigned?, hinf, hnan, hafter, Option.bind_some, hread]
  rfl

/-- **The longest number at the front of a text is rounded correctly.** -/
theorem exists_readUnsigned? (negative : Bool) (hs : IsNumeral s v)
    (hlongest : ∀ t w, IsNumeral t w → t <+: s ++ rest → t.length ≤ s.length) :
    ∃ x, readUnsigned? negative (s ++ rest) = some x ∧ v.IsRounded negative x := by
  cases hs with
  | decimal hm he =>
    rw [List.append_assoc] at hlongest ⊢
    exact exists_readUnsigned?_of_decimal negative hm he hlongest
  | hexadecimal hx hm he =>
    rw [List.cons_append, List.cons_append, List.append_assoc] at hlongest ⊢
    exact exists_readUnsigned?_of_hexadecimal negative hx hm he hlongest
  | infinity hs =>
    refine ⟨_, ?_, rfl⟩
    rw [readUnsigned?, startsWithWord_inf hs rest]
    rfl
  | nan hs => exact ⟨_, readUnsigned?_of_nan negative hs rest, rfl⟩
  | taggedNan hs =>
    rw [List.append_assoc]
    exact ⟨_, readUnsigned?_of_nan negative hs _, rfl⟩

/-- What is read without a sign starts with a number. -/
theorem exists_isNumeral_of_readUnsigned? {x : Binary64} (h : readUnsigned? negative s = some x) :
    ∃ t v, IsNumeral t v ∧ t <+: s := by
  rw [readUnsigned?] at h
  split at h
  · next hinf =>
    obtain ⟨t, rest, ht, rfl⟩ := (startsWithWord_iff (by decide)).1 hinf
    exact ⟨t, _, .infinity (.inl ht), List.prefix_append _ _⟩
  split at h
  · next hnan =>
    obtain ⟨t, rest, ht, rfl⟩ := (startsWithWord_iff (by decide)).1 hnan
    exact ⟨t, _, .nan ht, List.prefix_append _ _⟩
  rcases Option.or_eq_some_iff.1 h with hhex | ⟨-, hdecimal⟩
  · obtain ⟨u, hu, hread⟩ := Option.bind_eq_some_iff.1 hhex
    obtain ⟨c, hc, rfl⟩ := afterHexMark?_eq_some_iff.1 hu
    obtain ⟨r, hr, -⟩ := Option.map_eq_some_iff.1 hread
    obtain ⟨m, q, hm, rfl⟩ := Significand.exists_isSignificand (by decide) hr
    exact ⟨_, _, .hexadecimal hc hm .none, ⟨r.rest, by simp⟩⟩
  · obtain ⟨r, hr, -⟩ := Option.map_eq_some_iff.1 hdecimal
    obtain ⟨m, q, hm, rfl⟩ := Significand.exists_isSignificand (by decide) hr
    exact ⟨_, _, .decimal hm .none, ⟨r.rest, by simp⟩⟩

/-! ## Numbers with a sign -/

/-- **What a text begins with is read**, and rounded correctly. -/
theorem read?_of_beginsWithNumber (h : BeginsWithNumber s negative v) :
    ∃ x, read? s = some x ∧ v.IsRounded negative x := by
  obtain @⟨blanks, sign, s, rest, _, _, hblanks, hsign, hs, hlongest⟩ := h
  obtain ⟨c, t, rfl, hc⟩ := hs.exists_cons
  obtain ⟨x, hread, hx⟩ := exists_readUnsigned? negative hs hlongest
  refine ⟨x, ?_, hx⟩
  have hbyte : ∀ c, isDigit c ∨ c = Byte.dot ∨ c ∈ ofAscii "iInN" →
      ¬ isBlank c ∧ c ≠ Byte.minus ∧ c ≠ Byte.plus :=
    Byte.forall_of_lt (by decide +kernel)
  obtain ⟨hblank, hminus, hplus⟩ := hbyte c hc
  obtain ⟨hsnd, hfst⟩ := signed_append hsign hminus hplus (t ++ rest)
  rw [read?_eq, List.dropWhile_append_of_pos hblanks, List.cons_append,
    dropWhile_isBlank_sign hsign hblank, hsnd, factorOf_injective hfst,
    ← List.cons_append, hread]

/-- **A text that begins with no number is not read.** -/
theorem read?_eq_none (h : ¬ ∃ negative v, BeginsWithNumber s negative v) : read? s = none := by
  rw [Option.eq_none_iff_forall_ne_some]
  intro x hx
  obtain ⟨sign, hsign, hsplit⟩ := exists_isSign (s.dropWhile isBlank)
  obtain ⟨t, w, ht, hstart⟩ := exists_isNumeral_of_readUnsigned? (read?_eq s ▸ hx)
  obtain ⟨p, rest, v, hp, hsnd, hlongest⟩ := exists_longest ht hstart
  have hblanks : ∀ c ∈ s.takeWhile isBlank, isBlank c := fun c hc => List.mem_takeWhile_imp hc
  have hbegins := BeginsWithNumber.intro hblanks hsign hp hlongest
  rw [← hsnd, ← hsplit, List.takeWhile_append_dropWhile] at hbegins
  exact h ⟨_, v, hbegins⟩

end Binary64

/-- **A number becomes a finite double** exactly if it is rational and not too large for one. -/
theorem Numeric.IsRounded.isFinite_iff {v : Numeric} {negative : Bool} {x : Binary64}
    (h : v.IsRounded negative x) :
    x.isFinite ↔ ∃ q, v = .rational q ∧ q < Binary64.overflow := by
  cases v with
  | rational q =>
    have hx : x.IsRounded negative q := h
    constructor
    · intro hfinite
      refine ⟨q, rfl, lt_of_not_ge fun hq => ?_⟩
      rw [hx.eq_infinity hq, Binary64.isFinite_infinity] at hfinite
      exact Bool.false_ne_true hfinite
    · rintro ⟨q, hq, hsmall⟩
      obtain rfl := Numeric.rational.inj hq
      exact (hx.isNearest hsmall).isFinite
  | infinity =>
    obtain rfl : x = .infinity negative := h
    rw [Binary64.isFinite_infinity]
    refine iff_of_false Bool.false_ne_true ?_
    rintro ⟨q, hq, -⟩
    cases hq
  | nan =>
    obtain rfl : x = .nan negative := h
    rw [Binary64.isFinite_nan]
    refine iff_of_false Bool.false_ne_true ?_
    rintro ⟨q, hq, -⟩
    cases hq

/-! ## Variables -/

namespace Environment

variable {s : Text} {negative : Bool} {q : ℚ}

/-- **A variable gives the number that it begins with**, rounded correctly, if this is not too large
for a double. -/
theorem real_of_beginsWithNumber (default : Binary64)
    (h : BeginsWithNumber s negative (.rational q)) (hq : q < Binary64.overflow) :
    (real default (some s)).IsRounded negative q := by
  obtain ⟨x, hread, hx⟩ := Binary64.read?_of_beginsWithNumber h
  have hne : s ≠ [] := by
    rintro rfl
    have hnone : Binary64.read? [] = none := by decide
    rw [hnone] at hread
    simp at hread
  have hgiven : given? (some s) = some s := by simp [given?, hne]
  have hfinite : x.isFinite := hx.isFinite_iff.2 ⟨q, rfl, hq⟩
  have hreal : real default (some s) = x := by
    rw [real, hgiven, Option.bind_some, hread]
    exact if_pos hfinite
  exact hreal ▸ hx

/-- A variable that is unset, or begins with no number that a double can be near to, leaves the
default. -/
theorem real_of_not_beginsWithNumber {value : Option Text} (default : Binary64)
    (h : ¬ ∃ s negative q, value = some s ∧ BeginsWithNumber s negative (.rational q) ∧
      q < Binary64.overflow) : real default value = default := by
  rw [real]
  split
  · rfl
  · next x hx =>
    obtain ⟨s, hs, hread⟩ := Option.bind_eq_some_iff.1 hx
    obtain ⟨rfl, -⟩ := Option.filter_eq_some_iff.1 hs
    refine if_neg fun hfinite => ?_
    by_cases hbegins : ∃ negative v, BeginsWithNumber s negative v
    · obtain ⟨negative, v, hv⟩ := hbegins
      obtain ⟨y, hy, hrounded⟩ := Binary64.read?_of_beginsWithNumber hv
      obtain rfl : x = y := Option.some.inj (hread.symm.trans hy)
      obtain ⟨q, rfl, hq⟩ := hrounded.isFinite_iff.1 hfinite
      exact h ⟨s, negative, q, rfl, hv, hq⟩
    · rw [Binary64.read?_eq_none hbegins] at hread
      simp at hread

end Environment

end CodeSimilarity
