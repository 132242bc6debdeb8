import CodeSimilarity.Binary64.Reading
import CodeSimilarity.Proofs.CorrectRounding
import CodeSimilarity.Proofs.LeadingInteger

set_option autoImplicit false
set_option relaxedAutoImplicit false

/-!
# The grammar of numbers

A number can be written in decimal or, after a mark, in hexadecimal, each with a point and a power,
or as a word. The grammar says which texts are numbers and what exactly they stand for, with no
rounding and no limit on the digits. A text begins with the longest number that stands there.

## Main definitions

* `Text.IsDigitOf`, `Text.AreDigits` — a digit, and a run of digits, with their values.
* `Text.IsSignificand`, `Text.IsPower`, `Text.IsSpelling` — the parts of a number.
* `Numeric`, `Text.IsNumeral` — what a number stands for, and which texts are one.
* `Text.BeginsWithNumber` — blanks, at most one sign and the longest number behind them.
* `Numeric.IsRounded` — the double that a number becomes.

## Main results

* `Text.digit?_eq_some_iff`, `Text.digitRun_append`, `Text.exists_areDigits` — digits are read as
  the grammar has them.
* `Significand.read?_of_isSignificand`, `Significand.exists_isSignificand` — the same for
  significands.
* `exponentPart_of_isPower` — the same for powers.
-/

namespace CodeSimilarity

namespace Text

/-! ## Grammar -/

/-- The byte is the digit of value `v`. Letters count from ten on, in either case. -/
def IsDigitOf (base : Nat) (c : UInt8) (v : Nat) : Prop :=
  v < base ∧
    ((ofAscii "0123456789abcdef")[v]? = some c ∨ (ofAscii "0123456789ABCDEF")[v]? = some c)

instance (base : Nat) (c : UInt8) (v : Nat) : Decidable (IsDigitOf base c v) :=
  inferInstanceAs (Decidable (_ ∧ _))

/-- The text is a run of digits with the given values. -/
abbrev AreDigits (base : Nat) : Text → List Nat → Prop :=
  List.Forall₂ (IsDigitOf base)

/-- Digits with at most one point among them, and the number that they stand for. There is at least
one digit, before or after the point. -/
inductive IsSignificand (base : Nat) : Text → ℚ → Prop
  | whole {s : Text} {ds : List Nat} (hs : AreDigits base s ds) (hne : s ≠ []) :
    IsSignificand base s (Nat.ofDigits base ds.reverse : ℕ)
  | pointed {s t : Text} {ds es : List Nat} (hs : AreDigits base s ds) (ht : AreDigits base t es)
      (hne : s ≠ [] ∨ t ≠ []) :
    IsSignificand base (s ++ Byte.dot :: t)
      ((Nat.ofDigits base (ds ++ es).reverse : ℕ) / (base : ℚ) ^ t.length)

/-- Nothing, or one of the marks, at most one sign and some decimal digits; and the exponent that
this stands for. -/
inductive IsPower (marks : Text) : Text → ℤ → Prop
  | none : IsPower marks [] 0
  | some {mark : UInt8} {sign s : Text} {factor : ℤ} {ds : List Nat} (hmark : mark ∈ marks)
      (hsign : IsSign sign factor) (hs : AreDigits 10 s ds) (hne : s ≠ []) :
    IsPower marks (mark :: (sign ++ s)) (factor * (Nat.ofDigits 10 ds.reverse : ℕ))

/-- The text is a word of small letters, with each letter in either case. -/
def IsSpelling (word : String) (s : Text) : Prop :=
  List.Forall₂ (fun c letter => c = Char.toUInt8 letter ∨ c = letter.toUpper.toUInt8) s word.toList

instance (word : String) (s : Text) : Decidable (IsSpelling word s) :=
  inferInstanceAs (Decidable (List.Forall₂ _ _ _))

end Text

/-- What a number without its sign stands for. -/
inductive Numeric where
  /-- A rational number. -/
  | rational (q : ℚ)
  /-- An infinity. -/
  | infinity
  /-- Not a number. -/
  | nan

namespace Text

/-- A number without a sign, and what it stands for. -/
inductive IsNumeral : Text → Numeric → Prop
  | decimal {m e : Text} {q : ℚ} {k : ℤ} (hm : IsSignificand 10 m q)
      (he : IsPower (ofAscii "eE") e k) : IsNumeral (m ++ e) (.rational (q * 10 ^ k))
  | hexadecimal {x : UInt8} {m e : Text} {q : ℚ} {k : ℤ} (hx : x ∈ ofAscii "xX")
      (hm : IsSignificand 16 m q) (he : IsPower (ofAscii "pP") e k) :
    IsNumeral (Byte.zero :: x :: (m ++ e)) (.rational (q * 2 ^ k))
  | infinity {s : Text} (hs : IsSpelling "inf" s ∨ IsSpelling "infinity" s) : IsNumeral s .infinity
  | nan {s : Text} (hs : IsSpelling "nan" s) : IsNumeral s .nan
  | taggedNan {s t : Text} (hs : IsSpelling "nan" s) (ht : ∀ c ∈ t, isWord c) :
    IsNumeral (s ++ Byte.parenOpen :: (t ++ [Byte.parenClose])) .nan

/-- A text begins with a number: blanks, at most one sign, and the longest number without a sign
that stands there. -/
inductive BeginsWithNumber : Text → Bool → Numeric → Prop
  | intro {blanks sign s rest : Text} {negative : Bool} {v : Numeric}
      (hblanks : ∀ c ∈ blanks, isBlank c) (hsign : IsSign sign (factorOf negative))
      (hs : IsNumeral s v)
      (hlongest : ∀ t w, IsNumeral t w → t <+: s ++ rest → t.length ≤ s.length) :
    BeginsWithNumber (blanks ++ (sign ++ (s ++ rest))) negative v

end Text

/-- The double that a number becomes, with the given sign. -/
def Numeric.IsRounded (v : Numeric) (negative : Bool) (x : Binary64) : Prop :=
  match v with
  | .rational q => x.IsRounded negative q
  | .infinity => x = .infinity negative
  | .nan => x = .nan negative

namespace Text

variable {base : Nat} {s t rest m e marks : Text} {c : UInt8} {ds : List Nat} {q : ℚ} {k : ℤ}

/-! ## Digits -/

/-- A byte is read as the digit that it is. -/
theorem digit?_eq_some_iff {v : Nat} (hbase : base ≤ 16) :
    digit? base c = some v ↔ IsDigitOf base c v := by
  have hbyte : ∀ c, ∀ v < 16, digitValue? c = some v ↔
      (ofAscii "0123456789abcdef")[v]? = some c ∨ (ofAscii "0123456789ABCDEF")[v]? = some c :=
    Byte.forall_of_lt (by decide +kernel)
  rw [digit?, Option.filter_eq_some_iff, decide_eq_true_eq, IsDigitOf, and_comm]
  exact and_congr_right fun hv => hbyte c v (by omega)

/-- A byte that is read as no digit is none. -/
theorem digit?_eq_none_iff (hbase : base ≤ 16) :
    digit? base c = none ↔ ∀ v, ¬ IsDigitOf base c v := by
  simp only [Option.eq_none_iff_forall_ne_some, ne_eq, digit?_eq_some_iff hbase]

/-- The digits of base ten are the ASCII digits. -/
theorem isDigit_of_isDigitOf {v : Nat} (h : IsDigitOf 10 c v) : isDigit c := by
  have hread := (digit?_eq_some_iff (by decide)).2 h
  rw [digit?_ten] at hread
  by_contra hnot
  rw [if_neg hnot] at hread
  simp at hread

/-- Digits are read up to the first other byte. -/
theorem digitRun_append (hbase : base ≤ 16) (hs : AreDigits base s ds)
    (hrest : ∀ c ∈ rest.head?, ∀ v, ¬ IsDigitOf base c v) :
    digitRun base (s ++ rest) = (ds, rest) := by
  induction hs with
  | nil =>
    cases rest with
    | nil => rfl
    | cons c rest =>
      rw [List.nil_append, digitRun, (digit?_eq_none_iff hbase).2 (hrest c rfl)]
  | cons hd hs ih => rw [List.cons_append, digitRun, (digit?_eq_some_iff hbase).2 hd, ih]

/-- What is read as digits are digits. -/
theorem exists_areDigits (hbase : base ≤ 16) (s : Text) :
    ∃ t, AreDigits base t (digitRun base s).1 ∧ s = t ++ (digitRun base s).2 := by
  induction s with
  | nil => exact ⟨[], .nil, rfl⟩
  | cons c s ih =>
    rw [digitRun]
    cases hc : digit? base c with
    | none => exact ⟨[], .nil, rfl⟩
    | some v =>
      obtain ⟨t, ht, hs⟩ := ih
      exact ⟨c :: t, .cons ((digit?_eq_some_iff hbase).1 hc) ht, congrArg (c :: ·) hs⟩

/-- Two runs of digits make a longer one. -/
theorem AreDigits.append {es : List Nat} (hs : AreDigits base s ds) (ht : AreDigits base t es) :
    AreDigits base (s ++ t) (ds ++ es) :=
  List.rel_append hs ht

/-- One digit more makes a longer run. -/
theorem AreDigits.concat {v : Nat} (hs : AreDigits base s ds) (hc : IsDigitOf base c v) :
    AreDigits base (s ++ [c]) (ds ++ [v]) :=
  hs.append (.cons hc .nil)

/-- Runs of digits have as many values as bytes. -/
theorem AreDigits.ne_nil_iff (hs : AreDigits base s ds) : s ≠ [] ↔ ds ≠ [] := by
  rw [← List.length_pos_iff, ← List.length_pos_iff, hs.length_eq]

/-- The point is no digit. -/
theorem not_isDigitOf_dot {v : Nat} (hbase : base ≤ 16) : ¬ IsDigitOf base Byte.dot v := by
  rw [← digit?_eq_some_iff hbase]
  have hdot : digitValue? Byte.dot = none := by decide
  simp [digit?, hdot]

end Text

open Text

/-! ## Significands -/

namespace Significand

variable {base : Nat} {s rest m : Text} {q : ℚ}

/-- **A significand is read as the number that it stands for**, if the text does not go on with a
longer one. -/
theorem read?_of_isSignificand (hbase : base ≤ 16) (hm : IsSignificand base m q)
    (hlongest : ∀ c ∈ rest.head?, ∀ q', ¬ IsSignificand base (m ++ [c]) q') :
    ∃ value places : ℕ, q = value / (base : ℚ) ^ places ∧
      Significand.read? base (m ++ rest) = some ⟨value, places, rest⟩ := by
  cases hm with
  | @whole _ ds hs hne =>
    have hdigit : ∀ c ∈ rest.head?, ∀ v, ¬ IsDigitOf base c v := fun c hc v hv =>
      hlongest c hc _ (.whole (hs.concat hv) (by simp))
    have hdot : ∀ c ∈ rest.head?, c ≠ Byte.dot := by
      rintro c hc rfl
      exact hlongest _ hc _ (.pointed hs .nil (.inl hne))
    refine ⟨Nat.ofDigits base ds.reverse, 0, by rw [pow_zero, div_one], ?_⟩
    have hds : ds ≠ [] := hs.ne_nil_iff.1 hne
    rw [Significand.read?, digitRun_append hbase hs hdigit, ← digitsValue_eq_ofDigits]
    cases rest with
    | nil => simp [hds]
    | cons c rest => simp [hds, hdot c rfl]
  | @pointed s t ds es hs ht hne =>
    have hdigit : ∀ c ∈ rest.head?, ∀ v, ¬ IsDigitOf base c v := fun c hc v hv => by
      have hlonger := IsSignificand.pointed hs (ht.concat hv) (.inr (by simp))
      rw [← List.cons_append, ← List.append_assoc] at hlonger
      exact hlongest c hc _ hlonger
    have hpoint : ∀ c ∈ (Byte.dot :: (t ++ rest)).head?, ∀ v, ¬ IsDigitOf base c v := by
      rintro c hc v
      obtain rfl : Byte.dot = c := Option.some.inj hc
      exact not_isDigitOf_dot hbase
    refine ⟨Nat.ofDigits base (ds ++ es).reverse, t.length, rfl, ?_⟩
    have hds : ¬ (ds = [] ∧ es = []) := by
      rw [not_and_or]
      exact hne.imp hs.ne_nil_iff.1 ht.ne_nil_iff.1
    rw [List.append_assoc, List.cons_append, Significand.read?, digitRun_append hbase hs hpoint]
    simp only [if_true, digitRun_append hbase ht hdigit, if_neg hds, ← digitsValue_eq_ofDigits,
      ht.length_eq]

/-- What is read as a significand is one. -/
theorem exists_isSignificand (hbase : base ≤ 16) {r : Significand}
    (h : Significand.read? base s = some r) : ∃ m q, IsSignificand base m q ∧ s = m ++ r.rest := by
  obtain ⟨t, ht, hs⟩ := exists_areDigits hbase s
  rw [Significand.read?] at h
  generalize digitRun base s = run at ht hs h
  obtain ⟨ds, after⟩ := run
  subst hs
  have hwhole : (if ds = [] then none else some ⟨digitsValue base (ds ++ []), 0, after⟩) = some r →
      ∃ m q, IsSignificand base m q ∧ t ++ after = m ++ r.rest := by
    intro h
    split at h
    · simp at h
    · next hds =>
      obtain rfl := Option.some.inj h
      exact ⟨t, _, .whole ht (ht.ne_nil_iff.2 hds), rfl⟩
  cases after with
  | nil => exact hwhole (by simpa using h)
  | cons c after =>
    by_cases hc : c = Byte.dot
    · obtain ⟨u, hu, hafter⟩ := exists_areDigits hbase after
      simp only [hc, if_true] at h
      split at h
      · simp at h
      · next hne =>
        obtain rfl := Option.some.inj h
        refine ⟨t ++ Byte.dot :: u, _, .pointed ht hu ?_, ?_⟩
        · rw [ht.ne_nil_iff, hu.ne_nil_iff]
          exact not_and_or.1 hne
        · rw [hc, List.append_assoc, List.cons_append, ← hafter]
    · exact hwhole (by simpa [hc] using h)

end Significand

/-! ## Powers -/

section Powers

variable {mark : UInt8} {marks s e rest : Text} {k : ℤ}

/-- The exponent after a mark. -/
theorem exponentPart_cons (hmark : ∀ c, toLower c = mark ↔ c ∈ marks) {c : UInt8} (hc : c ∈ marks)
    (s : Text) : exponentPart mark (c :: s) =
      factorOf (signed s).1 * (digitsValue 10 (digitRun 10 (signed s).2).1 : ℕ) := by
  rw [exponentPart, if_pos ((hmark c).2 hc)]
  generalize signed s = parts
  obtain ⟨negative, rest⟩ := parts
  cases negative <;> simp [factorOf]

/-- Where no power stands, the exponent is zero. -/
theorem exponentPart_eq_zero (hmark : ∀ c, toLower c = mark ↔ c ∈ marks)
    (hnone : ∀ e k, IsPower marks e k → e <+: s → e = []) : exponentPart mark s = 0 := by
  cases s with
  | nil => rfl
  | cons c s =>
    by_cases hc : c ∈ marks
    · -- a mark without digits after it is no power
      obtain ⟨sign, hsign, hs⟩ := exists_isSign s
      obtain ⟨t, ht, hrest⟩ := exists_areDigits (show 10 ≤ 16 by decide) (signed s).2
      have hnil : t = [] := by
        by_contra hne
        refine absurd (hnone _ _ (.some hc hsign ht hne) ?_) (List.cons_ne_nil _ _)
        exact ⟨(digitRun 10 (signed s).2).2, by
          rw [List.cons_append, List.append_assoc, ← hrest, ← hs]⟩
      have hds : (digitRun 10 (signed s).2).1 = [] := by
        by_contra hds
        exact ht.ne_nil_iff.2 hds hnil
      rw [exponentPart_cons hmark hc, hds]
      simp [digitsValue]
    · exact if_neg fun h => hc ((hmark c).1 h)

/-- **A power is read as its exponent**, if the text does not go on with a longer one. -/
theorem exponentPart_of_isPower (hmark : ∀ c, toLower c = mark ↔ c ∈ marks)
    (he : IsPower marks e k)
    (hlongest : ∀ e' k', IsPower marks e' k' → e' <+: e ++ rest → e'.length ≤ e.length) :
    exponentPart mark (e ++ rest) = k := by
  cases he with
  | none =>
    refine exponentPart_eq_zero hmark fun e' k' he' hstart => ?_
    exact List.eq_nil_of_length_eq_zero (Nat.le_zero.1 (hlongest e' k' he' hstart))
  | @some c sign s factor ds hc hsign hs hne =>
    have hdigit : ∀ d ∈ rest.head?, ∀ v, ¬ IsDigitOf 10 d v := by
      intro d hd v hv
      obtain ⟨rest, rfl⟩ := List.head?_eq_some_iff.1 hd
      have hlength := hlongest _ _ (.some hc hsign (hs.concat hv) (by simp))
        ⟨rest, by simp⟩
      simp at hlength
    obtain ⟨d, s, rfl⟩ := List.exists_cons_of_ne_nil hne
    obtain ⟨v, ds, hv, -, rfl⟩ := List.forall₂_cons_left_iff.1 hs
    obtain ⟨-, hminus, hplus⟩ := not_isBlank_of_isDigit d (isDigit_of_isDigitOf hv)
    obtain ⟨hsnd, hfst⟩ := signed_append hsign hminus hplus (s ++ rest)
    have hassoc : c :: (sign ++ d :: s) ++ rest = c :: (sign ++ d :: (s ++ rest)) := by simp
    rw [hassoc, exponentPart_cons hmark hc, hsnd, hfst, ← List.cons_append,
      digitRun_append (by decide) hs hdigit, digitsValue_eq_ofDigits]

end Powers

end CodeSimilarity
