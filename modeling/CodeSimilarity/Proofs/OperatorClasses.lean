import CodeSimilarity.Proofs.FingerprintScan
import CodeSimilarity.Proofs.Layout

set_option autoImplicit false
set_option relaxedAutoImplicit false

/-!
# Fingerprints keep classes only

A fingerprint does not show which of its class an operator is, nor what stands between the
parentheses of a call. The place may lie anywhere in a text: the text before it may have groups
open that are closed behind it or nowhere, so the place may be scanned, skipped with a group around
it, or kept under a head without a group.

## Main definitions

* `parenthesized` — a text between parentheses.
* `arithmeticOperators`, `comparisonOperators` — the two classes of operators.
* `isSymbol` — a text that begins neither a word nor a group and has no parentheses.

## Main results

* `fingerprint_replace` — texts that are passed over and scanned alike can replace each other
  anywhere.
* `fingerprint_of_classes` — arguments, arithmetic operators and comparisons can be replaced.
-/

namespace CodeSimilarity

open Text

variable {c : UInt8} {s t u u' o o' w x : Text}

/-! ## Replacing a part of a text -/

/-- **Texts that a search passes over** and that are scanned alike before `t` can replace each
other before `t`. -/
theorem fingerprint_replace (hu : PassedOver u) (hu' : PassedOver u') (h : Joint s (u ++ t))
    (h' : Joint s (u' ++ t)) (hfingerprint : fingerprint (u ++ t) = fingerprint (u' ++ t)) :
    fingerprint (s ++ u ++ t) = fingerprint (s ++ u' ++ t) := by
  rw [List.append_assoc, List.append_assoc]
  refine fingerprint_append_congr h h' hfingerprint fun depth => ?_
  rw [hu, hu']

/-- The first byte behind a joint decides that it is one. -/
theorem joint_cons (hword : (∀ d ∈ s.getLast?, ¬ isWord d) ∨ ¬ isWord c)
    (hcomparison : (∀ d ∈ s.getLast?, ¬ startsComparison d) ∨ c ≠ Byte.equals)
    (hblank : ¬ isBlank c) (hopen : c ≠ Byte.parenOpen) (t : Text) : Joint s (c :: t) where
  word := hword.imp_right (startsApart_cons c t).2
  comparison d hd hstarts := by
    rcases hcomparison with hlast | hc
    · exact absurd hstarts (hlast d hd)
    · simpa using hc
  group := by simpa [OpensGroup, hblank] using hopen

/-! ## Arguments -/

/-- A text between parentheses. -/
def parenthesized (x : Text) : Text :=
  Byte.parenOpen :: (x ++ [Byte.parenClose])

/-- The bytes of a word are neither blanks, nor parentheses, nor an equals sign. -/
theorem plain_of_isWord (hc : isWord c) :
    c ≠ Byte.parenOpen ∧ c ≠ Byte.parenClose ∧ c ≠ Byte.equals ∧ ¬ isBlank c := by
  refine ⟨?_, ?_, ?_, fun hblank => not_isWord_of_isBlank hblank hc⟩
  all_goals
    rintro rfl
    revert hc
    decide

/-- A head with balanced arguments is passed over. -/
theorem passedOver_call {blanks : Text} (hw : IsHead w) (hblanks : ∀ c ∈ blanks, isBlank c)
    (hx : Balanced x) : PassedOver (w ++ blanks ++ parenthesized x) := by
  have hplain : PassedOver (w ++ blanks) := by
    refine passedOver_of_plain fun c hc => ?_
    rcases List.mem_append.1 hc with hc | hc
    · obtain ⟨hopen, hclose, -⟩ := plain_of_isWord (hw.1.2 c hc)
      exact ⟨hopen, hclose⟩
    · have hblank := hblanks c hc
      constructor <;>
      · rintro rfl
        revert hblank
        decide
  exact hplain.append hx.passedOver.group

/-- Only the head of a call with balanced arguments shows. -/
theorem fingerprint_call {blanks : Text} (hw : IsHead w) (hblanks : ∀ c ∈ blanks, isBlank c)
    (hx : Balanced x) (t : Text) :
    fingerprint (w ++ blanks ++ parenthesized x ++ t) = groupToken w ++ fingerprint t := by
  have hafter : afterArguments? (blanks ++ (parenthesized x ++ t)) = some t := by
    rw [afterArguments?_blanks_append hblanks, parenthesized, List.cons_append,
      afterArguments?_open, List.append_assoc]
    exact afterGroup?_one_eq_some_iff.2 ⟨x, hx, rfl⟩
  have hapart : StartsApart (blanks ++ (parenthesized x ++ t)) := by
    cases blanks with
    | nil => exact (startsApart_cons _ _).2 (by decide)
    | cons c blanks =>
      exact (startsApart_cons _ _).2 (not_isWord_of_isBlank (hblanks c List.mem_cons_self))
  rw [List.append_assoc, List.append_assoc, fingerprint_head_append hw hapart hafter]

/-! ## Operators -/

/-- The arithmetic operators. -/
def arithmeticOperators : List Text :=
  ["+", "-", "*", "/", "%"].map Text.ofAscii

/-- The comparisons of one or two bytes. -/
def comparisonOperators : List Text :=
  ["<", ">", "<=", ">=", "==", "!="].map Text.ofAscii

/-- Whether a text begins neither a word nor, after any blanks, a group, and has no
parentheses. -/
def isSymbol (o : Text) : Bool :=
  o.head?.any (fun c => !isWord c && !isBlank c) &&
    o.all fun c => c != Byte.parenOpen && c != Byte.parenClose

/-- An operator made of symbols holds no parenthesis. -/
theorem passedOver_of_isSymbol (ho : isSymbol o) : PassedOver o := by
  simp only [isSymbol, Bool.and_eq_true, List.all_eq_true, bne_iff_ne] at ho
  exact passedOver_of_plain ho.2

/-- Before a symbol there is a joint, unless it may complete a comparison. -/
theorem joint_of_isSymbol (ho : isSymbol o)
    (h : (∀ d ∈ s.getLast?, ¬ startsComparison d) ∨ o.head? ≠ some Byte.equals) (t : Text) :
    Joint s (o ++ t) := by
  cases o with
  | nil => simp [isSymbol] at ho
  | cons c o =>
    simp only [isSymbol, List.head?_cons, Option.any_some, Bool.and_eq_true, Bool.not_eq_true',
      List.all_eq_true, bne_iff_ne] at ho
    obtain ⟨⟨hword, hblank⟩, hparens⟩ := ho
    obtain ⟨hopen, -⟩ := hparens c List.mem_cons_self
    exact joint_cons (.inr (by simp [hword])) (h.imp_right fun hhead hc => hhead (by simp [hc]))
      (by simp [hblank]) hopen (o ++ t)

/-- **Symbols that are scanned alike** can replace each other, wherever they complete no
comparison. -/
theorem fingerprint_replace_symbol (ho : isSymbol o) (ho' : isSymbol o')
    (h : (∀ d ∈ s.getLast?, ¬ startsComparison d) ∨
      o.head? ≠ some Byte.equals ∧ o'.head? ≠ some Byte.equals)
    (hfingerprint : fingerprint (o ++ t) = fingerprint (o' ++ t)) :
    fingerprint (s ++ o ++ t) = fingerprint (s ++ o' ++ t) :=
  fingerprint_replace (passedOver_of_isSymbol ho) (passedOver_of_isSymbol ho')
    (joint_of_isSymbol ho (h.imp_right And.left) t)
    (joint_of_isSymbol ho' (h.imp_right And.right) t) hfingerprint

/-- Arithmetic operators are made of symbols and do not begin with an equals sign. -/
theorem isSymbol_of_mem_arithmeticOperators (ho : o ∈ arithmeticOperators) :
    isSymbol o ∧ o.head? ≠ some Byte.equals := by
  have hall : arithmeticOperators.all fun o => isSymbol o && o.head? != some Byte.equals := by
    decide
  simpa using List.all_eq_true.1 hall o ho

/-- Comparison operators are made of symbols. -/
theorem isSymbol_of_mem_comparisonOperators (ho : o ∈ comparisonOperators) : isSymbol o :=
  List.all_eq_true.1 (show comparisonOperators.all isSymbol by decide) o ho

/-- An arithmetic operator shows as its class. -/
theorem fingerprint_arithmeticOperator (ho : o ∈ arithmeticOperators) (t : Text) :
    fingerprint (o ++ t) = Text.ofAscii "OP" ++ fingerprint t := by
  simp only [arithmeticOperators, List.map_cons, List.map_nil, List.mem_cons, List.not_mem_nil,
    or_false] at ho
  rcases ho with rfl | rfl | rfl | rfl | rfl
  all_goals exact fingerprint_operator (by decide) fun hc => absurd hc (by decide)

/-- A comparison shows as its class, unless an equals sign behind it may belong to it. -/
theorem fingerprint_comparisonOperator (ho : o ∈ comparisonOperators)
    (ht : t.head? ≠ some Byte.equals) :
    fingerprint (o ++ t) = comparisonToken ++ fingerprint t := by
  simp only [comparisonOperators, List.map_cons, List.map_nil, List.mem_cons, List.not_mem_nil,
    or_false] at ho
  rcases ho with rfl | rfl | rfl | rfl | rfl | rfl
  · exact fingerprint_operator (by decide) fun _ => ht
  · exact fingerprint_operator (by decide) fun _ => ht
  all_goals exact fingerprint_comparison (by decide)

/-- **The fingerprint depends only on classes.** Between any two texts, whatever groups are open
there, (i) the balanced arguments of a head can be replaced by any others, (ii) an arithmetic
operator by any other, and (iii) a comparison by any other, unless its neighbours may belong to
it. -/
theorem fingerprint_of_classes (s t : Text) :
    (∀ w blanks x y, (∀ c ∈ s.getLast?, ¬ isWord c) → IsHead w → (∀ c ∈ blanks, isBlank c) →
      Balanced x → Balanced y →
        fingerprint (s ++ (w ++ blanks ++ parenthesized x) ++ t) =
          fingerprint (s ++ (w ++ blanks ++ parenthesized y) ++ t)) ∧
      (∀ o ∈ arithmeticOperators, ∀ o' ∈ arithmeticOperators,
        fingerprint (s ++ o ++ t) = fingerprint (s ++ o' ++ t)) ∧
      ((∀ c ∈ s.getLast?, ¬ startsComparison c) → t.head? ≠ some Byte.equals →
        ∀ o ∈ comparisonOperators, ∀ o' ∈ comparisonOperators,
          fingerprint (s ++ o ++ t) = fingerprint (s ++ o' ++ t)) := by
  refine ⟨?_, ?_, ?_⟩
  · intro w blanks x y hs hw hblanks hx hy
    obtain ⟨c, v, rfl, hc, -⟩ := hw.1.exists_cons
    obtain ⟨hopen, -, hequals, hblank⟩ := plain_of_isWord hc
    have hjoint : ∀ rest, Joint s (c :: rest) :=
      joint_cons (.inl hs) (.inr hequals) hblank hopen
    refine fingerprint_replace (passedOver_call hw hblanks hx) (passedOver_call hw hblanks hy)
      (hjoint _) (hjoint _) ?_
    rw [fingerprint_call hw hblanks hx, fingerprint_call hw hblanks hy]
  · intro o ho o' ho'
    obtain ⟨hsymbol, hhead⟩ := isSymbol_of_mem_arithmeticOperators ho
    obtain ⟨hsymbol', hhead'⟩ := isSymbol_of_mem_arithmeticOperators ho'
    refine fingerprint_replace_symbol hsymbol hsymbol' (.inr ⟨hhead, hhead'⟩) ?_
    rw [fingerprint_arithmeticOperator ho, fingerprint_arithmeticOperator ho']
  · intro hs ht o ho o' ho'
    refine fingerprint_replace_symbol (isSymbol_of_mem_comparisonOperators ho)
      (isSymbol_of_mem_comparisonOperators ho') (.inl hs) ?_
    rw [fingerprint_comparisonOperator ho ht, fingerprint_comparisonOperator ho' ht]

/-- Between two open heads, of which the inner one is closed behind the place and the outer one
nowhere. -/
theorem fingerprint_of_classes_nested :
    ((∀ c ∈ (ofAscii "f(g(").getLast?, ¬ isWord c) ∧ IsHead (ofAscii "if") ∧
        (∀ c ∈ ofAscii " ", isBlank c) ∧ Balanced (ofAscii "a(b)") ∧ Balanced (ofAscii "") ∧
        (∀ c ∈ (ofAscii "f(g(").getLast?, ¬ startsComparison c) ∧
        (ofAscii ") h").head? ≠ some Byte.equals) ∧
      fingerprint (ofAscii "f(g(" ++ (ofAscii "if" ++ ofAscii " " ++
          parenthesized (ofAscii "a(b)")) ++ ofAscii ") h") =
        fingerprint (ofAscii "f(g(" ++ (ofAscii "if" ++ ofAscii " " ++
          parenthesized (ofAscii "")) ++ ofAscii ") h") ∧
      fingerprint (ofAscii "f(g(" ++ ofAscii "+" ++ ofAscii ") h") =
        fingerprint (ofAscii "f(g(" ++ ofAscii "%" ++ ofAscii ") h") ∧
      fingerprint (ofAscii "f(g(" ++ ofAscii "<" ++ ofAscii ") h") =
        fingerprint (ofAscii "f(g(" ++ ofAscii "!=" ++ ofAscii ") h") := by
  have hlast : (ofAscii "f(g(").getLast? = some Byte.parenOpen := by decide
  have hword : ∀ c ∈ (ofAscii "f(g(").getLast?, ¬ isWord c := by
    rw [hlast]
    rintro c ⟨⟩
    decide
  have hcomparison : ∀ c ∈ (ofAscii "f(g(").getLast?, ¬ startsComparison c := by
    rw [hlast]
    rintro c ⟨⟩
    decide
  have hhead : IsHead (ofAscii "if") :=
    ⟨⟨by decide, List.all_eq_true.1 (by decide)⟩, by decide⟩
  have hblanks : ∀ c ∈ ofAscii " ", isBlank c := List.all_eq_true.1 (by decide)
  have hx : Balanced (ofAscii "a(b)") := by decide
  have hy : Balanced (ofAscii "") := by decide
  have hequals : (ofAscii ") h").head? ≠ some Byte.equals := by decide
  obtain ⟨hcalls, harithmetic, hcomparisons⟩ :=
    fingerprint_of_classes (ofAscii "f(g(") (ofAscii ") h")
  exact ⟨⟨hword, hhead, hblanks, hx, hy, hcomparison, hequals⟩,
    hcalls _ _ _ _ hword hhead hblanks hx hy, harithmetic _ (by decide) _ (by decide),
    hcomparisons hcomparison hequals _ (by decide) _ (by decide)⟩

end CodeSimilarity
