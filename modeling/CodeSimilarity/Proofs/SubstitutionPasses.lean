import CodeSimilarity.Proofs.FingerprintScan

set_option autoImplicit false
set_option relaxedAutoImplicit false

/-!
# The scan as a sequence of substitutions

In a text that opens no group, the fingerprint scan replaces operators and nothing else. What it
does in one go, looking one byte ahead, comes out as well when the classes are replaced one after
the other in the whole text, the comparisons of two bytes first.

## Main definitions

* `Pass` — a substitution of some marks by a token.
* `Pass.run` — the substitution carried out in a text.
* `operatorPasses` — the substitutions for the operators, in order.
* `substituteOperators` — all of them carried out one after the other.

## Main results

* `Pass.run_eq_flatMap` — a substitution of single bytes looks at each byte alone.
* `substituteOperators_eq` — after the first pass, the others replace each byte by its class.
* `fingerprint_eq_substituteOperators` — without groups, the scan is this sequence.
-/

namespace CodeSimilarity

open Text

variable {c : UInt8} {s w mark : Text}

/-! ## Passes -/

/-- A substitution of texts by a token. -/
structure Pass where
  /-- The texts that are replaced. -/
  marks : List Text
  /-- What they are replaced by. -/
  token : Text
deriving DecidableEq, Repr

namespace Pass

variable {p : Pass}

/-- The text with the marks replaced, from left to right and without overlaps: where a mark
stands, the token is put and the pass goes on behind the mark; any other byte is kept. -/
def run (p : Pass) : Text → Text
  | [] => []
  | c :: s =>
    match p.marks.find? fun mark => mark.isPrefixOf (c :: s) with
    | some mark => p.token ++ p.run (s.drop (mark.length - 1))
    | none => c :: p.run s
termination_by s => s.length
decreasing_by
  · simp only [List.length_drop, List.length_cons]
    omega
  · simp only [List.length_cons]
    omega

/-- A pass over the empty text writes nothing. -/
@[simp] theorem run_nil : p.run [] = [] := by rw [run]

/-- Where a mark stands, the pass writes its token and goes on behind the mark. -/
theorem run_of_mark (h : (p.marks.find? fun mark => mark.isPrefixOf (c :: s)) = some mark) :
    p.run (c :: s) = p.token ++ p.run (s.drop (mark.length - 1)) := by
  rw [run, h]

/-- Where no mark stands, the pass keeps one byte and goes on behind it. -/
theorem run_of_no_mark (h : ∀ mark ∈ p.marks, ¬ mark <+: c :: s) :
    p.run (c :: s) = c :: p.run s := by
  have hnone : (p.marks.find? fun mark => mark.isPrefixOf (c :: s)) = none :=
    List.find?_eq_none.2 fun mark hmark hprefix =>
      h mark hmark (List.isPrefixOf_iff_prefix.1 hprefix)
  rw [run, hnone]

/-- What a pass over single bytes makes of one byte. -/
def onByte (p : Pass) (c : UInt8) : Text :=
  if p.marks.contains [c] then p.token else [c]

/-- **A pass over single bytes** looks at each byte alone. -/
theorem run_eq_flatMap (h : ∀ mark ∈ p.marks, mark.length = 1) (s : Text) :
    p.run s = s.flatMap p.onByte := by
  induction s with
  | nil => exact run_nil
  | cons c s ih =>
    by_cases hc : p.marks.contains [c]
    · obtain ⟨mark, hmark⟩ : ∃ mark, (p.marks.find? fun mark => mark.isPrefixOf (c :: s)) =
          some mark := by
        refine Option.isSome_iff_exists.1 (List.find?_isSome.2
          ⟨[c], List.contains_iff_mem.1 hc, ?_⟩)
        exact List.isPrefixOf_iff_prefix.2 (List.prefix_append [c] s)
      rw [run_of_mark hmark, h mark (List.mem_of_find?_eq_some hmark), List.flatMap_cons, onByte,
        if_pos hc, Nat.sub_self, List.drop_zero, ih]
    · have hno : ∀ mark ∈ p.marks, ¬ mark <+: c :: s := by
        intro mark hmark hprefix
        obtain ⟨d, rfl⟩ := List.length_eq_one_iff.1 (h mark hmark)
        obtain ⟨rfl, -⟩ := List.cons_prefix_cons.1 hprefix
        exact hc (List.contains_iff_mem.2 hmark)
      rw [run_of_no_mark hno, List.flatMap_cons, onByte, if_neg hc, ih, List.singleton_append]

end Pass

/-! ## The passes over the operators -/

/-- The comparisons of two bytes. -/
def pairPass : Pass where
  marks := ["==", "!=", "<=", ">="].map Text.ofAscii
  token := Text.ofAscii "CMP"

/-- The comparisons of one byte. -/
def orderPass : Pass where
  marks := ["<", ">"].map Text.ofAscii
  token := Text.ofAscii "CMP"

/-- The assignment. -/
def assignPass : Pass where
  marks := ["="].map Text.ofAscii
  token := Text.ofAscii "ASSIGN"

/-- The arithmetic operators. -/
def arithmeticPass : Pass where
  marks := ["+", "-", "*", "/", "%"].map Text.ofAscii
  token := Text.ofAscii "OP"

/-- The substitutions for the operators, in the order in which they are carried out. -/
def operatorPasses : List Pass :=
  [pairPass, orderPass, assignPass, arithmeticPass]

/-- The text with its operators replaced by their classes, one class after the other. -/
def substituteOperators (s : Text) : Text :=
  operatorPasses.foldl (fun s p => p.run s) s

/-- The order pass writes its token for `<` and `>`. -/
theorem onByte_orderPass (c : UInt8) :
    orderPass.onByte c = if c = 0x3C ∨ c = 0x3E then Text.ofAscii "CMP" else [c] := by
  have hmarks : orderPass.marks = [[0x3C], [0x3E]] := by decide
  rw [Pass.onByte, hmarks]
  simp [orderPass]

/-- The assignment pass writes its token for `=`. -/
theorem onByte_assignPass (c : UInt8) :
    assignPass.onByte c = if c = Byte.equals then Text.ofAscii "ASSIGN" else [c] := by
  have hmarks : assignPass.marks = [[Byte.equals]] := by decide
  rw [Pass.onByte, hmarks]
  simp [assignPass]

/-- The arithmetic pass writes its token for each arithmetic byte. -/
theorem onByte_arithmeticPass (c : UInt8) :
    arithmeticPass.onByte c = if isArithmetic c then Text.ofAscii "OP" else [c] := by
  have hmarks : arithmeticPass.marks =
      [[Byte.plus], [Byte.minus], [0x2A], [Byte.slash], [0x25]] := by decide
  rw [Pass.onByte, hmarks]
  simp [arithmeticPass, isArithmetic, or_assoc]

/-- The passes over single bytes replace each byte by its class. -/
theorem flatMap_onByte (c : UInt8) :
    ((orderPass.onByte c).flatMap assignPass.onByte).flatMap arithmeticPass.onByte =
      operatorToken c := by
  rw [operatorToken, onByte_orderPass]
  by_cases horder : c = 0x3C ∨ c = 0x3E
  · rw [if_pos horder, if_pos horder]
    decide
  rw [if_neg horder, if_neg horder, List.flatMap_singleton, onByte_assignPass]
  by_cases hequals : c = Byte.equals
  · rw [if_pos hequals, if_pos hequals]
    decide
  rw [if_neg hequals, if_neg hequals, List.flatMap_singleton, onByte_arithmeticPass]

/-- **After the first pass**, the others replace each byte by its class. -/
theorem substituteOperators_eq (s : Text) :
    substituteOperators s = (pairPass.run s).flatMap operatorToken := by
  have horder : ∀ mark ∈ orderPass.marks, mark.length = 1 := by decide
  have hassign : ∀ mark ∈ assignPass.marks, mark.length = 1 := by decide
  have harithmetic : ∀ mark ∈ arithmeticPass.marks, mark.length = 1 := by decide
  calc substituteOperators s
      = arithmeticPass.run (assignPass.run (orderPass.run (pairPass.run s))) := rfl
    _ = (((pairPass.run s).flatMap orderPass.onByte).flatMap assignPass.onByte).flatMap
          arithmeticPass.onByte := by
        rw [Pass.run_eq_flatMap horder, Pass.run_eq_flatMap hassign,
          Pass.run_eq_flatMap harithmetic]
    _ = (pairPass.run s).flatMap operatorToken := by
        rw [List.flatMap_assoc, List.flatMap_assoc]
        exact List.flatMap_congr fun c _ => List.flatMap_assoc.symm.trans (flatMap_onByte c)

/-! ## The first pass along the scan -/

/-- The first pass takes a comparison of two bytes. -/
theorem run_pairPass_comparison (hc : startsComparison c) (s : Text) :
    pairPass.run (c :: Byte.equals :: s) = comparisonToken ++ pairPass.run s := by
  have hmark : (pairPass.marks.find? fun mark => mark.isPrefixOf (c :: Byte.equals :: s)) =
      some [c, Byte.equals] := by
    simp only [startsComparison, Bool.or_eq_true, beq_iff_eq] at hc
    rcases hc with ((rfl | rfl) | rfl) | rfl <;> rfl
  exact Pass.run_of_mark hmark

/-- The first pass keeps a byte that begins no comparison of two bytes. -/
theorem run_pairPass_other (h : startsComparison c → s.head? ≠ some Byte.equals) :
    pairPass.run (c :: s) = c :: pairPass.run s := by
  have hmarks : pairPass.marks =
      [[Byte.equals, Byte.equals], [0x21, Byte.equals], [0x3C, Byte.equals],
        [0x3E, Byte.equals]] := by decide
  refine Pass.run_of_no_mark fun mark hmark hprefix => ?_
  rw [hmarks] at hmark
  simp only [List.mem_cons, List.not_mem_nil, or_false] at hmark
  rcases hmark with rfl | rfl | rfl | rfl
  all_goals
    obtain ⟨rfl, hbehind⟩ := List.cons_prefix_cons.1 hprefix
    obtain ⟨rest, rfl⟩ := hbehind
    exact h (by decide) rfl

/-- The bytes of a word are neither operators nor parts of one. -/
theorem operatorToken_of_isWord (hc : isWord c) :
    ¬ startsComparison c ∧ operatorToken c = [c] := by
  have hstarts : ¬ startsComparison c := by
    intro h
    simp only [startsComparison, Bool.or_eq_true, beq_iff_eq] at h
    rcases h with ((rfl | rfl) | rfl) | rfl <;> exact absurd hc (by decide)
  have harithmetic : ¬ isArithmetic c := by
    intro h
    simp only [isArithmetic, Bool.or_eq_true, beq_iff_eq] at h
    rcases h with (((rfl | rfl) | rfl) | rfl) | rfl <;> exact absurd hc (by decide)
  have hnone : (¬ c = 0x3C ∧ ¬ c = 0x3E) ∧ ¬ c = Byte.equals := by
    refine ⟨⟨?_, ?_⟩, ?_⟩ <;>
    · rintro rfl
      exact hstarts (by decide)
  obtain ⟨horder, hequals⟩ := hnone
  rw [operatorToken, if_neg (not_or.2 horder), if_neg hequals, if_neg harithmetic]
  exact ⟨hstarts, rfl⟩

/-- Words are kept by all passes. -/
theorem flatMap_run_pairPass_word (hw : ∀ c ∈ w, isWord c) (s : Text) :
    (pairPass.run (w ++ s)).flatMap operatorToken =
      w ++ (pairPass.run s).flatMap operatorToken := by
  induction w with
  | nil => rfl
  | cons c w ih =>
    obtain ⟨hc, hw⟩ := List.forall_mem_cons.1 hw
    obtain ⟨hstarts, htoken⟩ := operatorToken_of_isWord hc
    rw [List.cons_append, run_pairPass_other fun h => absurd h hstarts, List.flatMap_cons, htoken,
      ih hw, List.singleton_append, List.cons_append]

/-- **Without groups, the scan is a sequence of substitutions**: first the comparisons of two
bytes, then those of one, then the assignments, then the arithmetic operators; all other bytes are
kept. -/
theorem fingerprint_eq_substituteOperators (s : Text) (h : Byte.parenOpen ∉ s) :
    fingerprint s = substituteOperators s := by
  rw [substituteOperators_eq]
  induction s using fingerprint_induction with
  | nil => rw [fingerprint_nil, Pass.run_nil, List.flatMap_nil]
  | group w s after hw hapart hafter ih =>
    have hnone := afterArguments?_of_notMem fun hs => h (List.mem_append_right w hs)
    rw [hnone] at hafter
    cases hafter
  | word w s hw hapart hnone ih =>
    have hs : Byte.parenOpen ∉ s := fun hs => h (List.mem_append_right w hs)
    rw [fingerprint_word_append hw hapart hnone, flatMap_run_pairPass_word hw.2, ih hs]
  | comparison c s hc ih =>
    have hs : Byte.parenOpen ∉ s := fun hs =>
      h (List.mem_cons_of_mem _ (List.mem_cons_of_mem _ hs))
    have htoken : comparisonToken.flatMap operatorToken = comparisonToken := by decide
    rw [fingerprint_comparison hc, run_pairPass_comparison hc, List.flatMap_append, htoken, ih hs]
  | operator c s hc hhead ih =>
    have hs : Byte.parenOpen ∉ s := fun hs => h (List.mem_cons_of_mem _ hs)
    rw [fingerprint_operator hc hhead, run_pairPass_other hhead, List.flatMap_cons, ih hs]

/-- Runs of adjacent operators fall into pairs from the left. -/
theorem fingerprint_eq_substituteOperators_adjacent :
    Byte.parenOpen ∉ ofAscii "a===b<<=c->d !e" ∧
      fingerprint (ofAscii "a===b<<=c->d !e") = substituteOperators (ofAscii "a===b<<=c->d !e") ∧
      fingerprint (ofAscii "a===b<<=c->d !e") = ofAscii "aCMPASSIGNbCMPCMPcOPCMPd !e" := by
  have hplain : Byte.parenOpen ∉ ofAscii "a===b<<=c->d !e" := by decide
  exact ⟨hplain, fingerprint_eq_substituteOperators _ hplain, by decide +kernel⟩

end CodeSimilarity
