import CodeSimilarity.Text.Basic

set_option autoImplicit false
set_option relaxedAutoImplicit false

/-!
# Structure fingerprints

The fingerprint of a piece of code keeps the classes of its operators and calls and forgets
which ones they are. A call or control header goes together with its whole parenthesised
group, which may run over several lines; what stands inside the group does not count.

## Main definitions

* `afterGroup?` — what follows the parenthesis that closes a group.
* `afterArguments?` — what follows a parenthesised group at the front of a text.
* `groupToken` — what a word and its group are replaced by.
* `operatorToken` — what a single byte is replaced by.
* `fingerprint` — the fingerprint of a text, by one scan from left to right.

## Main results

* `length_afterArguments?` — what follows a group is shorter, so the scan ends.
* `fingerprint_group`, `fingerprint_word`, `fingerprint_comparison`, `fingerprint_operator` —
  the four steps of the scan.
-/

namespace CodeSimilarity

/-- What follows the parenthesis that closes the outermost of `depth` open groups, if any
does. -/
def afterGroup? : (depth : Nat) → Text → Option Text
  | _, [] => none
  | depth, c :: s =>
    if c = Byte.parenOpen then afterGroup? (depth + 1) s
    else if c = Byte.parenClose then
      if depth ≤ 1 then some s else afterGroup? (depth - 1) s
    else afterGroup? depth s

/-- What follows a parenthesised group at the front of a text, after any blanks, if there is
such a group and it is closed. -/
def afterArguments? (s : Text) : Option Text :=
  match s.dropWhile isBlank with
  | [] => none
  | c :: s => if c = Byte.parenOpen then afterGroup? 1 s else none

/-- What follows a group is shorter than what the group stands in. -/
theorem length_afterGroup? {depth : Nat} {s after : Text}
    (h : afterGroup? depth s = some after) : after.length < s.length := by
  induction s generalizing depth with
  | nil => simp [afterGroup?] at h
  | cons c s ih =>
    rw [afterGroup?] at h
    split at h
    · exact Nat.lt_succ_of_lt (ih h)
    · split at h
      · split at h
        · simp_all
        · exact Nat.lt_succ_of_lt (ih h)
      · exact Nat.lt_succ_of_lt (ih h)

/-- What follows a list of arguments is shorter than the text that it stands in. -/
theorem length_afterArguments? {s after : Text} (h : afterArguments? s = some after) :
    after.length < s.length := by
  have hdrop := (List.dropWhile_sublist (l := s) isBlank).length_le
  unfold afterArguments? at h
  split at h
  · cases h
  · next c t hs =>
    split at h
    · have := length_afterGroup? h
      rw [hs, List.length_cons] at hdrop
      omega
    · cases h

/-- The token for a word with its parenthesised group: one for each control statement, and one
for all calls. -/
def groupToken (word : Text) : Text :=
  Text.ofAscii <|
    if word = Text.ofAscii "if" then "IF_STMT"
    else if word = Text.ofAscii "for" then "FOR_STMT"
    else if word = Text.ofAscii "while" then "WHILE_STMT"
    else if word = Text.ofAscii "switch" then "SWITCH_STMT"
    else "FUNC_CALL"

/-- The token for a comparison. -/
def comparisonToken : Text :=
  Text.ofAscii "CMP"

/-- Whether `c` makes a comparison together with a following equals sign: one of `=`, `!`, `<`
and `>`. -/
def startsComparison (c : UInt8) : Bool :=
  c == Byte.equals || c == 0x21 || c == 0x3C || c == 0x3E

/-- Whether `c` is one of the arithmetic operators `+`, `-`, `*`, `/` and `%`. -/
def isArithmetic (c : UInt8) : Bool :=
  c == Byte.plus || c == Byte.minus || c == 0x2A || c == Byte.slash || c == 0x25

/-- The token for a single byte outside words: its class if it is an operator by itself, else
the byte. -/
def operatorToken (c : UInt8) : Text :=
  if c = 0x3C ∨ c = 0x3E then comparisonToken
  else if c = Byte.equals then Text.ofAscii "ASSIGN"
  else if isArithmetic c then Text.ofAscii "OP"
  else [c]

/-- The fingerprint of a text. At a word, a closed parenthesised group after it is taken
together with it, unless the word starts with a digit; any other word is kept. Outside words,
the comparisons of two bytes come before the operators of one. -/
def fingerprint : Text → Text
  | [] => []
  | c :: s =>
    if isWord c then
      match _h : if isWordStart c then afterArguments? (s.dropWhile isWord) else none with
      | some after => groupToken (c :: s.takeWhile isWord) ++ fingerprint after
      | none => c :: s.takeWhile isWord ++ fingerprint (s.dropWhile isWord)
    else if startsComparison c && s.head? == some Byte.equals then
      comparisonToken ++ fingerprint s.tail
    else
      operatorToken c ++ fingerprint s
termination_by s => s.length
decreasing_by
  · have hword := (List.dropWhile_sublist (l := s) isWord).length_le
    have hafter : after.length < (s.dropWhile isWord).length := by
      split at _h
      · exact length_afterArguments? _h
      · cases _h
    simp only [List.length_cons]
    omega
  · have hword := (List.dropWhile_sublist (l := s) isWord).length_le
    simp only [List.length_cons]
    omega
  · simp only [List.length_tail, List.length_cons]
    omega
  · simp only [List.length_cons]
    omega

/-! ## One step of the scan -/

/-- The empty text has the empty fingerprint. -/
@[simp] theorem fingerprint_nil : fingerprint [] = [] := by rw [fingerprint]

/-- A word that can name something is replaced together with a closed group after it. -/
theorem fingerprint_group {c : UInt8} {s after : Text} (hc : isWordStart c)
    (h : afterArguments? (s.dropWhile isWord) = some after) :
    fingerprint (c :: s) = groupToken (c :: s.takeWhile isWord) ++ fingerprint after := by
  have hw : isWord c := by simp [isWord, hc]
  rw [fingerprint, if_pos hw]
  split
  · next heq => simp_all
  · next heq => simp_all

/-- A word without a closed group after it is kept. -/
theorem fingerprint_word {c : UInt8} {s : Text} (hc : isWord c)
    (h : isWordStart c → afterArguments? (s.dropWhile isWord) = none) :
    fingerprint (c :: s) = c :: s.takeWhile isWord ++ fingerprint (s.dropWhile isWord) := by
  rw [fingerprint, if_pos hc]
  split
  · next heq => split at heq <;> simp_all
  · rfl

/-- A comparison of two bytes is taken as a whole. -/
theorem fingerprint_comparison {c : UInt8} {s : Text} (hc : startsComparison c) :
    fingerprint (c :: Byte.equals :: s) = comparisonToken ++ fingerprint s := by
  have hw : ¬ isWord c := by
    simp only [startsComparison, Bool.or_eq_true, beq_iff_eq] at hc
    rcases hc with ((rfl | rfl) | rfl) | rfl <;> decide
  rw [fingerprint, if_neg hw]
  simp [hc]

/-- Any other byte outside words is replaced by itself alone. -/
theorem fingerprint_operator {c : UInt8} {s : Text} (hw : ¬ isWord c)
    (h : startsComparison c → s.head? ≠ some Byte.equals) :
    fingerprint (c :: s) = operatorToken c ++ fingerprint s := by
  rw [fingerprint, if_neg hw, if_neg]
  simpa using h

end CodeSimilarity
