import CodeSimilarity.Binary64.Writing
import CodeSimilarity.Proofs.LeadingReal
import CodeSimilarity.Proofs.Numerals

set_option autoImplicit false
set_option relaxedAutoImplicit false

/-!
# How doubles are written

A finite double is written as a decimal number without a needless zero in front, with a digit on each
side of its point. The number that is written is exactly that of the leading digits, whichever of the
layouts is taken.

## Main definitions

* `Text.IsPlain` — digits, perhaps with a point and more digits.
* `Text.IsDecimal` — an optional minus sign, plain digits and an optional power.

## Main results

* `LeadingDigits.exists_layout` — each layout writes the same number.
* `Binary64.isDecimal_general` — a finite double is written as its leading digits.
* `Binary64.newline_notMem_general` — what is written stays on one line.
-/

namespace CodeSimilarity

namespace Text

variable {s t : Text} {c : UInt8} {ds es : List Nat} {q : ℚ}

/-! ## Grammar -/

/-- Digits without a needless zero in front; if a point follows them, there are digits after it. -/
inductive IsPlain : Text → ℚ → Prop
  | whole {s : Text} {ds : List Nat} (hs : AreDigits 10 s ds) (hne : s ≠ [])
      (hzero : s.head? = some Byte.zero → s = [Byte.zero]) :
    IsPlain s (Nat.ofDigits 10 ds.reverse : ℕ)
  | pointed {s t : Text} {ds es : List Nat} (hs : AreDigits 10 s ds) (hne : s ≠ [])
      (hzero : s.head? = some Byte.zero → s = [Byte.zero]) (ht : AreDigits 10 t es)
      (hne' : t ≠ []) :
    IsPlain (s ++ Byte.dot :: t) ((Nat.ofDigits 10 (ds ++ es).reverse : ℕ) / ((10 : ℕ) : ℚ) ^ t.length)

/-- A decimal number with its sign, and its absolute value. -/
inductive IsDecimal : Text → Bool → ℚ → Prop
  | intro {m e : Text} {q : ℚ} {k : ℤ} (negative : Bool) (hm : IsPlain m q)
      (he : IsPower (ofAscii "eE") e k) :
    IsDecimal ((if negative then [Byte.minus] else []) ++ (m ++ e)) negative (q * 10 ^ k)

/-- Plain digits are a significand. -/
theorem IsPlain.isSignificand (h : IsPlain s q) : IsSignificand 10 s q := by
  cases h with
  | whole hs hne => exact .whole hs hne
  | pointed hs hne _ ht => exact .pointed hs ht (.inl hne)

/-- **A text that is a decimal number begins with it.** -/
theorem IsDecimal.beginsWithNumber {negative : Bool} (h : IsDecimal s negative q) :
    s.BeginsWithNumber negative (.rational q) := by
  obtain ⟨negative, hm, he⟩ := h
  have hsign : IsSign (if negative then [Byte.minus] else []) (factorOf negative) := by
    cases negative
    · exact .none
    · exact .minus
  have hbegins := @BeginsWithNumber.intro [] _ _ [] negative _ (by simp) hsign
    (.decimal hm.isSignificand he) fun t w _ hstart => by simpa using hstart.length_le
  rwa [List.nil_append, List.append_nil] at hbegins

/-- No byte of a decimal number ends a line. -/
theorem IsDecimal.newline_notMem {negative : Bool} (h : IsDecimal s negative q) :
    Byte.newline ∉ s := by
  obtain ⟨negative, hm, he⟩ := h
  rw [List.mem_append, List.mem_append]
  rintro (hsign | hm' | he')
  · revert hsign
    cases negative <;> decide
  · rcases hm.isSignificand.exists_of_mem hm' with hdot | ⟨v, hv⟩
    · exact absurd hdot (by decide)
    · exact absurd (isDigit_of_isDigitOf hv) (by decide)
  · exact absurd (he.of_mem he') (by decide)

/-! ## Digits of a number -/

/-- A small number is written as a digit of that value. -/
theorem isDigitOf_digit {v : Nat} (hv : v < 10) : IsDigitOf 10 (digit v) v := by
  have hdigit : ∀ v < 10, IsDigitOf 10 (digit v) v := by decide
  exact hdigit v hv

/-- A numeral is a run of digits that stands for its number. -/
theorem exists_areDigits_ofNat (n : Nat) :
    ∃ ds, AreDigits 10 (ofNat 10 n) ds ∧ Nat.ofDigits 10 ds.reverse = n := by
  induction n using digit_induction (show 1 < 10 by decide) with
  | digit n hlt =>
    refine ⟨[n], ?_, Nat.ofDigits_singleton⟩
    rw [ofNat_of_lt hlt]
    exact .cons (isDigitOf_digit hlt) .nil
  | concat n hge ih =>
    obtain ⟨ds, hds, hvalue⟩ := ih
    refine ⟨ds ++ [n % 10], ?_, ?_⟩
    · rw [ofNat_of_le (by decide) hge]
      exact hds.concat (isDigitOf_digit (Nat.mod_lt n (by decide)))
    · rw [List.reverse_append, List.reverse_singleton, List.singleton_append, Nat.ofDigits_cons,
        hvalue]
      exact Nat.mod_add_div n 10

/-- Zeros are digits. -/
theorem areDigits_replicate (k : Nat) :
    AreDigits 10 (List.replicate k Byte.zero) (List.replicate k 0) := by
  induction k with
  | zero => exact .nil
  | succ k ih => exact .cons (by decide) ih

/-- Zeros in front do not count. -/
theorem ofDigits_reverse_zeros_append (k : Nat) (ds : List Nat) :
    Nat.ofDigits 10 (List.replicate k 0 ++ ds).reverse = Nat.ofDigits 10 ds.reverse := by
  rw [List.reverse_append, List.reverse_replicate, Nat.ofDigits_append_replicate_zero]

/-- Each zero at the end moves the digits up by one place. -/
theorem ofDigits_reverse_append_zeros (k : Nat) (ds : List Nat) :
    Nat.ofDigits 10 (ds ++ List.replicate k 0).reverse = Nat.ofDigits 10 ds.reverse * 10 ^ k := by
  rw [List.reverse_append, List.reverse_replicate, Nat.ofDigits_append, List.length_replicate,
    Nat.ofDigits_replicate_zero, Nat.zero_add, Nat.mul_comm]

/-- A text is what is left without the zeros at its end, and these zeros. -/
theorem exists_append_zeros (s : Text) :
    ∃ k, s = (s.reverse.dropWhile (· = Byte.zero)).reverse ++ List.replicate k Byte.zero := by
  let zeros := s.reverse.takeWhile (· = Byte.zero)
  have hzeros : zeros = List.replicate zeros.length Byte.zero :=
    List.eq_replicate_of_mem fun c hc => by simpa using List.mem_takeWhile_imp hc
  refine ⟨zeros.length, ?_⟩
  calc s = (zeros ++ s.reverse.dropWhile (· = Byte.zero)).reverse := by
        rw [List.takeWhile_append_dropWhile, List.reverse_reverse]
    _ = (s.reverse.dropWhile (· = Byte.zero)).reverse ++ zeros.reverse := List.reverse_append
    _ = (s.reverse.dropWhile (· = Byte.zero)).reverse ++ List.replicate zeros.length Byte.zero := by
        rw [hzeros, List.reverse_replicate, List.length_replicate]

/-- A run of digits has only one list of values. -/
theorem AreDigits.unique (hs : AreDigits 10 s ds) (hs' : AreDigits 10 s es) : ds = es := by
  have hrun : digitRun 10 (s ++ []) = (ds, []) := digitRun_append (by decide) hs (by simp)
  rw [digitRun_append (by decide) hs' (by simp)] at hrun
  exact (congrArg Prod.fst hrun).symm

/-- The digits of a number without the zeros at the end. -/
def leading (n : Nat) : Text :=
  ((ofNat 10 n).reverse.dropWhile (· = Byte.zero)).reverse

/-- There is a leading digit at least, the first one is not zero, and each zero that is missing at
the end counts one place. -/
theorem exists_areDigits_leading {n : Nat} (hn : n ≠ 0) :
    ∃ ds k, AreDigits 10 (leading n) ds ∧ leading n ≠ [] ∧
      (leading n).head? ≠ some Byte.zero ∧ (ofNat 10 n).length = (leading n).length + k ∧
      n = Nat.ofDigits 10 ds.reverse * 10 ^ k := by
  obtain ⟨k, hk⟩ : ∃ k, ofNat 10 n = leading n ++ List.replicate k Byte.zero :=
    exists_append_zeros (ofNat 10 n)
  obtain ⟨ds, hds, hvalue⟩ := exists_areDigits_ofNat n
  have hhead : (ofNat 10 n).head? ≠ some Byte.zero :=
    (head?_ofNat_eq_zero_iff (by decide) (by decide)).not.2 hn
  have hne : ofNat 10 n ≠ [] := ofNat_ne_nil
  rw [hk] at hds hhead hne
  have hleading : leading n ≠ [] := by
    intro hnil
    rw [hnil, List.nil_append] at hhead hne
    cases k with
    | zero => exact hne rfl
    | succ k => exact hhead rfl
  have hfirst : AreDigits 10 (leading n) (ds.take (leading n).length) := by
    have htake := List.forall₂_take (leading n).length hds
    rwa [List.take_left] at htake
  have hsplit : ds = ds.take (leading n).length ++ List.replicate k 0 :=
    hds.unique (hfirst.append (areDigits_replicate k))
  refine ⟨_, k, hfirst, hleading, ?_, ?_, ?_⟩
  · rwa [List.head?_append_of_ne_nil _ hleading] at hhead
  · rw [hk, List.length_append, List.length_replicate]
  · rw [← ofDigits_reverse_append_zeros, ← hsplit, hvalue]

/-- Digits before and after a point are plain, also if there are none after it. -/
theorem isPlain_withPoint (hs : AreDigits 10 s ds) (hne : s ≠ [])
    (hzero : s.head? = some Byte.zero → s = [Byte.zero]) (ht : AreDigits 10 t es) :
    IsPlain (LeadingDigits.withPoint s t)
      ((Nat.ofDigits 10 (ds ++ es).reverse : ℕ) / ((10 : ℕ) : ℚ) ^ t.length) := by
  rw [LeadingDigits.withPoint]
  split
  · next hnil =>
    subst hnil
    obtain rfl := List.forall₂_nil_left_iff.1 ht
    rw [List.append_nil, List.length_nil, pow_zero, div_one]
    exact .whole hs hne hzero
  · next hnil => exact .pointed hs hne hzero ht hnil

end Text

namespace LeadingDigits

open Text

/-! ## Layouts -/

/-- The power that is written for an exponent. -/
theorem isPower_exponentText (e : ℤ) : IsPower (ofAscii "eE") (0x65 :: exponentText e) e := by
  obtain ⟨ds, hds, hvalue⟩ := exists_areDigits_ofNat e.natAbs
  let zeros := 2 - (ofNat 10 e.natAbs).length
  have hdigits := (areDigits_replicate zeros).append hds
  have hne : List.replicate zeros Byte.zero ++ ofNat 10 e.natAbs ≠ [] := by
    simp [ofNat_ne_nil]
  have hmark : 0x65 ∈ ofAscii "eE" := by decide
  have hsize : Nat.ofDigits 10 (List.replicate zeros 0 ++ ds).reverse = e.natAbs := by
    rw [ofDigits_reverse_zeros_append, hvalue]
  rw [exponentText]
  split
  · have hpower := IsPower.some hmark .minus hdigits hne
    rwa [hsize, show -1 * (e.natAbs : ℤ) = e by omega] at hpower
  · have hpower := IsPower.some hmark .plus hdigits hne
    rwa [hsize, show 1 * (e.natAbs : ℤ) = e by omega] at hpower

/-- The number that leading digits stand for: the first of them stands at the exponent. -/
def value (d : LeadingDigits) : ℚ :=
  d.digits * 10 ^ (d.exponent + 1 - (ofNat 10 d.digits).length)

/-- The number does not depend on zeros at the end. -/
theorem value_eq {d : LeadingDigits} {n length k : ℕ} (hn : d.digits = n * 10 ^ k)
    (hlength : (ofNat 10 d.digits).length = length + k) :
    d.value = n * 10 ^ (d.exponent + 1 - length) := by
  have hexponent : d.exponent + 1 - (length : ℤ) = k + (d.exponent + 1 - (length + k : ℕ)) := by
    push_cast
    ring
  rw [value, hlength, hexponent, zpow_add₀ (by norm_num), zpow_natCast, hn]
  push_cast
  ring

section Digits

variable {t : Text} {ds : List ℕ}

/-- A point behind some of the digits, with zeros in place of those that are missing before it. -/
theorem isPlain_of_places (ht : AreDigits 10 t ds) (hne : t ≠ [])
    (hhead : t.head? ≠ some Byte.zero) {places : ℕ} (hplaces : places ≠ 0) :
    IsPlain (withPoint (t.take places ++ List.replicate (places - t.length) Byte.zero)
      (t.drop places)) ((Nat.ofDigits 10 ds.reverse : ℕ) * 10 ^ (places - t.length : ℤ)) := by
  have hbefore := AreDigits.append (List.forall₂_take places ht)
    (areDigits_replicate (places - t.length))
  have hplain := isPlain_withPoint hbefore (by simp [hplaces, hne]) (fun hzero => ?_)
    (List.forall₂_drop places ht)
  · have hvalue : ((Nat.ofDigits 10 (ds.take places ++ List.replicate (places - t.length) 0 ++
          ds.drop places).reverse : ℕ) : ℚ) / ((10 : ℕ) : ℚ) ^ (t.drop places).length =
        (Nat.ofDigits 10 ds.reverse : ℕ) * 10 ^ (places - t.length : ℤ) := by
      rw [List.length_drop]
      rcases Nat.le_total t.length places with hle | hge
      · have hle' : ds.length ≤ places := ht.length_eq ▸ hle
        rw [List.take_of_length_le hle', List.drop_of_length_le hle', List.append_nil,
          ofDigits_reverse_append_zeros, Nat.sub_eq_zero_of_le hle, pow_zero, div_one,
          ← Nat.cast_sub hle, zpow_natCast]
        push_cast
        rfl
      · rw [Nat.sub_eq_zero_of_le hge, List.replicate_zero, List.append_nil,
          List.take_append_drop, ← neg_sub (t.length : ℤ), ← Nat.cast_sub hge, zpow_neg,
          zpow_natCast, Nat.cast_ofNat, div_eq_mul_inv]
    rwa [hvalue] at hplain
  · rw [List.head?_append_of_ne_nil _ (by simpa [hplaces] using hne), List.head?_take,
      if_neg hplaces] at hzero
    exact absurd hzero hhead

/-- A point before the digits, with zeros in between. -/
theorem isPlain_of_zeros (ht : AreDigits 10 t ds) (zeros : ℕ) :
    IsPlain (withPoint [Byte.zero] (List.replicate zeros Byte.zero ++ t))
      ((Nat.ofDigits 10 ds.reverse : ℕ) * 10 ^ (-(zeros + t.length : ℕ) : ℤ)) := by
  have hplain := isPlain_withPoint (areDigits_replicate 1) (by decide) (fun _ => rfl)
    ((areDigits_replicate zeros).append ht)
  rwa [ofDigits_reverse_zeros_append, ofDigits_reverse_zeros_append, List.length_append,
    List.length_replicate, div_eq_mul_inv, Nat.cast_ofNat, ← zpow_natCast, ← zpow_neg] at hplain

end Digits

/-- **Each layout writes the same number**: plain digits, and a power where there is one. -/
theorem exists_layout (limit : ℕ) {d : LeadingDigits} (hd : d.digits ≠ 0) :
    ∃ m e q k, IsPlain m q ∧ IsPower (ofAscii "eE") e k ∧ d.layout limit = m ++ e ∧
      q * 10 ^ k = d.value := by
  obtain ⟨ds, zeros, hds, hne, hhead, hlength, hdigits⟩ := exists_areDigits_leading hd
  have hpos : 0 < (leading d.digits).length := List.length_pos_iff.2 hne
  rw [value_eq hdigits hlength, layout]
  dsimp only
  split
  · have hfirst := isPlain_of_places hds hne hhead Nat.one_ne_zero
    rw [Nat.sub_eq_zero_of_le hpos, List.replicate_zero, List.append_nil] at hfirst
    refine ⟨_, _, _, _, hfirst, isPower_exponentText d.exponent, rfl, ?_⟩
    rw [mul_assoc, ← zpow_add₀ (by norm_num)]
    congr 2
    omega
  split
  · refine ⟨_, _, _, _, isPlain_of_zeros hds (d.exponent.natAbs - 1), .none,
      (List.append_nil _).symm, ?_⟩
    rw [zpow_zero, mul_one]
    congr 2
    omega
  · refine ⟨_, _, _, _, isPlain_of_places hds hne hhead (Nat.succ_ne_zero d.exponent.natAbs), .none,
      (List.append_nil _).symm, ?_⟩
    rw [zpow_zero, mul_one]
    congr 2
    omega

end LeadingDigits

namespace Binary64

open Text

variable {x : Binary64}

/-! ## Leading digits of a double -/

/-- A number with that many digits lies between two powers of ten. -/
theorem pow_le_and_lt_pow_length_ofNat {n : ℕ} (hn : n ≠ 0) :
    10 ^ ((ofNat 10 n).length - 1) ≤ n ∧ n < 10 ^ (ofNat 10 n).length := by
  induction n using digit_induction (show 1 < 10 by decide) with
  | digit n hlt =>
    rw [ofNat_of_lt hlt, List.length_singleton]
    exact ⟨Nat.pos_of_ne_zero hn, hlt⟩
  | concat n hge ih =>
    obtain ⟨hlow, hhigh⟩ := ih (by omega)
    have hlength : 0 < (ofNat 10 (n / 10)).length := length_ofNat_pos 10 (n / 10)
    obtain ⟨k, hk⟩ : ∃ k, (ofNat 10 (n / 10)).length = k + 1 :=
      ⟨_, (Nat.succ_pred hlength.ne').symm⟩
    rw [ofNat_of_le (by decide) hge, List.length_append, List.length_singleton]
    rw [hk] at hlow hhigh ⊢
    simp only [Nat.add_sub_cancel, pow_succ] at hlow hhigh ⊢
    omega

/-- Between two powers of ten all numbers have equally many digits. -/
theorem length_ofNat_of_lt_pow {n k : ℕ} (hlow : 10 ^ k ≤ n) (hhigh : n < 10 ^ (k + 1)) :
    (ofNat 10 n).length = k + 1 := by
  have hn : n ≠ 0 := (Nat.lt_of_lt_of_le (Nat.pow_pos (by decide)) hlow).ne'
  obtain ⟨hlow', hhigh'⟩ := pow_le_and_lt_pow_length_ofNat hn
  have hle := (Nat.pow_lt_pow_iff_right (show 1 < 10 by decide)).1 (hlow.trans_lt hhigh')
  have hge := (Nat.pow_lt_pow_iff_right (show 1 < 10 by decide)).1 (hlow'.trans_lt hhigh)
  omega

/-- The place of the leading digit: how many digits stand before the point once 400 places have been
moved there. -/
def size (x : Binary64) : ℕ :=
  (ofNat 10 (x.units * Nat.pow 10 400 / Nat.pow 2 1074)).length

/-- A double, with 400 places moved before the point, rounded to some leading digits. -/
def roundedDigits (x : Binary64) (count : ℕ) : ℕ :=
  roundHalfEven (x.units * Nat.pow 10 400) (Nat.pow 2 1074 * 10 ^ (x.size - count))

/-- The power of two that is taken off is positive. -/
private theorem pow_units_pos : 0 < Nat.pow 2 1074 :=
  Nat.two_pow_pos 1074

/-- Enough places have been moved for the seventeen digits that are ever asked for. -/
theorem seventeen_le_size (hx : x.units ≠ 0) : 17 ≤ x.size := by
  have hpow : Nat.pow 2 1074 * 10 ^ 17 ≤ Nat.pow 10 400 := by decide +kernel
  have hquot : 10 ^ 17 ≤ x.units * Nat.pow 10 400 / Nat.pow 2 1074 := by
    rw [Nat.le_div_iff_mul_le pow_units_pos, Nat.mul_comm]
    exact hpow.trans (Nat.le_mul_of_pos_left _ (Nat.pos_of_ne_zero hx))
  have hlt := (pow_le_and_lt_pow_length_ofNat
    (Nat.lt_of_lt_of_le (by decide) hquot).ne').2
  have hle := (Nat.pow_lt_pow_iff_right (show 1 < 10 by decide)).1 (hquot.trans_lt hlt)
  exact hle.le

/-- A double lies between two powers of ten, as its size says. -/
theorem pow_size_bounds (hx : x.units ≠ 0) :
    Nat.pow 2 1074 * 10 ^ (x.size - 1) ≤ x.units * Nat.pow 10 400 ∧
      x.units * Nat.pow 10 400 < Nat.pow 2 1074 * 10 ^ x.size := by
  have hsize : (ofNat 10 (x.units * Nat.pow 10 400 / Nat.pow 2 1074)).length = x.size := rfl
  have hquot : x.units * Nat.pow 10 400 / Nat.pow 2 1074 ≠ 0 := by
    intro hzero
    have hlarge := seventeen_le_size hx
    rw [← hsize, hzero, ofNat_of_lt (by decide), List.length_singleton] at hlarge
    omega
  obtain ⟨hlow, hhigh⟩ := pow_le_and_lt_pow_length_ofNat hquot
  rw [hsize] at hlow hhigh
  constructor
  · rw [Nat.mul_comm]
    exact (Nat.le_div_iff_mul_le pow_units_pos).1 hlow
  · rw [Nat.mul_comm (Nat.pow 2 1074)]
    exact (Nat.div_lt_iff_lt_mul pow_units_pos).1 hhigh

section Count

variable {count : ℕ} (hcount : 0 < count) (hle : count ≤ 17) (hx : x.units ≠ 0)

include hcount hle hx

/-- The rounded digits are as many as were asked for, unless all of them are nines that are rounded
up. -/
theorem roundedDigits_bounds :
    10 ^ (count - 1) ≤ x.roundedDigits count ∧ x.roundedDigits count ≤ 10 ^ count := by
  obtain ⟨hlow, hhigh⟩ := pow_size_bounds hx
  have hsize := seventeen_le_size hx
  have hpos : 0 < Nat.pow 2 1074 * 10 ^ (x.size - count) :=
    Nat.mul_pos pow_units_pos (Nat.pow_pos (by decide))
  have hsplit : ∀ k, 10 ^ k * (Nat.pow 2 1074 * 10 ^ (x.size - count)) =
      Nat.pow 2 1074 * 10 ^ (k + (x.size - count)) := fun k => by
    rw [Nat.mul_left_comm, ← Nat.pow_add]
  constructor
  · refine le_roundHalfEven _ hpos ?_
    rw [hsplit, show count - 1 + (x.size - count) = x.size - 1 by omega]
    exact hlow
  · refine roundHalfEven_le _ hpos ?_
    rw [hsplit, show count + (x.size - count) = x.size by omega]
    exact hhigh.le

/-- **The leading digits of a double** are as many as were asked for, and stand for the rounded
digits. -/
theorem leadingDigits_spec :
    (ofNat 10 (x.leadingDigits count).digits).length = count ∧
      (x.leadingDigits count).digits ≠ 0 ∧
      (x.leadingDigits count).value =
        x.roundedDigits count * 10 ^ ((x.size : ℤ) - 400 - count) := by
  obtain ⟨hlow, hhigh⟩ := roundedDigits_bounds hcount hle hx
  have hcases : x.leadingDigits count =
      if x.roundedDigits count = 10 ^ count then ⟨10 ^ (count - 1), (x.size : ℤ) - 400⟩
      else ⟨x.roundedDigits count, (x.size : ℤ) - 401⟩ := by
    rw [roundedDigits, size, length_ofNat]
    rfl
  obtain ⟨k, rfl⟩ : ∃ k, count = k + 1 := ⟨_, (Nat.succ_pred hcount.ne').symm⟩
  rw [hcases]
  simp only [Nat.add_sub_cancel] at hlow ⊢
  split
  · next hnines =>
    have hlength : (ofNat 10 (10 ^ k)).length = k + 1 :=
      length_ofNat_of_lt_pow le_rfl (Nat.pow_lt_pow_right (by decide) (Nat.lt_succ_self k))
    refine ⟨hlength, (Nat.pow_pos (by decide)).ne', ?_⟩
    have hexponent : (x.size : ℤ) - 400 + 1 - (k + 1 : ℕ) = 1 + (x.size - 400 - (k + 1 : ℕ)) := by
      ring
    rw [LeadingDigits.value, hlength, hnines, hexponent, zpow_add₀ (by norm_num), zpow_one]
    push_cast
    ring
  · next hother =>
    generalize x.roundedDigits (k + 1) = r at hlow hhigh hother ⊢
    have hlength : (ofNat 10 r).length = k + 1 :=
      length_ofNat_of_lt_pow hlow (hhigh.lt_of_ne hother)
    refine ⟨hlength, (Nat.lt_of_lt_of_le (Nat.pow_pos (by decide)) hlow).ne', ?_⟩
    have hexponent : (x.size : ℤ) - 401 + 1 - (k + 1 : ℕ) = x.size - 400 - (k + 1 : ℕ) := by
      ring
    rw [LeadingDigits.value, hlength, hexponent]

end Count

/-! ## Written doubles -/

/-- What a double is rounded to when it is written with some digits, without its sign. -/
def written (x : Binary64) (count : ℕ) : ℚ :=
  if x.units = 0 then 0 else (x.leadingDigits count).value

/-- **A finite double is written as its leading digits.** -/
theorem isDecimal_general {count : ℕ} (hcount : 0 < count) (hle : count ≤ 17) (hx : x.isFinite) :
    IsDecimal (x.general count) x.negative (x.written count) := by
  have hnan : x.isNaN = false := isNaN_of_isFinite hx
  have hgeneral : x.general count = (if x.negative then [Byte.minus] else []) ++
      if x.magnitude = 0 then [Byte.zero] else (x.leadingDigits count).layout count := by
    simp only [general, signText, hnan, hx, Bool.false_eq_true, Bool.not_true, if_false]
  rw [hgeneral, written]
  by_cases hzero : x.units = 0
  · have hplain : IsPlain [Byte.zero] (Nat.ofDigits 10 [0].reverse : ℕ) :=
      .whole (areDigits_replicate 1) (by decide) fun _ => rfl
    have hdecimal := IsDecimal.intro x.negative hplain .none
    rw [if_pos (units_eq_zero_iff.1 hzero), if_pos hzero]
    simpa using hdecimal
  · obtain ⟨-, hdigits, -⟩ := leadingDigits_spec hcount hle hzero
    obtain ⟨m, e, q, k, hm, he, hlayout, hvalue⟩ := LeadingDigits.exists_layout count hdigits
    rw [if_neg (mt units_eq_zero_iff.2 hzero), if_neg hzero, hlayout, ← hvalue]
    exact .intro x.negative hm he

/-- **What is written for a double stays on one line**, also for an infinity and for what is no
number. -/
theorem newline_notMem_general {count : ℕ} (hcount : 0 < count) (hle : count ≤ 17)
    (x : Binary64) : Byte.newline ∉ x.general count := by
  by_cases hx : x.isFinite
  · exact (isDecimal_general hcount hle hx).newline_notMem
  · have hsign : Byte.newline ∉ x.signText := by
      rw [signText]
      split <;> decide
    rw [general, List.mem_append, if_pos (show (!x.isFinite) = true by simpa using hx)]
    refine not_or.2 ⟨hsign, ?_⟩
    split <;> decide

end Binary64

end CodeSimilarity
