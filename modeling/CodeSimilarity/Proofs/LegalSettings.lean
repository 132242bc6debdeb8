import CodeSimilarity.Settings
import CodeSimilarity.Proofs.LeadingReal

set_option autoImplicit false
set_option relaxedAutoImplicit false

/-!
# Legal settings

Whatever settings are given, and whatever the environment holds, the settings of a run are legal.
Clamping changes nothing that is legal already, so it can be repeated. What a variable begins with is
taken exactly: of a number of threads as much as the range allows, of a threshold the nearest double
within the range, and of a flag whether it is switched on or off.

## Main definitions

* `Text.SwitchesOn`, `Text.SwitchesOff` — the texts that decide a flag.
* `Settings.IsClamped`, `Settings.IsSwitched` — what becomes of a threshold and of a flag.
* `Settings.InRange` — the settings that clamping leaves alone.
* `Settings.IsLegal` — those that are proper settings of a run.
* `Settings.IsEffective` — what the environment makes of given settings, one by one.

## Main results

* `Environment.flag_of_switchesOn`, `Environment.flag_of_switchesOff`, `Environment.flag_of_neither`
  — the reading of a flag.
* `Settings.inRange_clamp`, `Settings.clamp_eq_self_iff` — clamping brings settings into range, and
  changes no others.
* `Settings.isLegal_clamp_override` — after the environment, the clamped settings are legal.
* `Settings.effective_settings` — all of it, with the settings of a run as a case.
-/

namespace CodeSimilarity

namespace Binary64

variable {x y : Binary64}

/-- **Less than, for numbers,** is less than of their values. -/
theorem lt_iff (hx : x.isNaN = false) (hy : y.isNaN = false) : x.lt y ↔ x.value < y.value := by
  rw [← not_le, value_le_value_iff]
  simp [lt, hx, hy]

/-- Zero has the value zero. -/
theorem value_zero : (0 : Binary64).value = 0 := by
  have hunits : (0 : Binary64).signedUnits = 0 := by decide +kernel
  rw [value, hunits, Int.cast_zero, zero_div]

/-- One has the value one. -/
theorem value_one : (1 : Binary64).value = 1 := by
  have hunits : (1 : Binary64).signedUnits = (Nat.pow 2 1074 : ℕ) := by decide +kernel
  rw [value, hunits, Int.cast_natCast, div_self units_one_pos.ne']

/-- Zero is a number. -/
theorem isNaN_zero : (0 : Binary64).isNaN = false := by decide +kernel

/-- One is a number. -/
theorem isNaN_one : (1 : Binary64).isNaN = false := by decide +kernel

end Binary64

/-! ## Flags -/

namespace Text

/-- A text switches a flag on: it starts with a one, or it is one of three words in either case. -/
def SwitchesOn (s : Text) : Prop :=
  s.head? = some Byte.one ∨ IsSpelling "true" s ∨ IsSpelling "yes" s ∨ IsSpelling "on" s

/-- A text switches a flag off: it starts with a zero, or it is one of three words in either case. -/
def SwitchesOff (s : Text) : Prop :=
  s.head? = some Byte.zero ∨ IsSpelling "false" s ∨ IsSpelling "no" s ∨ IsSpelling "off" s

instance (s : Text) : Decidable s.SwitchesOn :=
  inferInstanceAs (Decidable (_ ∨ _))

instance (s : Text) : Decidable s.SwitchesOff :=
  inferInstanceAs (Decidable (_ ∨ _))

end Text

namespace Environment

open Text

variable {s : Text} {value : Option Text}

/-- The words that switch on are known in either case. -/
theorem map_toLower_mem_onWords_iff :
    s.map toLower ∈ onWords ↔ IsSpelling "true" s ∨ IsSpelling "yes" s ∨ IsSpelling "on" s := by
  simp only [onWords, List.map_cons, List.map_nil, List.mem_cons, List.not_mem_nil, or_false]
  rw [map_toLower_eq_iff (by decide), map_toLower_eq_iff (by decide),
    map_toLower_eq_iff (by decide)]

/-- The words that switch off are known in either case. -/
theorem map_toLower_mem_offWords_iff :
    s.map toLower ∈ offWords ↔ IsSpelling "false" s ∨ IsSpelling "no" s ∨ IsSpelling "off" s := by
  simp only [offWords, List.map_cons, List.map_nil, List.mem_cons, List.not_mem_nil, or_false]
  rw [map_toLower_eq_iff (by decide), map_toLower_eq_iff (by decide),
    map_toLower_eq_iff (by decide)]

/-- The word of a text that starts with a digit is none of those that are known. -/
theorem head?_ne_of_mem_words (h : s.map toLower ∈ onWords ∨ s.map toLower ∈ offWords) :
    s.head? ≠ some Byte.one ∧ s.head? ≠ some Byte.zero := by
  have hwords : ∀ w ∈ onWords ++ offWords,
      w.head? ≠ some (toLower Byte.one) ∧ w.head? ≠ some (toLower Byte.zero) := by
    decide +kernel
  obtain ⟨hone, hzero⟩ := hwords _ (List.mem_append.2 h)
  rw [List.head?_map] at hone hzero
  exact ⟨fun hs => hone (by rw [hs]; rfl), fun hs => hzero (by rw [hs]; rfl)⟩

/-- The two kinds of words have none in common. -/
theorem notMem_offWords_of_mem_onWords : ∀ w ∈ onWords, w ∉ offWords := by
  decide +kernel

/-- The flag that a text gives, which is not empty. -/
theorem flag_some (default : Bool) (hne : s ≠ []) :
    flag default (some s) =
      if s.head? = some Byte.one then true
      else if s.head? = some Byte.zero then false
      else if s.map toLower ∈ onWords then true
      else if s.map toLower ∈ offWords then false
      else default := by
  have hgiven : given? (some s) = some s := by simp [given?, hne]
  simp only [flag, hgiven, List.contains_iff_mem]

/-- No empty text decides a flag. -/
theorem ne_nil_of_switches (h : s.SwitchesOn ∨ s.SwitchesOff) : s ≠ [] := by
  rintro rfl
  simp [SwitchesOn, SwitchesOff, IsSpelling] at h

/-- **A flag is switched on** by the texts for it, whatever the default is. -/
theorem flag_of_switchesOn (default : Bool) (h : s.SwitchesOn) :
    flag default (some s) = true := by
  rw [flag_some default (ne_nil_of_switches (.inl h))]
  rw [SwitchesOn, ← map_toLower_mem_onWords_iff] at h
  rcases h with h | h
  · exact if_pos h
  · obtain ⟨hone, hzero⟩ := head?_ne_of_mem_words (.inl h)
    rw [if_neg hone, if_neg hzero, if_pos h]

/-- **A flag is switched off** by the texts for it, whatever the default is. -/
theorem flag_of_switchesOff (default : Bool) (h : s.SwitchesOff) :
    flag default (some s) = false := by
  rw [flag_some default (ne_nil_of_switches (.inr h))]
  rw [SwitchesOff, ← map_toLower_mem_offWords_iff] at h
  rcases h with h | h
  · have hone : s.head? ≠ some Byte.one := by
      rw [h]
      decide
    rw [if_neg hone, if_pos h]
  · obtain ⟨hone, hzero⟩ := head?_ne_of_mem_words (.inr h)
    have hon : s.map toLower ∉ onWords := fun hon => notMem_offWords_of_mem_onWords _ hon h
    rw [if_neg hone, if_neg hzero, if_neg hon, if_pos h]

/-- A variable that is unset, or set to any other text, leaves the flag as it was. -/
theorem flag_of_neither (default : Bool)
    (h : ¬ ∃ s, value = some s ∧ (s.SwitchesOn ∨ s.SwitchesOff)) : flag default value = default := by
  cases value with
  | none => rfl
  | some s =>
    rcases eq_or_ne s [] with rfl | hne
    · rfl
    have hs : ¬ (s.SwitchesOn ∨ s.SwitchesOff) := fun hs => h ⟨s, rfl, hs⟩
    rw [SwitchesOn, SwitchesOff, ← map_toLower_mem_onWords_iff, ← map_toLower_mem_offWords_iff] at hs
    simp only [not_or] at hs
    obtain ⟨⟨hone, hon⟩, hzero, hoff⟩ := hs
    rw [flag_some default hne, if_neg hone, if_neg hzero, if_neg hon, if_neg hoff]

end Environment

namespace Settings

/-! ## Thresholds -/

/-- A threshold is a number between zero and one. -/
structure IsThreshold (x : Binary64) : Prop where
  isFinite : x.isFinite
  nonneg : 0 ≤ x.value
  le_one : x.value ≤ 1

/-- The default is the double nearest to seven tenths. -/
theorem isNearest_default : ({} : Settings).threshold.IsNearest (7 / 10) :=
  @Binary64.isNearest_ofRatio 7 10 (by decide) (by decide +kernel)

/-- The default is a threshold. -/
theorem isThreshold_default : IsThreshold ({} : Settings).threshold where
  isFinite := isNearest_default.isFinite
  nonneg := by
    rw [← Binary64.value_zero, Binary64.value_le_value_iff]
    decide +kernel
  le_one := by
    rw [← Binary64.value_one, Binary64.value_le_value_iff]
    decide +kernel

/-- What a double is brought to as a threshold. -/
structure IsClamped (x y : Binary64) : Prop where
  /-- A number in the range stays, with the sign of its zero. -/
  kept : x.isFinite → 0 ≤ x.value → x.value ≤ 1 → y = x
  /-- A number below the range goes to its lower end. -/
  low : x.isFinite → x.value < 0 → y = 0
  /-- A number above the range goes to its upper end. -/
  high : x.isFinite → 1 < x.value → y = 1
  /-- What is infinite or no number goes to the default. -/
  default : x.isFinite = false → y.IsNearest (7 / 10)

/-- **A threshold is brought into its range**, be it infinite or no number. -/
theorem isClamped_clampThreshold (x : Binary64) : IsClamped x (clampThreshold x) := by
  have hlow : x.isFinite → (x.lt 0 ↔ x.value < 0) := fun hfinite => by
    rw [Binary64.lt_iff (Binary64.isNaN_of_isFinite hfinite) Binary64.isNaN_zero,
      Binary64.value_zero]
  have hhigh : x.isFinite → (Binary64.lt 1 x ↔ 1 < x.value) := fun hfinite => by
    rw [Binary64.lt_iff Binary64.isNaN_one (Binary64.isNaN_of_isFinite hfinite),
      Binary64.value_one]
  refine ⟨fun hfinite hzero hone => ?_, fun hfinite h => ?_, fun hfinite h => ?_, fun h => ?_⟩
  · rw [clampThreshold, if_neg (by simp [hfinite]), if_neg ((hlow hfinite).not.2 hzero.not_gt),
      if_neg ((hhigh hfinite).not.2 hone.not_gt)]
  · rw [clampThreshold, if_neg (by simp [hfinite]), if_pos ((hlow hfinite).2 h)]
  · have hzero : ¬ x.value < 0 := fun hneg => absurd (h.trans hneg) (by norm_num)
    rw [clampThreshold, if_neg (by simp [hfinite]), if_neg ((hlow hfinite).not.2 hzero),
      if_pos ((hhigh hfinite).2 h)]
  · rw [clampThreshold, if_pos (by simp [h])]
    exact isNearest_default

/-- What a double is brought to is a threshold. -/
theorem IsClamped.isThreshold {x y : Binary64} (h : IsClamped x y)
    (hdefault : x.isFinite = false → IsThreshold y) : IsThreshold y := by
  cases hfinite : x.isFinite with
  | false => exact hdefault hfinite
  | true =>
    rcases lt_or_ge x.value 0 with hneg | hnonneg
    · rw [h.low hfinite hneg]
      exact ⟨by decide +kernel, Binary64.value_zero.ge, by rw [Binary64.value_zero]; norm_num⟩
    rcases lt_or_ge 1 x.value with hbig | hle
    · rw [h.high hfinite hbig]
      exact ⟨by decide +kernel, by rw [Binary64.value_one]; norm_num, Binary64.value_one.le⟩
    · rw [h.kept hfinite hnonneg hle]
      exact ⟨hfinite, hnonneg, hle⟩

/-- Any double is brought to a threshold. -/
theorem isThreshold_clampThreshold (x : Binary64) : IsThreshold (clampThreshold x) := by
  refine (isClamped_clampThreshold x).isThreshold fun hfinite => ?_
  rw [clampThreshold, if_pos (by simp [hfinite])]
  exact isThreshold_default

/-- A threshold is kept, with the sign of its zero. -/
theorem clampThreshold_of_isThreshold {x : Binary64} (h : IsThreshold x) : clampThreshold x = x :=
  (isClamped_clampThreshold x).kept h.isFinite h.nonneg h.le_one

/-! ## Settings -/

/-- The settings lie within their ranges, and no durations are shown without counts. -/
structure InRange (s : Settings) : Prop where
  isThreshold : IsThreshold s.threshold
  one_le_threads : 1 ≤ s.threads
  threads_le : s.threads ≤ 64
  maxSegments_le : s.maxSegments ≤ 1000000
  timing_eq_zero : s.debug = 0 → s.timing = 0

/-- The settings lie within their ranges, and what is switched on or off is one or zero. -/
structure IsLegal (s : Settings) : Prop extends InRange s where
  debug_eq : s.debug = 0 ∨ s.debug = 1
  timing_eq : s.timing = 0 ∨ s.timing = 1

/-- Clamping brings any settings into their ranges. -/
theorem inRange_clamp (s : Settings) : s.clamp.InRange where
  isThreshold := isThreshold_clampThreshold s.threshold
  one_le_threads := Int.le_max_left _ _
  threads_le := by
    show max 1 (min s.threads 64) ≤ 64
    omega
  maxSegments_le := Nat.min_le_right _ _
  timing_eq_zero := fun hdebug => if_pos hdebug

/-- Settings within their ranges are kept by clamping. -/
theorem InRange.clamp_eq_self {s : Settings} (h : s.InRange) : s.clamp = s := by
  have hthreads : max 1 (min s.threads 64) = s.threads := by
    have := h.one_le_threads
    have := h.threads_le
    omega
  have htiming : (if s.debug = 0 then 0 else s.timing) = s.timing :=
    ite_eq_right_iff.2 fun hdebug => (h.timing_eq_zero hdebug).symm
  rw [clamp, clampThreshold_of_isThreshold h.isThreshold, hthreads,
    Nat.min_eq_left h.maxSegments_le, htiming]

/-- **Clamping changes exactly the settings that are out of range.** -/
theorem clamp_eq_self_iff {s : Settings} : s.clamp = s ↔ s.InRange :=
  ⟨fun h => h ▸ inRange_clamp s, InRange.clamp_eq_self⟩

/-- Flags are set to one or zero. -/
theorem flags_override (s : Settings) (env : Environment) :
    ((s.override env).debug = 0 ∨ (s.override env).debug = 1) ∧
      ((s.override env).timing = 0 ∨ (s.override env).timing = 1) :=
  ⟨(ite_eq_or_eq _ _ _).symm, (ite_eq_or_eq _ _ _).symm⟩

/-- **After the environment, the clamped settings are legal.** -/
theorem isLegal_clamp_override (s : Settings) (env : Environment) :
    (s.override env).clamp.IsLegal := by
  obtain ⟨hdebug, htiming⟩ := flags_override s env
  refine ⟨inRange_clamp _, hdebug, ?_⟩
  show (if (s.override env).debug = 0 then 0 else (s.override env).timing) = 0 ∨
    (if (s.override env).debug = 0 then 0 else (s.override env).timing) = 1
  split
  · exact .inl rfl
  · exact htiming

/-- What a flag becomes: `before` is its value so far, and `value` the text of its variable. -/
structure IsSwitched (value : Option Text) (before after : Int) : Prop where
  on : (∃ s, value = some s ∧ s.SwitchesOn) → after = 1
  off : (∃ s, value = some s ∧ s.SwitchesOff) → after = 0
  /-- A variable that is unset, or set to another text, decides nothing. -/
  kept : (¬ ∃ s, value = some s ∧ (s.SwitchesOn ∨ s.SwitchesOff)) →
    after = if before = 0 then 0 else 1

/-- A flag is switched by its variable. -/
theorem isSwitched_flag (value : Option Text) (before : Int) :
    IsSwitched value before (if Environment.flag (before ≠ 0) value then 1 else 0) := by
  refine ⟨?_, ?_, fun h => ?_⟩
  · rintro ⟨s, rfl, hs⟩
    rw [Environment.flag_of_switchesOn _ hs]
    rfl
  · rintro ⟨s, rfl, hs⟩
    rw [Environment.flag_of_switchesOff _ hs]
    rfl
  · rw [Environment.flag_of_neither _ h]
    by_cases hbefore : before = 0 <;> simp [hbefore]

/-- The settings `t` are what a run makes of the settings `s` in an environment. -/
structure IsEffective (t s : Settings) (env : Environment) : Prop where
  isLegal : t.IsLegal
  extensions_eq : t.extensions = s.extensions
  maxSegments_eq : t.maxSegments = min s.maxSegments 1000000
  /-- The whole integer at the front of its variable counts, however many digits it has. -/
  threads_of_int : ∀ text z, env.threads = some text → text.BeginsWithInt z →
    t.threads = max 1 (min z 64)
  threads_kept : (¬ ∃ text z, env.threads = some text ∧ text.BeginsWithInt z) →
    t.threads = max 1 (min s.threads 64)
  /-- The number at the front of its variable counts, rounded to the nearest double. -/
  threshold_of_number : ∀ text negative q, env.threshold = some text →
    text.BeginsWithNumber negative (.rational q) → q < Binary64.overflow →
    ∃ x : Binary64, x.IsRounded negative q ∧ IsClamped x t.threshold
  /-- A variable without a number, or with one that no double can be near to, decides nothing. -/
  threshold_kept : (¬ ∃ text negative q, env.threshold = some text ∧
    text.BeginsWithNumber negative (.rational q) ∧ q < Binary64.overflow) →
    IsClamped s.threshold t.threshold
  debug : IsSwitched env.debug s.debug t.debug
  /-- Durations are shown among the counts; they are off where the counts are. -/
  timing : t.debug = 1 → IsSwitched env.timing s.timing t.timing
  timing_eq_zero : t.debug = 0 → t.timing = 0

/-- **The environment and clamping** make given settings effective. -/
theorem isEffective_clamp_override (s : Settings) (env : Environment) :
    (s.override env).clamp.IsEffective s env where
  isLegal := isLegal_clamp_override s env
  extensions_eq := rfl
  maxSegments_eq := rfl
  threads_of_int text z htext hz := by
    have hcount : (s.override env).clamp.threads =
        max 1 (min (Environment.count s.threads env.threads) 64) := rfl
    rw [hcount, htext, Environment.count_of_beginsWithInt _ hz]
    omega
  threads_kept hno := by
    have hcount : (s.override env).clamp.threads =
        max 1 (min (Environment.count s.threads env.threads) 64) := rfl
    rw [hcount, Environment.count_of_not_beginsWithInt _ hno]
  threshold_of_number text negative q htext hq hsmall := by
    refine ⟨Environment.real s.threshold env.threshold, ?_, isClamped_clampThreshold _⟩
    rw [htext]
    exact Environment.real_of_beginsWithNumber _ hq hsmall
  threshold_kept hno := by
    have hreal := Environment.real_of_not_beginsWithNumber s.threshold hno
    have hclamped := isClamped_clampThreshold (Environment.real s.threshold env.threshold)
    rw [hreal] at hclamped
    have hthreshold : (s.override env).clamp.threshold =
        clampThreshold (Environment.real s.threshold env.threshold) := rfl
    rwa [hthreshold, hreal]
  debug := isSwitched_flag env.debug s.debug
  timing hdebug := by
    have htiming : (s.override env).clamp.timing =
        if (s.override env).clamp.debug = 0 then 0 else (s.override env).timing := rfl
    rw [htiming, if_neg (by omega)]
    exact isSwitched_flag env.timing s.timing
  timing_eq_zero := (inRange_clamp _).timing_eq_zero

/-- A settings file changes nothing, so a run starts from the defaults. -/
theorem resolve_eq (env : Environment) (files : FileSystem) :
    resolve env files = (({} : Settings).override env).clamp := by
  rw [resolve]
  cases Environment.given? env.settingsFile <;> rfl

/-- **The effective settings** are legal, keep the endings, and are what the environment says: the
threads are the whole integer at the front of their variable and the threshold is the double nearest
to the number at the front of its own, both brought into their ranges, and the flags are what their
variables switch them to; where a variable says nothing, what was given before counts. Clamping any
settings once more changes nothing, and legal settings are not changed at all. The settings of a run
are those that the environment makes of the defaults, whatever the files are. -/
theorem effective_settings (s : Settings) (env : Environment) :
    (s.override env).clamp.IsEffective s env ∧
      (∀ u : Settings, u.clamp.clamp = u.clamp ∧ (u.IsLegal → u.clamp = u)) ∧
      ∀ files, resolve env files = (({} : Settings).override env).clamp := by
  refine ⟨isEffective_clamp_override s env, fun u => ?_, resolve_eq env⟩
  exact ⟨(inRange_clamp u).clamp_eq_self, fun hu => hu.clamp_eq_self⟩

/-- The double of one quarter is exact. -/
theorem value_quarter : (Binary64.ofRatio false 1 4).value = 1 / 4 := by
  have hunits : (Binary64.ofRatio false 1 4).signedUnits = (Nat.pow 2 1072 : ℕ) := by
    decide +kernel
  have hfour : Nat.pow 2 1074 = Nat.pow 2 1072 * 4 := by decide +kernel
  have hpos : ((Nat.pow 2 1072 : ℕ) : ℚ) ≠ 0 := by
    have := Binary64.units_one_pos.ne'
    rw [hfour, Nat.cast_mul] at this
    exact left_ne_zero_of_mul this
  rw [Binary64.value, hunits, hfour, Int.cast_natCast, Nat.cast_mul, div_mul_eq_div_div,
    div_self hpos, Nat.cast_ofNat]

/-- A text that is read as one quarter, with a sign, a point and a power. -/
theorem beginsWithNumber_quarter : (Text.ofAscii "\t+0x.8p-1").BeginsWithNumber false
    (.rational ((Nat.ofDigits 16 [8] : ℕ) / ((16 : ℕ) : ℚ) ^ 1 *
      2 ^ (-1 * (Nat.ofDigits 10 [1] : ℕ) : ℤ))) := by
  have hsignificand : Text.IsSignificand 16 (Text.ofAscii ".8")
      ((Nat.ofDigits 16 [8] : ℕ) / ((16 : ℕ) : ℚ) ^ 1) :=
    @Text.IsSignificand.pointed 16 [] [0x38] [] [8] .nil (.cons (by decide) .nil)
      (.inr (by decide))
  have hpower : Text.IsPower (Text.ofAscii "pP") (Text.ofAscii "p-1")
      (-1 * (Nat.ofDigits 10 [1] : ℕ)) :=
    .some (by decide) .minus (.cons (by decide) .nil) (by decide)
  have hx : 0x78 ∈ Text.ofAscii "xX" := by decide
  -- nothing follows the number, so there is no longer one
  exact @Text.BeginsWithNumber.intro [0x09] [Byte.plus] (Text.ofAscii "0x.8p-1") [] false _
    (List.all_iff_forall_prop.1 (by decide)) .plus (.hexadecimal hx hsignificand hpower)
    fun t w _ hstart => by
      simpa using hstart.length_le

/-- A hexadecimal threshold that is a quarter, with a count of threads that is far beyond 64 bits and
both flags switched on; and a threshold that is too large for a double, with a word in place of the
count and of a flag, where what was given before is out of range. -/
theorem effective_settings_long_numeral :
    let t := clamp (override { threshold := .nan true }
      { threshold := some (Text.ofAscii "\t+0x.8p-1")
        threads := some (Text.ofAscii " +0099999999999999999999x")
        debug := some (Text.ofAscii "yEs")
        timing := some (Text.ofAscii "10") })
    let u := clamp (override { threshold := .infinity false, threads := -3, debug := 7 }
      { threshold := some (Text.ofAscii "1e309")
        threads := some (Text.ofAscii "- 5")
        debug := some (Text.ofAscii "maybe")
        timing := some (Text.ofAscii "OFF") })
    (t.threshold.value = 1 / 4 ∧ t.threads = 64 ∧ t.debug = 1 ∧ t.timing = 1) ∧
      u.threshold.IsNearest (7 / 10) ∧ u.threads = 1 ∧ u.debug = 1 ∧ u.timing = 0 := by
  intro t u
  obtain ⟨ht, -, -⟩ := effective_settings { threshold := .nan true }
    { threshold := some (Text.ofAscii "\t+0x.8p-1")
      threads := some (Text.ofAscii " +0099999999999999999999x")
      debug := some (Text.ofAscii "yEs")
      timing := some (Text.ofAscii "10") }
  obtain ⟨hu, -, -⟩ := effective_settings
    { threshold := .infinity false, threads := -3, debug := 7 }
    { threshold := some (Text.ofAscii "1e309")
      threads := some (Text.ofAscii "- 5")
      debug := some (Text.ofAscii "maybe")
      timing := some (Text.ofAscii "OFF") }
  have htdebug : t.debug = 1 := ht.debug.on ⟨_, rfl, by decide⟩
  have hudebug : u.debug = 1 := hu.debug.kept (by
    rintro ⟨text, htext, hswitch⟩
    obtain rfl := Option.some.inj htext
    exact absurd hswitch (by decide))
  refine ⟨⟨?_, ?_, htdebug, (ht.timing htdebug).on ⟨_, rfl, by decide⟩⟩, ?_, ?_, hudebug,
    (hu.timing hudebug).off ⟨_, rfl, by decide⟩⟩
  · have hquarter : ((Nat.ofDigits 16 [8] : ℕ) / ((16 : ℕ) : ℚ) ^ 1 *
        2 ^ (-1 * (Nat.ofDigits 10 [1] : ℕ) : ℤ)) = 1 / 4 := by
      norm_num [Nat.ofDigits_singleton]
    have hsmall : (1 / 4 : ℚ) < Binary64.overflow :=
      lt_trans (by norm_num) (Nat.one_lt_cast.2 Binary64.one_lt_overflow)
    obtain ⟨x, hx, hclamped⟩ := ht.threshold_of_number _ _ _ rfl beginsWithNumber_quarter
      (hquarter ▸ hsmall)
    rw [hquarter] at hx
    have hnearest := hx.isNearest hsmall
    have hvalue : x.value = 1 / 4 := hnearest.value_eq (by decide +kernel) value_quarter
    have hkept : t.threshold = x := hclamped.kept hnearest.isFinite (by rw [hvalue]; norm_num)
      (by rw [hvalue]; norm_num)
    rw [hkept, hvalue]
  · have hlong :
        Text.BeginsWithInt (Text.ofAscii " +0099999999999999999999x") 99999999999999999999 :=
      readInt?_eq_some_iff.1 (by decide +kernel)
    exact ht.threads_of_int _ _ rfl hlong
  · refine (hu.threshold_kept ?_).default (by decide +kernel)
    rintro ⟨text, negative, q, htext, hq, hsmall⟩
    obtain rfl := Option.some.inj htext
    obtain ⟨x, hread, hx⟩ := Binary64.read?_of_beginsWithNumber hq
    have hinfinite : Binary64.read? (Text.ofAscii "1e309") = some (.infinity false) := by
      decide +kernel
    have hfinite := hx.isFinite_iff.2 ⟨q, rfl, hsmall⟩
    rw [← Option.some.inj (hinfinite.symm.trans hread)] at hfinite
    exact absurd hfinite (by decide)
  · refine hu.threads_kept ?_
    rintro ⟨text, z, htext, hz⟩
    have hnone : readInt? (Text.ofAscii "- 5") = none := by decide +kernel
    rw [readInt?_eq_some_iff.2 (Option.some.inj htext ▸ hz)] at hnone
    simp at hnone

end Settings

end CodeSimilarity
