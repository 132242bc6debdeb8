import CodeSimilarity.Environment
import CodeSimilarity.FileSystem

set_option autoImplicit false
set_option relaxedAutoImplicit false

/-!
# Settings

## Main definitions

* `Settings` — what can be set about a run.
* `Settings.override` — the settings after the environment.
* `Settings.clamp` — the nearest legal settings.
* `Settings.resolve` — the settings of a run.

## Implementation notes

No format of a settings file is defined, so such a file, whatever it holds, changes nothing.
-/

namespace CodeSimilarity

/-- What can be set about a run. -/
structure Settings where
  /-- The least score of a flagged pair. -/
  threshold : Binary64 := .ofRatio false 7 10
  /-- The number of threads. -/
  threads : Int := 1
  /-- Whether counts are shown: not if it is zero. -/
  debug : Int := 0
  /-- Whether durations are shown among the counts: not if it is zero. -/
  timing : Int := 0
  /-- The endings of the paths that are accepted as source files. -/
  extensions : List Text := [".cpp", ".h", ".hpp"].map Text.ofAscii
  /-- The greatest number of segments shown for a pair; zero for all of them. -/
  maxSegments : Nat := 0
deriving DecidableEq, Repr

namespace Settings

/-- The settings after reading a settings file, of which `content` are the bytes if it can be
opened. -/
def ofFile (_content : Option Text) (s : Settings) : Settings :=
  s

/-- The settings after the variables that are set in the environment. -/
def override (s : Settings) (env : Environment) : Settings :=
  { s with
    threshold := Environment.real s.threshold env.threshold
    threads := Environment.count s.threads env.threads
    debug := if Environment.flag (s.debug ≠ 0) env.debug then 1 else 0
    timing := if Environment.flag (s.timing ≠ 0) env.timing then 1 else 0 }

/-- The threshold within the range from 0 to 1 that is nearest to `x`; the default one if `x`
is not finite. -/
def clampThreshold (x : Binary64) : Binary64 :=
  if !x.isFinite then ({} : Settings).threshold
  else if x.lt 0 then 0
  else if Binary64.lt 1 x then 1
  else x

/-- The settings brought into their legal ranges. Durations are shown among the counts, so they
are off where the counts are. -/
def clamp (s : Settings) : Settings :=
  { s with
    threshold := clampThreshold s.threshold
    threads := max 1 (min s.threads 64)
    maxSegments := min s.maxSegments 1000000
    timing := if s.debug = 0 then 0 else s.timing }

/-- The settings of a run: the defaults, changed by the settings file if one is named, then by
the environment, and brought into their legal ranges. -/
def resolve (env : Environment) (files : FileSystem) : Settings :=
  let base : Settings :=
    match Environment.given? env.settingsFile with
    | none => {}
    | some path => ofFile (files.read? path) {}
  (base.override env).clamp

end Settings

end CodeSimilarity
