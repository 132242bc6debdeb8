import CodeSimilarity.CommandLine
import CodeSimilarity.Json.Printer

set_option autoImplicit false
set_option relaxedAutoImplicit false

/-!
# The program

Reads the environment and the files named on the command line, and prints what
`CodeSimilarity.run` answers.
-/

namespace CodeSimilarity.Main

/-- The bytes of a string. -/
def textOf (s : String) : Text :=
  s.toUTF8.toList

/-- The variable with a given name. -/
def readVariable (name : String) : IO (Option Text) := do
  return (← IO.getEnv name).map textOf

/-- The variables that the program looks at. -/
def environment : IO Environment := do
  return {
    settingsFile := ← readVariable "PD_CONFIG"
    threshold := ← readVariable "PD_THRESHOLD"
    threads := ← readVariable "PD_THREADS"
    debug := ← readVariable "PD_DEBUG"
    timing := ← readVariable "PD_PERF_STATS" }

/-- What is behind an open handle. What can be opened but not read is a directory. -/
def entry (handle : IO.FS.Handle) : IO FileEntry := do
  try
    return .file (← handle.readBinToEnd).toList
  catch _ =>
    return .directory

/-- What a path leads to. -/
def entry? (path : String) : IO (Option FileEntry) := do
  try
    return some (← entry (← IO.FS.Handle.mk path .read))
  catch _ =>
    return none

/-- What the given paths lead to. -/
def fileSystem (paths : List String) : IO FileSystem := do
  let entries ← paths.mapM fun path => do return (textOf path, ← entry? path)
  return { entry? path := (entries.lookup path).join }

end CodeSimilarity.Main

open CodeSimilarity in
/-- Runs the program on its arguments. -/
def main (args : List String) : IO UInt32 := do
  let outcome := run (← Main.environment) (← Main.fileSystem args) (args.map Main.textOf)
  if let some report := outcome.report then
    let text := (toJson report).print ++ [Byte.newline]
    (← IO.getStdout).write ⟨text.toArray⟩
  (← IO.getStderr).write ⟨outcome.messages.toArray⟩
  return UInt32.ofNat outcome.exitCode
