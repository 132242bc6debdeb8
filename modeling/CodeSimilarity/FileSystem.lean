import CodeSimilarity.Text.Basic

set_option autoImplicit false
set_option relaxedAutoImplicit false

/-!
# Files

What the program knows of files is what each path leads to.

## Main definitions

* `FileEntry`, `FileSystem` — what paths lead to.
* `FileSystem.read?`, `FileSystem.readLines?` — what can be read there.
-/

namespace CodeSimilarity

/-- What a path leads to. -/
inductive FileEntry where
  /-- A directory. -/
  | directory
  /-- A file with its bytes. -/
  | file (content : Text)
deriving DecidableEq, Repr

/-- What each path leads to, if to anything that can be opened. -/
structure FileSystem where
  /-- The entry that a path leads to. -/
  entry? : Text → Option FileEntry

namespace FileSystem

/-- The bytes of the file that a path leads to. -/
def read? (files : FileSystem) (path : Text) : Option Text :=
  match files.entry? path with
  | some (.file content) => some content
  | _ => none

/-- The bytes that can be read line by line from what a path leads to; a directory holds
none. -/
def readLines? (files : FileSystem) (path : Text) : Option Text :=
  (files.entry? path).map fun
    | .file content => content
    | .directory => []

end FileSystem

end CodeSimilarity
