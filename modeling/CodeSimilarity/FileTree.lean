import CodeSimilarity.FileSystem

set_option autoImplicit false
set_option relaxedAutoImplicit false

/-!
# Trees of files

Files and directories as they are made one after another from a working directory, and what paths
lead to among them. A path is followed step by step, as an operating system does it.

## Main definitions

* `Place` — where an entry stands, once the dots of a path are worked off.
* `FileTree` — the entries that have been made.
* `FileTree.walk?`, `FileTree.locate?` — following a path.
* `FileTree.writeFile` — writing a file, with the directories on the way.
* `FileTree.toFileSystem` — what each path leads to in a tree.
-/

namespace CodeSimilarity

/-! ## Places -/

/-- A directory that places are counted from. -/
inductive Anchor where
  /-- The topmost directory. -/
  | top
  /-- The directory that many levels above the working directory. -/
  | above (levels : Nat)
deriving DecidableEq, Repr

/-- The directory above; the topmost one is its own. -/
def Anchor.up : Anchor → Anchor
  | top => top
  | above levels => above (levels + 1)

/-- Where an entry stands: an anchor, and the names that lead down from it. -/
structure Place where
  /-- The directory that the names start from. -/
  anchor : Anchor := .above 0
  /-- The names on the way down, the last one first. -/
  names : List Text := []
deriving DecidableEq, Repr

namespace Place

/-- The steps of a path: what stands between its slashes. -/
def steps (path : Text) : List Text :=
  path.foldr (fun c ss => if c = Byte.slash then [] :: ss else (c :: ss.headD []) :: ss.tail) [[]]

/-- Where a path starts: at the topmost directory if a slash comes first, otherwise at the working
directory. -/
def start (path : Text) : Place where
  anchor := if path.head? = some Byte.slash then .top else .above 0

/-- The place one level up. -/
def up (place : Place) : Place :=
  match place.names with
  | [] => ⟨place.anchor.up, []⟩
  | _ :: names => ⟨place.anchor, names⟩

/-- The place that a step leads to. An empty step and a single dot stay, two dots lead up, and any
other step is a name. -/
def after (place : Place) (step : Text) : Place :=
  if step = [] ∨ step = [Byte.dot] then place
  else if step = [Byte.dot, Byte.dot] then place.up
  else ⟨place.anchor, step :: place.names⟩

end Place

/-! ## Trees -/

/-- The files and directories that have been made, each under its place. -/
structure FileTree where
  /-- What has been made, the latest first. -/
  entries : List (Place × FileEntry) := []
deriving DecidableEq, Repr

namespace FileTree

/-- The length in bytes of the longest path that can be followed: with the zero byte that ends it,
it fills 4096 bytes. -/
def maxPathLength : Nat :=
  4095

/-- The length in bytes of the longest name that an entry can have. -/
def maxNameLength : Nat :=
  255

/-- What stands at a place. An anchor is a directory; below it there is what has been made. -/
def entry? (tree : FileTree) (place : Place) : Option FileEntry :=
  if place.names = [] then some .directory else tree.entries.lookup place

/-- The place that steps lead to. Each of them is taken from a directory. -/
def walk? (tree : FileTree) (place : Place) : List Text → Option Place
  | [] => some place
  | step :: rest =>
    if tree.entry? place = some .directory then tree.walk? (place.after step) rest else none

/-- The place that a path leads to, be there an entry or not. A path is read up to its first zero
byte; an empty one and one longer than `maxPathLength` lead nowhere. -/
def locate? (tree : FileTree) (path : Text) : Option Place :=
  let path := path.beforeNul
  if path = [] ∨ maxPathLength < path.length then none
  else tree.walk? (.start path) (Place.steps path)

/-- Puts an entry at a place, instead of the file there if there is one. A directory stays, and
no entry has a name longer than `maxNameLength`. -/
def put (tree : FileTree) (place : Place) (entry : FileEntry) : FileTree :=
  if tree.entry? place = some .directory ∨ place.names.any (maxNameLength < ·.length) then tree
  else ⟨(place, entry) :: tree.entries⟩

/-- Makes the directories that steps lead through, up to a file that is in the way. -/
def makeDirectories (tree : FileTree) (place : Place) : List Text → FileTree
  | [] => tree
  | step :: rest =>
    let place := place.after step
    match tree.entry? place with
    | none => (tree.put place .directory).makeDirectories place rest
    | some .directory => tree.makeDirectories place rest
    | some (.file _) => tree

/-- Writes a file, after the directories on the way to it. What an earlier file held at the same
place is lost. -/
def writeFile (tree : FileTree) (path content : Text) : FileTree :=
  let way := (Place.steps path.beforeNul).dropLast
  let tree := tree.makeDirectories (.start path) way
  match tree.locate? path with
  | some place => tree.put place (.file content)
  | none => tree

/-- The tree that results from writing files one after another, each under its path. -/
def ofPaths (files : List (Text × Text)) : FileTree :=
  files.foldl (fun tree (path, content) => tree.writeFile path content) {}

/-- What each path leads to in a tree. -/
def toFileSystem (tree : FileTree) : FileSystem where
  entry? path := (tree.locate? path).bind tree.entry?

end FileTree

end CodeSimilarity
