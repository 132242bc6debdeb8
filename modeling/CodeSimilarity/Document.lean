import CodeSimilarity.FileSystem

set_option autoImplicit false
set_option relaxedAutoImplicit false

/-!
# Documents

## Main definitions

* `Document` — a text with the name that reports call it by.
* `isAccepted` — whether a path has one of the accepted endings.
* `loadSources` — the documents that paths lead to.
* `Corpus.ofText` — the documents of a corpus file.

## Implementation notes

No format of a corpus record is defined, so every line of a corpus that is not empty counts as
malformed and is skipped.
-/

namespace CodeSimilarity

/-- A text with the name that reports call it by. -/
structure Document where
  /-- The name. -/
  id : Text
  /-- The text. -/
  text : Text
deriving DecidableEq, Repr

/-- Whether a path has one of the endings; the empty ending is none. -/
def isAccepted (endings : List Text) (path : Text) : Bool :=
  endings.any fun ending => ending != [] && ending.isSuffixOf path

/-- The reasons why documents cannot be loaded. -/
inductive LoadError where
  /-- What a path leads to cannot be opened. -/
  | cannotOpen (path : Text)
deriving DecidableEq, Repr

/-- What is said about an error. -/
def LoadError.message : LoadError → Text
  | .cannotOpen path => Text.ofAscii "cannot open " ++ path

/-! ## Source files -/

/-- The documents loaded and the paths turned away so far, each in order. -/
structure Loaded where
  /-- The documents. -/
  documents : List Document := []
  /-- The paths without an accepted ending. -/
  rejected : List Text := []
deriving DecidableEq, Repr

/-- Loads the files that paths lead to, in order, and adds them to what is loaded already. A
path without an accepted ending is turned away; the first accepted path that cannot be opened
ends the loading. -/
def loadSources (files : FileSystem) (endings : List Text) (loaded : Loaded) :
    List Text → Loaded × Option LoadError
  | [] => (loaded, none)
  | path :: paths =>
    if isAccepted endings path then
      match files.read? path with
      | none => (loaded, some (.cannotOpen path))
      | some text =>
        loadSources files endings
          { loaded with documents := loaded.documents ++ [⟨path, text⟩] } paths
    else
      loadSources files endings { loaded with rejected := loaded.rejected ++ [path] } paths

/-! ## Corpora -/

/-- The documents of a corpus file and the number of its lines that were skipped. -/
structure Corpus where
  /-- The documents. -/
  documents : List Document := []
  /-- The number of skipped lines. -/
  skipped : Nat := 0
deriving DecidableEq, Repr

/-- The corpus that a text holds, one record a line; empty lines do not count. -/
def Corpus.ofText (text : Text) : Corpus where
  skipped := text.lines.countP (· ≠ [])

/-- The corpus in the file that a path leads to. -/
def loadCorpus (files : FileSystem) (path : Text) : Except LoadError Corpus :=
  match files.readLines? path with
  | none => .error (.cannotOpen path)
  | some text => .ok (.ofText text)

end CodeSimilarity
