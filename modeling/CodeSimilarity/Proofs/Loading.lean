import CodeSimilarity.Document
import Mathlib.Data.List.Forall2

set_option autoImplicit false
set_option relaxedAutoImplicit false

/-!
# Loading source files

Paths are loaded one after the other, up to the first accepted one that cannot be read. What is
loaded of the paths before it does not depend on what follows.

## Main definitions

* `Document.IsRead` — a document is what a path leads to.
* `firstUnreadable?` — the first accepted path that cannot be read.
* `HasEnding` — a path has one of the accepted endings.
* `AllReadable` — all paths with an accepted ending lead to files.
* `Loaded.GrowsBy` — what paths that can be read add to what is loaded.

## Main results

* `loadSources_append` — paths that can be read are loaded, and loading goes on.
* `loadSources_of_read`, `loadSources_of_firstUnreadable` — the two ways in which loading ends.
* `loading_partitions_paths` — what loading leaves behind in either case.
-/

namespace CodeSimilarity

/-- A document is what a path leads to: it has the path as its name and the bytes of the file. -/
structure Document.IsRead (files : FileSystem) (path : Text) (d : Document) : Prop where
  id_eq : d.id = path
  read_eq : files.read? path = some d.text

/-- The first path with an accepted ending that cannot be read. -/
def firstUnreadable? (files : FileSystem) (endings : List Text) (paths : List Text) :
    Option Text :=
  (paths.filter (isAccepted endings)).find? fun path => (files.read? path).isNone

variable {files : FileSystem} {endings paths before : List Text} {documents : List Document}
  {path : Text}

/-- Paths that can all be read lead to documents. -/
theorem exists_documents (h : ∀ path ∈ paths, (files.read? path).isSome) :
    ∃ documents, List.Forall₂ (Document.IsRead files) paths documents := by
  induction paths with
  | nil => exact ⟨[], .nil⟩
  | cons path paths ih =>
    obtain ⟨hpath, hpaths⟩ := List.forall_mem_cons.1 h
    obtain ⟨text, htext⟩ := Option.isSome_iff_exists.1 hpath
    obtain ⟨documents, hdocuments⟩ := ih hpaths
    exact ⟨⟨path, text⟩ :: documents, .cons ⟨rfl, htext⟩ hdocuments⟩

/-- **Paths that can be read are loaded**, those without an accepted ending are turned away, and
loading goes on with the other paths. -/
theorem loadSources_append
    (h : List.Forall₂ (Document.IsRead files) (before.filter (isAccepted endings)) documents)
    (loaded : Loaded) (after : List Text) :
    loadSources files endings loaded (before ++ after) =
      loadSources files endings
        { documents := loaded.documents ++ documents
          rejected := loaded.rejected ++ before.filter (!isAccepted endings ·) } after := by
  induction before generalizing loaded documents with
  | nil =>
    cases h
    simp
  | cons path before ih =>
    rw [List.cons_append, loadSources]
    by_cases haccepted : isAccepted endings path
    · rw [List.filter_cons_of_pos haccepted] at h
      obtain ⟨⟨_, text⟩, documents, ⟨rfl, hread⟩, hrest, rfl⟩ := List.forall₂_cons_left_iff.1 h
      rw [if_pos haccepted, hread]
      simp [ih hrest, haccepted]
    · rw [List.filter_cons_of_neg haccepted] at h
      rw [if_neg haccepted]
      simp [ih h, haccepted]

/-- If all accepted paths can be read, all of them are loaded. -/
theorem loadSources_of_read
    (h : List.Forall₂ (Document.IsRead files) (paths.filter (isAccepted endings)) documents)
    (loaded : Loaded) :
    loadSources files endings loaded paths =
      ({ documents := loaded.documents ++ documents
         rejected := loaded.rejected ++ paths.filter (!isAccepted endings ·) }, none) := by
  have happend := loadSources_append h loaded []
  rwa [List.append_nil] at happend

/-- No path is unreadable exactly if every path with an accepted ending can be read. -/
theorem firstUnreadable?_eq_none_iff :
    firstUnreadable? files endings paths = none ↔
      ∀ path ∈ paths.filter (isAccepted endings), (files.read? path).isSome := by
  simp [firstUnreadable?, Option.isSome_iff_ne_none]

/-- Before the first accepted path that cannot be read, all can be read. -/
theorem exists_of_firstUnreadable?_eq_some (h : firstUnreadable? files endings paths = some path) :
    ∃ before after documents, paths = before ++ path :: after ∧
      List.Forall₂ (Document.IsRead files) (before.filter (isAccepted endings)) documents ∧
      isAccepted endings path ∧ files.read? path = none := by
  rw [firstUnreadable?, List.find?_filter] at h
  obtain ⟨hpath, before, after, rfl, hbefore⟩ := List.find?_eq_some_iff_append.1 h
  obtain ⟨haccepted, hnone⟩ : isAccepted endings path ∧ files.read? path = none := by
    simpa using hpath
  have hread : firstUnreadable? files endings before = none := by
    rw [firstUnreadable?, List.find?_filter, List.find?_eq_none]
    intro q hq
    simpa only [Bool.not_eq_true, Bool.not_eq_true'] using hbefore q hq
  obtain ⟨documents, hdocuments⟩ := exists_documents (firstUnreadable?_eq_none_iff.1 hread)
  exact ⟨before, after, documents, rfl, hdocuments, haccepted, hnone⟩

/-- **The first accepted path that cannot be read** ends the loading. -/
theorem loadSources_of_firstUnreadable (h : firstUnreadable? files endings paths = some path)
    (loaded : Loaded) :
    (loadSources files endings loaded paths).2 = some (.cannotOpen path) := by
  obtain ⟨before, after, documents, rfl, hdocuments, haccepted, hnone⟩ :=
    exists_of_firstUnreadable?_eq_some h
  rw [loadSources_append hdocuments, loadSources, if_pos haccepted, hnone]

/-! ## What loading leaves behind -/

/-- A path has one of the endings; the empty ending is none. -/
def HasEnding (endings : List Text) (path : Text) : Prop :=
  ∃ ending ∈ endings, ending ≠ [] ∧ ending <:+ path

/-- A path is accepted exactly if it has one of the endings. -/
theorem isAccepted_iff : isAccepted endings path ↔ HasEnding endings path := by
  simp [isAccepted, HasEnding]

instance (endings : List Text) (path : Text) : Decidable (HasEnding endings path) :=
  decidable_of_iff _ isAccepted_iff

/-- All paths with one of the endings lead to files. -/
def AllReadable (files : FileSystem) (endings paths : List Text) : Prop :=
  ∀ path ∈ paths, HasEnding endings path → ∃ text, files.entry? path = some (.file text)

/-- The documents of the paths with an accepted ending are added to what is loaded, and so are the
other paths to those turned away, all of them in order and behind what was there. -/
structure Loaded.GrowsBy (loaded : Loaded) (files : FileSystem) (endings paths : List Text)
    (loaded' : Loaded) : Prop where
  documents_eq : ∃ documents,
    List.Forall₂ (Document.IsRead files) (paths.filter (HasEnding endings ·)) documents ∧
      loaded'.documents = loaded.documents ++ documents
  rejected_eq : loaded'.rejected = loaded.rejected ++ paths.filter (¬ HasEnding endings ·)

/-- The paths with one of the endings are the accepted ones. -/
theorem filter_hasEnding (endings paths : List Text) :
    paths.filter (HasEnding endings ·) = paths.filter (isAccepted endings) :=
  List.filter_congr fun _ _ => Bool.eq_iff_iff.2 (decide_eq_true_iff.trans isAccepted_iff.symm)

/-- The paths with none of the endings are the rejected ones. -/
theorem filter_not_hasEnding (endings paths : List Text) :
    paths.filter (¬ HasEnding endings ·) = paths.filter (!isAccepted endings ·) := by
  refine List.filter_congr fun path _ => Bool.eq_iff_iff.2 ?_
  rw [decide_eq_true_iff, ← isAccepted_iff, Bool.not_eq_true, Bool.not_eq_true']

/-- Loading paths that can be read adds them to what is loaded. -/
theorem growsBy_of_read
    (h : List.Forall₂ (Document.IsRead files) (paths.filter (isAccepted endings)) documents)
    (loaded : Loaded) :
    loaded.GrowsBy files endings paths
      { documents := loaded.documents ++ documents
        rejected := loaded.rejected ++ paths.filter (!isAccepted endings ·) } where
  documents_eq := ⟨documents, filter_hasEnding endings paths ▸ h, rfl⟩
  rejected_eq := by rw [filter_not_hasEnding]

/-- What is read from a path is the text of the file there. -/
theorem read?_eq_some_iff {text : Text} :
    files.read? path = some text ↔ files.entry? path = some (.file text) := by
  unfold FileSystem.read?
  split <;> simp_all

/-- A path can be read exactly if it leads to a file. -/
theorem isSome_read?_iff :
    (files.read? path).isSome ↔ ∃ text, files.entry? path = some (.file text) := by
  simp only [Option.isSome_iff_exists, read?_eq_some_iff]

/-- Paths that have led to documents can be read. -/
theorem isSome_read?_of_forall₂ (h : List.Forall₂ (Document.IsRead files) paths documents) :
    ∀ path ∈ paths, (files.read? path).isSome := by
  induction h with
  | nil => simp
  | cons hd _ ih =>
    refine List.forall_mem_cons.2 ⟨?_, ih⟩
    rw [hd.read_eq]
    rfl

/-- Where a path leads to no directory and cannot be read, nothing is there. -/
theorem entry?_eq_none (h : files.entry? path ≠ some .directory) (hnone : files.read? path = none) :
    files.entry? path = none := by
  rcases hentry : files.entry? path with _ | _ | text
  · rfl
  · exact absurd hentry h
  · rw [read?_eq_some_iff.2 hentry] at hnone
    simp at hnone

/-- All paths with one of the endings lead to files exactly if all accepted paths can be read. -/
theorem allReadable_iff :
    AllReadable files endings paths ↔
      ∀ path ∈ paths.filter (isAccepted endings), (files.read? path).isSome := by
  simp only [AllReadable, ← isSome_read?_iff, List.mem_filter, ← isAccepted_iff, and_imp]

/-- **Loading partitions the paths, in order.** If all paths with an accepted ending lead to files,
all of their documents are loaded. Otherwise the first one that does not is what the error names,
and all that is loaded comes from the paths before it, whatever paths come after it. -/
theorem loading_partitions_paths (files : FileSystem) (endings paths : List Text) (loaded : Loaded)
    (hregular : ∀ path ∈ paths, files.entry? path ≠ some .directory) :
    (AllReadable files endings paths →
      ∃ loaded', loadSources files endings loaded paths = (loaded', none) ∧
        loaded.GrowsBy files endings paths loaded') ∧
    (¬ AllReadable files endings paths →
      ∃ before path after loaded' error, paths = before ++ path :: after ∧
        AllReadable files endings before ∧
        HasEnding endings path ∧ files.entry? path = none ∧
        (∀ later,
          loadSources files endings loaded (before ++ path :: later) = (loaded', some error)) ∧
        error.message = Text.ofAscii "cannot open " ++ path ∧
        loaded.GrowsBy files endings before loaded') := by
  rw [allReadable_iff]
  constructor
  · intro hread
    obtain ⟨documents, hdocuments⟩ := exists_documents hread
    exact ⟨_, loadSources_of_read hdocuments loaded, growsBy_of_read hdocuments loaded⟩
  · intro hunreadable
    rw [← firstUnreadable?_eq_none_iff] at hunreadable
    obtain ⟨path, hfirst⟩ := Option.ne_none_iff_exists'.1 hunreadable
    obtain ⟨before, after, documents, rfl, hdocuments, haccepted, hnone⟩ :=
      exists_of_firstUnreadable?_eq_some hfirst
    refine ⟨before, path, after, _, .cannotOpen path, rfl,
      allReadable_iff.2 (isSome_read?_of_forall₂ hdocuments), isAccepted_iff.1 haccepted,
      entry?_eq_none (hregular path (by simp)) hnone, fun later => ?_, rfl,
      growsBy_of_read hdocuments loaded⟩
    rw [loadSources_append hdocuments, loadSources, if_pos haccepted, hnone]

/-- The files with the given paths and contents. -/
def FileSystem.ofList (entries : List (Text × Text)) : FileSystem where
  entry? path := (entries.lookup path).map .file

/-- A source file that is named twice, with a path in between that is turned away, behind a document
that was there before; and a missing file in front of the second. -/
theorem loading_partitions_paths_repeated :
    let files := FileSystem.ofList [(Text.ofAscii "a.h", Text.ofAscii "x;")]
    let endings := [[], Text.ofAscii ".h"]
    let loaded : Loaded := { documents := [⟨Text.ofAscii "a.h", []⟩] }
    ((∀ path ∈ ["a.h", "b", "a.h"].map Text.ofAscii, files.entry? path ≠ some .directory) ∧
      ∃ loaded', loadSources files endings loaded (["a.h", "b", "a.h"].map Text.ofAscii) =
          (loaded', none) ∧
        loaded.GrowsBy files endings (["a.h", "b", "a.h"].map Text.ofAscii) loaded') ∧
    (∀ path ∈ ["a.h", "c.h", "a.h"].map Text.ofAscii, files.entry? path ≠ some .directory) ∧
      ∃ loaded' error, loadSources files endings loaded (["a.h", "c.h", "a.h"].map Text.ofAscii) =
          (loaded', some error) ∧
        error.message = Text.ofAscii "cannot open c.h" := by
  intro files endings loaded
  have hregular : ∀ path, files.entry? path ≠ some .directory := by
    intro path h
    simp [files, FileSystem.ofList] at h
  have hread : AllReadable files endings (["a.h", "b", "a.h"].map Text.ofAscii) :=
    allReadable_iff.2 (List.all_eq_true.1 (by decide))
  have hunreadable : ¬ AllReadable files endings (["a.h", "c.h", "a.h"].map Text.ofAscii) := by
    rw [allReadable_iff, ← firstUnreadable?_eq_none_iff]
    decide
  obtain ⟨hloaded, -⟩ := loading_partitions_paths files endings _ loaded fun path _ => hregular path
  obtain ⟨-, hfailed⟩ := loading_partitions_paths files endings _ loaded fun path _ => hregular path
  refine ⟨⟨fun path _ => hregular path, hloaded hread⟩, fun path _ => hregular path, ?_⟩
  obtain ⟨before, path, after, loaded', error, hpaths, -, -, hnone, hload, hmessage, -⟩ :=
    hfailed hunreadable
  have hmissing : ∀ path ∈ ["a.h", "c.h", "a.h"].map Text.ofAscii,
      files.entry? path = none → path = Text.ofAscii "c.h" := by
    decide +kernel
  obtain rfl := hmissing path (hpaths ▸ by simp) hnone
  exact ⟨loaded', error, hpaths ▸ hload after, hmessage⟩

end CodeSimilarity
