import CodeSimilarity.FileTree
import CodeSimilarity.Proofs.Loading
import Mathlib.Data.List.Induction
import Mathlib.Data.List.TakeWhile

set_option autoImplicit false
set_option relaxedAutoImplicit false

/-!
# What a tree of files holds

However files are written, every entry stands in a directory and no name is too long. A file that is
written is read back under its path, unless it cannot stand there. What was there before stays, up to
a file at the very place that is written.

## Main definitions

* `FileTree.Free` — an entry can be put at a place.
* `FileTree.Extends` — all entries of an earlier tree are still there.
* `FileTree.WellFormed` — every entry stands in a directory, under names that are not too long.
* `FileTree.IsOnWay` — a place on the way to a file that is written.
* `IsPlainName` — a path that is the name of an entry in the working directory.

## Main results

* `FileTree.locate?_put_file` — putting a file somewhere does not change where paths lead.
* `FileTree.WellFormed.writeFile`, `FileTree.wellFormed_ofPaths` — trees are well formed.
* `FileTree.read?_writeFile` — a written file is read back.
* `FileTree.entry?_writeFile_of_some` — what was there before stays.
* `FileTree.read?_ofPaths` — files under plain names are read back, the last one of each name.
* `FileTree.loadSources_ofPaths` — they are loaded as the documents that they are.
-/

namespace CodeSimilarity

namespace FileTree

variable {tree later : FileTree} {place other : Place} {entry : FileEntry} {path content : Text}

/-! ## Putting an entry -/

/-- An entry can be put at a place: no directory is there, and no name on the way is too long. -/
def Free (tree : FileTree) (place : Place) : Prop :=
  tree.entry? place ≠ some .directory ∧ ∀ name ∈ place.names, name.length ≤ maxNameLength

/-- What stands at an anchor is a directory. -/
theorem entry?_of_names_eq_nil (tree : FileTree) (h : place.names = []) :
    tree.entry? place = some .directory :=
  if_pos h

/-- An entry is put at a place that is free. -/
theorem put_of_free (h : tree.Free place) (entry : FileEntry) :
    tree.put place entry = ⟨(place, entry) :: tree.entries⟩ := by
  refine if_neg fun hnot => hnot.elim h.1 fun hlong => ?_
  obtain ⟨name, hname, hlt⟩ := List.any_eq_true.1 hlong
  exact Nat.not_lt_of_ge (h.2 name hname) (of_decide_eq_true hlt)

/-- Nothing is put at a place that is not free. -/
theorem put_of_not_free (h : ¬ tree.Free place) (entry : FileEntry) :
    tree.put place entry = tree := by
  refine if_pos ?_
  by_contra hnot
  rw [not_or] at hnot
  refine h ⟨hnot.1, fun name hname => ?_⟩
  by_contra hlong
  exact hnot.2 (List.any_eq_true.2 ⟨name, hname, decide_eq_true (Nat.lt_of_not_ge hlong)⟩)

/-- What is put at a free place stands there. -/
theorem entry?_put_self (h : tree.Free place) (entry : FileEntry) :
    entry? (tree.put place entry) place = some entry := by
  have hne : place.names ≠ [] := fun hnil => h.1 (tree.entry?_of_names_eq_nil hnil)
  rw [put_of_free h, FileTree.entry?, if_neg hne]
  exact List.lookup_cons_self

/-- What is put at a place changes no other place. -/
theorem entry?_put_of_ne (tree : FileTree) (h : other ≠ place) (entry : FileEntry) :
    entry? (tree.put place entry) other = tree.entry? other := by
  by_cases hfree : tree.Free place
  · rw [put_of_free hfree, FileTree.entry?, FileTree.entry?, List.lookup_cons, beq_false_of_ne h]
  · rw [put_of_not_free hfree]

/-- What stands at a place after something was put there is that, or what stood there before. -/
theorem entry?_put_cases (tree : FileTree) (place : Place) (entry : FileEntry) (other : Place) :
    other = place ∧ tree.Free place ∧ entry? (tree.put place entry) other = some entry ∨
      entry? (tree.put place entry) other = tree.entry? other := by
  by_cases hfree : tree.Free place
  · by_cases hother : other = place
    · subst hother
      exact .inl ⟨rfl, hfree, entry?_put_self hfree entry⟩
    · exact .inr (entry?_put_of_ne tree hother entry)
  · exact .inr (by rw [put_of_not_free hfree])

/-- A directory is still there after an entry was put somewhere. -/
theorem entry?_put_of_directory (h : tree.entry? other = some .directory) (place : Place)
    (entry : FileEntry) : entry? (tree.put place entry) other = some .directory := by
  rcases entry?_put_cases tree place entry other with ⟨rfl, hfree, -⟩ | hsame
  · exact absurd h hfree.1
  · exact hsame.trans h

/-- Putting a file somewhere makes no directory. -/
theorem directory_put_file_iff (tree : FileTree) (place : Place) (content : Text) (other : Place) :
    entry? (tree.put place (.file content)) other = some .directory ↔
      tree.entry? other = some .directory := by
  refine ⟨fun h => ?_, fun h => entry?_put_of_directory h place _⟩
  rcases entry?_put_cases tree place (.file content) other with ⟨-, -, hfile⟩ | hsame
  · exact absurd (h.symm.trans hfile) (by simp)
  · exact hsame.symm.trans h

/-! ## Following a path -/

/-- Two trees with the same directories lead to the same places. -/
theorem walk?_congr (h : ∀ p, later.entry? p = some .directory ↔ tree.entry? p = some .directory)
    (place : Place) (steps : List Text) : later.walk? place steps = tree.walk? place steps := by
  induction steps generalizing place with
  | nil => rfl
  | cons step rest ih => simp only [walk?, h, ih]

/-- **Putting a file somewhere does not change where paths lead.** -/
theorem locate?_put_file (tree : FileTree) (place : Place) (content path : Text) :
    (tree.put place (.file content)).locate? path = tree.locate? path := by
  simp only [locate?, walk?_congr (tree.directory_put_file_iff place content)]

/-- All entries of a tree are still there in a later one, and what has come since are
directories. -/
structure Extends (tree later : FileTree) : Prop where
  kept : ∀ place entry, tree.entry? place = some entry → later.entry? place = some entry
  added : ∀ place entry, later.entry? place = some entry →
    tree.entry? place = some entry ∨ entry = .directory

/-- Every tree extends itself. -/
theorem Extends.refl (tree : FileTree) : tree.Extends tree :=
  ⟨fun _ _ h => h, fun _ _ h => .inl h⟩

/-- What extends an extension extends the first tree. -/
theorem Extends.trans {latest : FileTree} (h : tree.Extends later) (h' : later.Extends latest) :
    tree.Extends latest where
  kept place entry hentry := h'.kept place entry (h.kept place entry hentry)
  added place entry hentry := (h'.added place entry hentry).elim (h.added place entry) .inr

/-- A new directory extends a tree. -/
theorem extends_put_directory (h : tree.entry? place = none) :
    tree.Extends (tree.put place .directory) where
  kept other entry hentry := by
    rcases entry?_put_cases tree place .directory other with ⟨rfl, -, -⟩ | hsame
    · exact absurd (h.symm.trans hentry) (by simp)
    · exact hsame.trans hentry
  added other entry hentry := by
    rcases entry?_put_cases tree place .directory other with ⟨-, -, hnew⟩ | hsame
    · exact .inr (Option.some.inj (hentry.symm.trans hnew))
    · exact .inl (hsame.symm.trans hentry)

/-- Making directories extends a tree. -/
theorem extends_makeDirectories (tree : FileTree) (place : Place) (steps : List Text) :
    tree.Extends (tree.makeDirectories place steps) := by
  induction steps generalizing tree place with
  | nil => exact .refl tree
  | cons step rest ih =>
    rw [makeDirectories]
    split
    · next hnone => exact (extends_put_directory hnone).trans (ih _ _)
    · exact ih _ _
    · exact .refl tree

/-- A place that is reached in a tree is reached in what extends it. -/
theorem Extends.walk?_eq (h : tree.Extends later) {steps : List Text}
    (hwalk : tree.walk? place steps = some other) : later.walk? place steps = some other := by
  induction steps generalizing place with
  | nil => exact hwalk
  | cons step rest ih =>
    rw [walk?] at hwalk ⊢
    split at hwalk
    · next hdirectory =>
      rw [if_pos (h.kept place .directory hdirectory)]
      exact ih hwalk
    · simp at hwalk

/-- A path leads in what extends a tree to the place that it leads to in the tree. -/
theorem Extends.locate?_eq (h : tree.Extends later) (hplace : tree.locate? path = some place) :
    later.locate? path = some place := by
  rw [locate?] at hplace ⊢
  split at hplace
  · simp at hplace
  · next hlegal => exact (if_neg hlegal).trans (h.walk?_eq hplace)

/-! ## What was there before -/

/-- **What was there before stays.** Only a file that a path leads to may be another one after a file
was written, the written one, and then the two paths lead to the same place. -/
theorem entry?_writeFile_of_some {other : Text} (content : Text)
    (h : tree.toFileSystem.entry? other = some entry) :
    FileSystem.entry? (tree.writeFile path content).toFileSystem other = some entry ∨
      entry ≠ .directory ∧
      FileSystem.entry? (tree.writeFile path content).toFileSystem other = some (.file content) ∧
      (tree.writeFile path content).locate? other =
        (tree.writeFile path content).locate? path := by
  obtain ⟨place, hplace, hentry⟩ := Option.bind_eq_some_iff.1 h
  rw [writeFile]
  have hext := tree.extends_makeDirectories (.start path) (Place.steps path.beforeNul).dropLast
  generalize tree.makeDirectories (.start path) (Place.steps path.beforeNul).dropLast = made at hext
  have hmade := hext.locate?_eq hplace
  have hkept := hext.kept place entry hentry
  cases hwritten : made.locate? path with
  | none => exact .inl (Option.bind_eq_some_iff.2 ⟨place, hmade, hkept⟩)
  | some written =>
    simp only [toFileSystem, locate?_put_file, hmade, hwritten, Option.bind_some]
    rcases made.entry?_put_cases written (.file content) place with ⟨rfl, hfree, hnew⟩ | hsame
    · refine .inr ⟨?_, hnew, rfl⟩
      rintro rfl
      exact hfree.1 hkept
    · exact .inl (hsame.trans hkept)

/-! ## Well-formed trees -/

/-- Every entry stands in a directory, and no name that leads to it is too long. -/
structure WellFormed (tree : FileTree) : Prop where
  up : ∀ place entry, tree.entry? place = some entry → tree.entry? place.up = some .directory
  short : ∀ place entry, tree.entry? place = some entry →
    ∀ name ∈ place.names, name.length ≤ maxNameLength

/-- Above an anchor there is an anchor. -/
theorem names_up_of_names_eq_nil (h : place.names = []) : place.up.names = [] := by
  rw [Place.up, h]

/-- A tree without entries is well formed. -/
theorem wellFormed_empty : WellFormed {} := by
  have hnames : ∀ (place : Place) (entry : FileEntry),
      entry? {} place = some entry → place.names = [] := by
    intro place entry h
    by_contra hne
    rw [ entry?, if_neg hne] at h
    simp at h
  refine ⟨fun place entry h => ?_, fun place entry h name hname => ?_⟩
  · exact entry?_of_names_eq_nil _ (names_up_of_names_eq_nil (hnames place entry h))
  · simp [hnames place entry h] at hname

/-- An entry that is put into a directory leaves a tree well formed. -/
theorem WellFormed.put (h : tree.WellFormed) (hup : tree.entry? place.up = some .directory)
    (entry : FileEntry) : (tree.put place entry).WellFormed where
  up other found hfound := by
    refine entry?_put_of_directory ?_ place entry
    rcases entry?_put_cases tree place entry other with ⟨rfl, -, -⟩ | hsame
    · exact hup
    · exact h.up other found (hsame.symm.trans hfound)
  short other found hfound := by
    rcases entry?_put_cases tree place entry other with ⟨rfl, hfree, -⟩ | hsame
    · exact hfree.2
    · exact h.short other found (hsame.symm.trans hfound)

/-! ## The way to a file -/

/-- A place on the way to a file that is written: a directory, or a place below one under a name that
is too long, where nothing is made. -/
inductive IsOnWay (tree : FileTree) : Place → Prop
  | directory {place : Place} (h : tree.entry? place = some .directory) : IsOnWay tree place
  | beyond {anchor : Anchor} {name : Text} {names : List Text} (h : IsOnWay tree ⟨anchor, names⟩)
      (hlong : ∃ long ∈ name :: names, maxNameLength < long.length) :
      IsOnWay tree ⟨anchor, name :: names⟩

/-- One level up from a place on the way is on the way. -/
theorem IsOnWay.up (h : tree.IsOnWay place) (hwf : tree.WellFormed) : tree.IsOnWay place.up := by
  cases h with
  | directory h => exact .directory (hwf.up _ _ h)
  | beyond h _ => exact h

/-- No entry can be put at a place on the way. -/
theorem IsOnWay.not_free (h : tree.IsOnWay place) : ¬ tree.Free place := by
  intro hfree
  cases h with
  | directory h => exact hfree.1 h
  | beyond _ hlong =>
    obtain ⟨long, hmem, hlt⟩ := hlong
    exact absurd hlt (Nat.not_lt_of_ge (hfree.2 long hmem))

/-- An entry can only be put below a place on the way if this is a directory. -/
theorem IsOnWay.directory_of_free {anchor : Anchor} {name : Text} {names : List Text}
    (h : tree.IsOnWay ⟨anchor, names⟩) (hfree : tree.Free ⟨anchor, name :: names⟩) :
    tree.entry? ⟨anchor, names⟩ = some .directory := by
  by_contra hno
  exact h.not_free ⟨hno, fun long hlong => hfree.2 long (List.mem_cons_of_mem _ hlong)⟩

/-- A place below one on the way is on the way if it is a directory or cannot be made. -/
theorem IsOnWay.cons {anchor : Anchor} {names : List Text} (h : tree.IsOnWay ⟨anchor, names⟩)
    (name : Text) (hno : ¬ tree.Free ⟨anchor, name :: names⟩) :
    tree.IsOnWay ⟨anchor, name :: names⟩ := by
  by_cases hdirectory : tree.entry? ⟨anchor, name :: names⟩ = some .directory
  · exact .directory hdirectory
  · refine .beyond h ?_
    by_contra hshort
    refine hno ⟨hdirectory, fun long hlong => ?_⟩
    exact Nat.le_of_not_lt fun hlt => hshort ⟨long, hlong, hlt⟩

/-- **Every step from a place on the way** leads to one, or to a file, or to a place in a directory
where an entry can be put. -/
theorem IsOnWay.after (h : tree.IsOnWay place) (hwf : tree.WellFormed) (step : Text) :
    tree.IsOnWay (place.after step) ∨
      tree.entry? (place.after step).up = some .directory ∧ tree.Free (place.after step) := by
  rw [Place.after]
  split
  · exact .inl h
  · split
    · exact .inl (h.up hwf)
    · by_cases hfree : tree.Free ⟨place.anchor, step :: place.names⟩
      · exact .inr ⟨h.directory_of_free hfree, hfree⟩
      · exact .inl (h.cons step hfree)

/-- **Making directories leaves a tree well formed.** -/
theorem WellFormed.makeDirectories (h : tree.WellFormed) (hplace : tree.IsOnWay place)
    (steps : List Text) : (tree.makeDirectories place steps).WellFormed := by
  induction steps generalizing tree place with
  | nil => exact h
  | cons step rest ih =>
    rw [FileTree.makeDirectories]
    rcases hplace.after h step with hway | ⟨hup, hfree⟩
    · split
      · rw [put_of_not_free hway.not_free]
        exact ih h hway
      · exact ih h hway
      · exact h
    · split
      · exact ih (h.put hup _) (.directory (entry?_put_self hfree _))
      · next hdirectory => exact absurd hdirectory hfree.1
      · exact h

/-- Following a path from a directory ends at a place that is free only if it stands in a
directory. -/
theorem WellFormed.directory_up_of_walk? (h : tree.WellFormed) {steps : List Text}
    (hplace : tree.entry? place = some .directory) (hwalk : tree.walk? place steps = some other)
    (hfree : tree.Free other) : tree.entry? other.up = some .directory := by
  induction steps generalizing place with
  | nil =>
    obtain rfl : place = other := Option.some.inj hwalk
    exact absurd hplace hfree.1
  | cons step rest ih =>
    rw [walk?, if_pos hplace] at hwalk
    cases rest with
    | nil =>
      obtain rfl : place.after step = other := Option.some.inj hwalk
      rcases (IsOnWay.directory hplace).after h step with hway | ⟨hup, -⟩
      · exact absurd hfree hway.not_free
      · exact hup
    | cons next rest =>
      have hnext : tree.entry? (place.after step) = some .directory := by
        by_contra hno
        rw [walk?, if_neg hno] at hwalk
        simp at hwalk
      exact ih hnext hwalk

/-- The place that a path leads to is free only if it stands in a directory. -/
theorem WellFormed.directory_up_of_locate? (h : tree.WellFormed)
    (hplace : tree.locate? path = some place) (hfree : tree.Free place) :
    tree.entry? place.up = some .directory := by
  rw [locate?] at hplace
  split at hplace
  · simp at hplace
  · exact h.directory_up_of_walk? (tree.entry?_of_names_eq_nil rfl) hplace hfree

/-- **Writing a file leaves a tree well formed.** -/
theorem WellFormed.writeFile (h : tree.WellFormed) (path content : Text) :
    (tree.writeFile path content).WellFormed := by
  have hstart : tree.IsOnWay (.start path) := .directory (tree.entry?_of_names_eq_nil rfl)
  have hmade := h.makeDirectories hstart (Place.steps path.beforeNul).dropLast
  rw [FileTree.writeFile]
  generalize tree.makeDirectories (.start path) (Place.steps path.beforeNul).dropLast = made at hmade
  cases hplace : made.locate? path with
  | none => exact hmade
  | some place =>
    dsimp only
    by_cases hfree : made.Free place
    · exact hmade.put (hmade.directory_up_of_locate? hplace hfree) _
    · rwa [put_of_not_free hfree]

/-- **Every tree of written files is well formed.** -/
theorem wellFormed_ofPaths (files : List (Text × Text)) : (ofPaths files).WellFormed := by
  induction files using List.reverseRecOn with
  | nil => exact wellFormed_empty
  | append_singleton files file ih =>
    rw [ofPaths, List.foldl_append]
    exact ih.writeFile file.1 file.2

/-! ## Reading back -/

/-- **A written file is read back**: if a file can be read under its path at all, it is that one. -/
theorem read?_writeFile (h : tree.WellFormed) {found : Text}
    (hread : (tree.writeFile path content).toFileSystem.read? path = some found) :
    found = content := by
  have hstart : tree.IsOnWay (.start path) := .directory (tree.entry?_of_names_eq_nil rfl)
  have hmade := h.makeDirectories hstart (Place.steps path.beforeNul).dropLast
  rw [writeFile] at hread
  generalize tree.makeDirectories (.start path) (Place.steps path.beforeNul).dropLast = made
    at hmade hread
  cases hplace : made.locate? path with
  | none => simp [hplace, FileSystem.read?, toFileSystem] at hread
  | some place =>
    simp only [hplace, FileSystem.read?, toFileSystem, locate?_put_file, Option.bind_some] at hread
    by_cases hfree : made.Free place
    · simpa [entry?_put_self hfree] using hread.symm
    · rw [put_of_not_free hfree] at hread
      split at hread
      · next found' hfile =>
        refine absurd ⟨?_, hmade.short place _ hfile⟩ hfree
        simp [hfile]
      · simp at hread

/-! ## Plain names -/

/-- A path that is the name of an entry in the working directory. -/
structure IsPlainName (name : Text) : Prop where
  ne_nil : name ≠ []
  ne_dot : name ≠ [Byte.dot]
  ne_dots : name ≠ [Byte.dot, Byte.dot]
  slash_notMem : Byte.slash ∉ name
  zero_notMem : 0 ∉ name
  length_le : name.length ≤ maxNameLength

/-- The place of a name in the working directory. -/
def placeOf (name : Text) : Place :=
  ⟨.above 0, [name]⟩

namespace IsPlainName

variable {name : Text}

/-- A text without a slash is one step. -/
theorem steps_eq (h : Byte.slash ∉ name) : Place.steps name = [name] := by
  induction name with
  | nil => rfl
  | cons c s ih =>
    rw [List.mem_cons, not_or] at h
    have hs := ih h.2
    rw [Place.steps] at hs
    rw [Place.steps, List.foldr_cons, hs, if_neg (Ne.symm h.1)]
    rfl

/-- A plain name is read to its end. -/
theorem beforeNul_eq (h : IsPlainName name) : name.beforeNul = name := by
  rw [Text.beforeNul, List.takeWhile_eq_self_iff]
  intro c hc
  refine decide_eq_true fun hzero => h.zero_notMem (hzero ▸ hc)

/-- A plain name leads to its place in every tree. -/
theorem locate?_eq (h : IsPlainName name) (tree : FileTree) :
    tree.locate? name = some (placeOf name) := by
  have hlegal : ¬ (name = [] ∨ maxPathLength < name.length) := by
    have hmax : maxNameLength ≤ maxPathLength := by decide
    exact not_or.2 ⟨h.ne_nil, Nat.not_lt_of_ge (Nat.le_trans h.length_le hmax)⟩
  have hhead : name.head? ≠ some Byte.slash := fun hhead =>
    h.slash_notMem (List.mem_of_mem_head? hhead)
  have hstart : Place.start name = ⟨.above 0, []⟩ := by rw [Place.start, if_neg hhead]
  rw [locate?]
  simp only [h.beforeNul_eq]
  rw [if_neg hlegal, steps_eq h.slash_notMem, hstart, walk?,
    if_pos (tree.entry?_of_names_eq_nil rfl), walk?, Place.after,
    if_neg (not_or.2 ⟨h.ne_nil, h.ne_dot⟩), if_neg h.ne_dots]
  rfl

/-- Writing a file under a plain name puts it at its place. -/
theorem writeFile_eq (h : IsPlainName name) (tree : FileTree) (content : Text) :
    tree.writeFile name content = tree.put (placeOf name) (.file content) := by
  have hway : (Place.steps name.beforeNul).dropLast = [] := by
    rw [h.beforeNul_eq, steps_eq h.slash_notMem]
    rfl
  simp only [writeFile, hway, makeDirectories, h.locate?_eq]

end IsPlainName

/-- What stands at the place of a plain name is the last file that was written under it. -/
theorem entry?_ofPaths {files : List (Text × Text)} (hfiles : ∀ file ∈ files, IsPlainName file.1)
    (name : Text) :
    entry? (ofPaths files) (placeOf name) = (files.reverse.lookup name).map .file := by
  induction files using List.reverseRecOn with
  | nil => rfl
  | append_singleton files file ih =>
    rw [List.forall_mem_append] at hfiles
    have hfile : IsPlainName file.1 := hfiles.2 file (by simp)
    have hput : ofPaths (files ++ [file]) =
        (ofPaths files).put (placeOf file.1) (.file file.2) := by
      rw [ofPaths, List.foldl_append]
      exact hfile.writeFile_eq _ _
    have hlookup : (files ++ [file]).reverse.lookup name =
        if name = file.1 then some file.2 else files.reverse.lookup name := by
      rw [List.reverse_append, List.reverse_singleton, List.singleton_append, List.lookup_cons]
      split <;> simp_all
    rw [hput, hlookup]
    by_cases hname : name = file.1
    · have hfree : (ofPaths files).Free (placeOf name) := by
        refine ⟨?_, ?_⟩
        · rw [ih hfiles.1]
          simp
        · simpa [placeOf, hname] using hfile.length_le
      rw [if_pos hname, ← hname, entry?_put_self hfree]
      rfl
    · have hne : placeOf name ≠ placeOf file.1 := by simpa [placeOf] using hname
      rw [if_neg hname, entry?_put_of_ne _ hne, ih hfiles.1]

/-- **Files under plain names are read back**, of several with one name the last one, and under no
other plain name anything can be read. -/
theorem read?_ofPaths {files : List (Text × Text)} (hfiles : ∀ file ∈ files, IsPlainName file.1)
    {name : Text} (hname : IsPlainName name) :
    (ofPaths files).toFileSystem.read? name = files.reverse.lookup name := by
  simp only [FileSystem.read?, toFileSystem, hname.locate?_eq, Option.bind_some,
    entry?_ofPaths hfiles]
  cases files.reverse.lookup name <;> rfl

/-- **Files under different plain names are loaded** as the documents that they are. -/
theorem loadSources_ofPaths {files : List (Text × Text)}
    (hfiles : ∀ file ∈ files, IsPlainName file.1) (hnodup : (files.map Prod.fst).Nodup)
    (endings : List Text) (loaded : Loaded) :
    loadSources (ofPaths files).toFileSystem endings loaded (files.map Prod.fst) =
      ({ documents := loaded.documents ++
           (files.filter fun file => isAccepted endings file.1).map fun file => ⟨file.1, file.2⟩
         rejected := loaded.rejected ++
           (files.map Prod.fst).filter (!isAccepted endings ·) }, none) := by
  refine loadSources_of_read ?_ loaded
  rw [List.filter_map, List.forall₂_map_left_iff, List.forall₂_map_right_iff]
  refine List.forall₂_same.2 fun file hfile => ?_
  have hmem : file ∈ files := List.mem_of_mem_filter hfile
  obtain ⟨before, after, hsplit⟩ := List.append_of_mem hmem
  have hlast : ∀ other ∈ after.reverse, file.1 != other.1 := by
    intro other hother
    rw [hsplit, List.map_append, List.map_cons, List.nodup_append, List.nodup_cons] at hnodup
    refine bne_iff_ne.2 fun heq => hnodup.2.1.1 ?_
    exact heq ▸ List.mem_map_of_mem (List.mem_reverse.1 hother)
  refine ⟨rfl, (read?_ofPaths hfiles (hfiles file hmem)).trans ?_⟩
  refine List.lookup_eq_some_iff.2 ⟨after.reverse, before.reverse, ?_, hlast⟩
  rw [hsplit, List.reverse_append, List.reverse_cons, List.append_assoc, List.singleton_append]

end FileTree

end CodeSimilarity
