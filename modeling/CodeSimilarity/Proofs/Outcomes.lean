import CodeSimilarity.CommandLine
import CodeSimilarity.Proofs.Loading
import CodeSimilarity.Proofs.WrittenDoubles

set_option autoImplicit false
set_option relaxedAutoImplicit false

/-!
# How a run ends

A run ends with a report or with an explanation on the error output, never with both and never with
neither. Which of the two it is can be read off the arguments and the files they name.

## Main definitions

* `sources`, `others` — the arguments with an accepted ending and the remaining ones.
* `IsCorpusRun` — the only argument names a corpus.
* `Report.IsSummedUp` — the line with the numbers of a report.
* `Outcome.Reports` — what a run with a report owes to its arguments.
* `Outcome.Explains` — what a run without a report says, case by case.

## Main results

* `exitCode_run` — the exit code tells whether there is a report.
* `isSome_report_run_iff` — when a run ends with a report.
* `reports_run`, `explains_run` — what a run says in either case.
* `run_reports_or_explains` — all of it together.
-/

namespace CodeSimilarity

open Text

/-- The arguments that end like source files, in order. -/
def sources (args : List Text) : List Text :=
  args.filter (isAccepted ({} : Settings).extensions)

/-- The arguments that do not end like source files, in order. -/
def others (args : List Text) : List Text :=
  args.filter (!isAccepted ({} : Settings).extensions ·)

/-- There is one argument, which ends like a corpus. -/
def IsCorpusRun (args : List Text) : Prop :=
  ∃ path, args = [path] ∧ (ofAscii ".jsonl").isSuffixOf path

/-- A line sums a report up: it gives the numbers of documents, of pairs and of flagged pairs, and
then the threshold and the number of threads that were set. Nothing follows its end. -/
structure Report.IsSummedUp (report : Report) (settings : Settings) (line : Text) : Prop where
  line_eq : line =
    ofAscii "[pair_checker] compared docs=" ++ ofNat 10 report.documents ++
      ofAscii " pairs=" ++ ofNat 10 report.pairs ++
      ofAscii " flagged=" ++ ofNat 10 report.flagged ++
      ofAscii " threshold=" ++ settings.threshold.general 6 ++
      ofAscii " threads=" ++ ofInt 10 settings.threads ++ ofAscii "\n"
  count_newline : line.count Byte.newline = 1

/-- A run prints the report on the documents that its source files hold, in the order of the
arguments. Its error output warns of each other argument, in the order of the arguments, and then
sums the report up, with the numbers that the items of the report give. -/
def Outcome.Reports (o : Outcome) (settings : Settings) (files : FileSystem) (args : List Text) :
    Prop :=
  ∃ documents report summary,
    List.Forall₂ (Document.IsRead files) (sources args) documents ∧
    report = Report.ofResults settings documents (comparePairs settings documents) ∧
    o.report = some report ∧
    o.messages = (others args).flatMap (fun path =>
      ofAscii "[pair_checker] unsupported file type, skipped: " ++ path ++ ofAscii "\n") ++ summary ∧
    report.IsSummedUp settings summary ∧
    report.documents = (sources args).length ∧
    report.pairs = report.items.length ∧
    report.flagged = report.items.countP ReportItem.flagged

/-- What a run without a report says. -/
structure Outcome.Explains (o : Outcome) (files : FileSystem) (args : List Text) : Prop where
  no_arguments : args = [] →
    o.messages = ofAscii "Usage: pair_checker <source_file>... | <corpus_jsonl>\n"
  corpus_unreadable : ∀ path, args = [path] → (ofAscii ".jsonl").isSuffixOf path →
    files.read? path = none →
    o.messages = ofAscii "[pair_checker] cannot open " ++ path ++ ofAscii "\n"
  /-- No line of a corpus is a document, and those that are not empty are counted. -/
  corpus_without_documents : ∀ path content, args = [path] →
    (ofAscii ".jsonl").isSuffixOf path → files.read? path = some content →
    o.messages = (if content.lines.countP (· ≠ []) = 0 then []
        else ofAscii "[pair_checker] skipped " ++ ofNat 10 (content.lines.countP (· ≠ [])) ++
          ofAscii " malformed corpus lines\n") ++
      ofAscii "[pair_checker] need at least two documents (got 0)\n"
  /-- The first source file that cannot be read is named, and no warning comes before it. -/
  source_unreadable : ¬ IsCorpusRun args → ∀ path,
    firstUnreadable? files ({} : Settings).extensions args = some path →
    o.messages = ofAscii "[pair_checker] cannot open " ++ path ++ ofAscii "\n"
  too_few_sources : args ≠ [] → ¬ IsCorpusRun args →
    (∀ path ∈ sources args, (files.read? path).isSome) → (sources args).length < 2 →
    o.messages = (others args).flatMap (fun path =>
        ofAscii "[pair_checker] unsupported file type, skipped: " ++ path ++ ofAscii "\n") ++
      ofAscii "[pair_checker] need at least two documents (got " ++
        ofNat 10 (sources args).length ++ ofAscii ")\n"

variable {env : Environment} {files : FileSystem} {args : List Text} {settings : Settings}
  {documents : List Document} {path : Text}

/-! ## The arguments -/

/-- Neither the environment nor a settings file changes the accepted endings. -/
theorem extensions_resolve (env : Environment) (files : FileSystem) :
    (Settings.resolve env files).extensions = ({} : Settings).extensions := by
  unfold Settings.resolve
  cases Environment.given? env.settingsFile <;> rfl

/-- What is no directory and cannot be read cannot be opened. -/
theorem readLines?_of_regular (h : files.entry? path ≠ some .directory) :
    files.readLines? path = files.read? path := by
  unfold FileSystem.readLines? FileSystem.read?
  match hentry : files.entry? path with
  | none => rfl
  | some .directory => exact absurd hentry h
  | some (.file content) => rfl

/-! ## The lines of the error output -/

/-- The warning of an argument that does not end like a source file. -/
theorem line_unsupported (path : Text) : (Notice.unsupported path).line =
    ofAscii "[pair_checker] unsupported file type, skipped: " ++ path ++ ofAscii "\n" := by
  have hstart : ofAscii "[pair_checker] unsupported file type, skipped: " =
      ofAscii "[pair_checker] " ++ ofAscii "unsupported file type, skipped: " := rfl
  have hsuffix : ofAscii "\n" = [Byte.newline] := rfl
  simp only [hstart, hsuffix, Notice.line, Notice.wording, List.append_assoc]

/-- The message about a file that cannot be opened. -/
theorem line_cannotOpen (path : Text) : (Notice.loadFailed (.cannotOpen path)).line =
    ofAscii "[pair_checker] cannot open " ++ path ++ ofAscii "\n" := by
  have hstart : ofAscii "[pair_checker] cannot open " =
      ofAscii "[pair_checker] " ++ ofAscii "cannot open " := rfl
  have hsuffix : ofAscii "\n" = [Byte.newline] := rfl
  simp only [hstart, hsuffix, Notice.line, Notice.wording, LoadError.message, List.append_assoc]

/-- The warning about lines of a corpus. -/
theorem line_skippedLines (count : Nat) : (Notice.skippedLines count).line =
    ofAscii "[pair_checker] skipped " ++ ofNat 10 count ++
      ofAscii " malformed corpus lines\n" := by
  have hstart : ofAscii "[pair_checker] skipped " =
      ofAscii "[pair_checker] " ++ ofAscii "skipped " := rfl
  have hsuffix : ofAscii " malformed corpus lines\n" =
      ofAscii " malformed corpus lines" ++ [Byte.newline] := rfl
  simp only [hstart, hsuffix, Notice.line, Notice.wording, List.append_assoc]

/-- The message about too few documents. -/
theorem line_tooFewDocuments (count : Nat) : (Notice.tooFewDocuments count).line =
    ofAscii "[pair_checker] need at least two documents (got " ++ ofNat 10 count ++
      ofAscii ")\n" := by
  have hstart : ofAscii "[pair_checker] need at least two documents (got " =
      ofAscii "[pair_checker] " ++ ofAscii "need at least two documents (got " := rfl
  have hsuffix : ofAscii ")\n" = ofAscii ")" ++ [Byte.newline] := rfl
  simp only [hstart, hsuffix, Notice.line, Notice.wording, List.append_assoc]

/-- The warnings of some arguments. -/
theorem flatMap_line_unsupported (paths : List Text) :
    (paths.map Notice.unsupported).flatMap Notice.line = paths.flatMap fun path =>
      ofAscii "[pair_checker] unsupported file type, skipped: " ++ path ++ ofAscii "\n" := by
  rw [List.flatMap_map]
  exact congrArg (paths.flatMap ·) (funext line_unsupported)

/-- A numeral stays on one line. -/
theorem newline_notMem_ofNat (n : Nat) : Byte.newline ∉ ofNat 10 n := by
  have hdigit : ∀ v < 10, Byte.newline ≠ digit v := by decide
  intro h
  obtain ⟨v, hv, heq⟩ := mem_ofNat (by decide) h
  exact hdigit v hv heq

/-- A numeral with a sign stays on one line. -/
theorem newline_notMem_ofInt (z : Int) : Byte.newline ∉ ofInt 10 z := by
  rw [ofInt]
  split
  · rw [List.mem_cons, not_or]
    exact ⟨by decide, newline_notMem_ofNat _⟩
  · exact newline_notMem_ofNat _

/-- **The last line of a run with a report** sums the report up. -/
theorem isSummedUp_line (settings : Settings) (documents : List Document) :
    (Report.ofDocuments settings documents).IsSummedUp settings
      (Notice.compared (Report.ofDocuments settings documents) settings.threads).line := by
  have hstart : ofAscii "[pair_checker] compared docs=" =
      ofAscii "[pair_checker] " ++ ofAscii "compared docs=" := rfl
  have hthreshold : (Report.ofDocuments settings documents).threshold = settings.threshold := rfl
  have hnewline : ofAscii "\n" = [Byte.newline] := rfl
  have hcount : ∀ s : Text, Byte.newline ∉ s → s.count Byte.newline = 0 :=
    fun s => List.count_eq_zero.2
  constructor
  · simp only [hstart, hthreshold, hnewline, Notice.line, Notice.wording, List.append_assoc]
  · simp only [Notice.line, Notice.wording, List.count_append]
    rw [hcount _ (newline_notMem_ofNat _), hcount _ (newline_notMem_ofNat _),
      hcount _ (newline_notMem_ofNat _), hcount _ (newline_notMem_ofInt _),
      hcount _ (Binary64.newline_notMem_general (by decide) (by decide) _)]
    decide

/-! ## Runs on a corpus -/

/-- A run on a lone corpus. -/
theorem run_of_corpus (hcorpus : (ofAscii ".jsonl").isSuffixOf path) :
    run env files [path] = runCorpus (Settings.resolve env files) files path :=
  if_pos hcorpus

/-- A corpus holds no documents, so a run on one ends without a report. -/
theorem runCorpus_eq (settings : Settings) (h : files.entry? path ≠ some .directory) :
    runCorpus settings files path =
      { notices :=
          match files.read? path with
          | none => [.loadFailed (.cannotOpen path)]
          | some content =>
            (if content.lines.countP (· ≠ []) = 0 then []
              else [.skippedLines (content.lines.countP (· ≠ []))]) ++ [.tooFewDocuments 0]
        report := none
        exitCode := 1 } := by
  rw [runCorpus, loadCorpus, readLines?_of_regular h]
  cases files.read? path <;> rfl

/-! ## Runs on source files -/

/-- A run on any other arguments, if there are some. -/
theorem run_of_sources (hargs : args ≠ []) (hcorpus : ¬ IsCorpusRun args) :
    run env files args = runSources (Settings.resolve env files) files args := by
  match args with
  | [] => exact absurd rfl hargs
  | [path] => exact if_neg fun h => hcorpus ⟨path, rfl, h⟩
  | _ :: _ :: _ => rfl

/-- A run that stops at the first source file that cannot be read. -/
theorem runSources_of_unreadable (hsettings : settings.extensions = ({} : Settings).extensions)
    (h : firstUnreadable? files ({} : Settings).extensions args = some path) :
    runSources settings files args =
      { notices := [.loadFailed (.cannotOpen path)], report := none, exitCode := 1 } := by
  rw [← hsettings] at h
  have hload := loadSources_of_firstUnreadable h {}
  rw [runSources]
  match hresult : loadSources files settings.extensions {} args, hload with
  | (_, some _), rfl => rfl

/-- A run on source files that can all be read. -/
theorem runSources_of_read (hsettings : settings.extensions = ({} : Settings).extensions)
    (h : List.Forall₂ (Document.IsRead files) (sources args) documents) :
    runSources settings files args =
      conclude settings ((others args).map Notice.unsupported) documents := by
  rw [sources, ← hsettings] at h
  rw [runSources, loadSources_of_read h, hsettings]
  rfl

/-- Two source files are no corpus and more than no argument. -/
theorem not_isCorpusRun_of_two_le (h : 2 ≤ (sources args).length) :
    args ≠ [] ∧ ¬ IsCorpusRun args := by
  have hle : (sources args).length ≤ args.length := List.length_filter_le _ _
  constructor
  · rintro rfl
    simp only [List.length_nil] at hle
    omega
  · rintro ⟨path, rfl, -⟩
    simp only [List.length_singleton] at hle
    omega

/-! ## How a run ends -/

/-- With too few documents a run ends without a report. -/
theorem conclude_of_few (notices : List Notice) (h : documents.length < 2) :
    conclude settings notices documents =
      { notices := notices ++ [.tooFewDocuments documents.length]
        report := none
        exitCode := 1 } :=
  if_pos h

/-- With two documents or more a run ends with a report. -/
theorem conclude_of_many (notices : List Notice) (h : 2 ≤ documents.length) :
    conclude settings notices documents =
      { notices := notices ++ [.compared (Report.ofDocuments settings documents) settings.threads]
        report := some (Report.ofDocuments settings documents)
        exitCode := 0 } :=
  if_neg (by omega)

/-- The end of a run sets the exit code by whether there is a report. -/
theorem exitCode_conclude (settings : Settings) (notices : List Notice)
    (documents : List Document) : (conclude settings notices documents).exitCode =
      if (conclude settings notices documents).report.isSome then 0 else 1 := by
  rcases Nat.lt_or_ge documents.length 2 with hfew | hmany
  · rw [conclude_of_few _ hfew]
    rfl
  · rw [conclude_of_many _ hmany]
    rfl

/-- **The exit code tells whether there is a report**, whichever way a run ends. -/
theorem exitCode_run (env : Environment) (files : FileSystem) (args : List Text) :
    (run env files args).exitCode = if (run env files args).report.isSome then 0 else 1 := by
  have hcorpus : ∀ settings path, (runCorpus settings files path).exitCode =
      if (runCorpus settings files path).report.isSome then 0 else 1 := by
    intro settings path
    rw [runCorpus]
    split
    · rfl
    · exact exitCode_conclude _ _ _
  have hsources : ∀ settings paths, (runSources settings files paths).exitCode =
      if (runSources settings files paths).report.isSome then 0 else 1 := by
    intro settings paths
    rw [runSources]
    split
    · rfl
    · exact exitCode_conclude _ _ _
  match args with
  | [] => rfl
  | [path] =>
    rw [run]
    split
    · exact hcorpus _ _
    · exact hsources _ _
  | _ :: _ :: _ => exact hsources _ _

/-- The number of flagged pairs is the number of flagged items. -/
theorem flagged_ofResults (settings : Settings) (documents : List Document)
    (results : List PairResult) :
    (Report.ofResults settings documents results).flagged =
      (Report.ofResults settings documents results).items.countP ReportItem.flagged := by
  simp only [Report.ofResults, List.countP_map]
  rfl

section Ends

variable (hregular : ∀ path ∈ args, files.entry? path ≠ some .directory)

include hregular

/-- A run on a corpus ends without a report. -/
theorem report_run_of_isCorpusRun (h : IsCorpusRun args) : (run env files args).report = none := by
  obtain ⟨path, rfl, hcorpus⟩ := h
  rw [run_of_corpus hcorpus, runCorpus_eq _ (hregular path List.mem_cons_self)]

/-- **A run ends with a report** exactly if there are two source files at least, counted with
repetition, and all of them can be read. -/
theorem isSome_report_run_iff :
    (run env files args).report.isSome ↔
      2 ≤ (sources args).length ∧ ∀ path ∈ sources args, (files.read? path).isSome := by
  have hextensions := extensions_resolve env files
  by_cases hargs : args = []
  · subst hargs
    simp [run, sources]
  by_cases hcorpus : IsCorpusRun args
  · have hmany : ¬ 2 ≤ (sources args).length := fun h => (not_isCorpusRun_of_two_le h).2 hcorpus
    simp [report_run_of_isCorpusRun hregular hcorpus, hmany]
  rw [run_of_sources hargs hcorpus]
  match hfirst : firstUnreadable? files ({} : Settings).extensions args with
  | some path =>
    have hunread : ¬ ∀ path ∈ sources args, (files.read? path).isSome := by
      intro hread
      rw [firstUnreadable?_eq_none_iff.2 hread] at hfirst
      exact absurd hfirst (Option.some_ne_none path).symm
    simp [runSources_of_unreadable hextensions hfirst, hunread]
  | none =>
    have hread := firstUnreadable?_eq_none_iff.1 hfirst
    obtain ⟨documents, hdocuments⟩ := exists_documents hread
    have hlength : (sources args).length = documents.length := hdocuments.length_eq
    rw [runSources_of_read hextensions hdocuments, hlength]
    rcases Nat.lt_or_ge documents.length 2 with hfew | hmany
    · rw [conclude_of_few _ hfew]
      exact ⟨fun h => absurd h Bool.false_ne_true, fun h => absurd h.1 (by omega)⟩
    · rw [conclude_of_many _ hmany]
      exact ⟨fun _ => ⟨hmany, hread⟩, fun _ => rfl⟩

/-- **A run with a report** says which documents it compared, and what it left out. -/
theorem reports_run (h : (run env files args).report.isSome) :
    (run env files args).Reports (Settings.resolve env files) files args := by
  obtain ⟨hmany, hread⟩ := (isSome_report_run_iff hregular).1 h
  obtain ⟨hargs, hcorpus⟩ := not_isCorpusRun_of_two_le hmany
  obtain ⟨documents, hdocuments⟩ := exists_documents hread
  have hlength : (sources args).length = documents.length := hdocuments.length_eq
  rw [run_of_sources hargs hcorpus,
    runSources_of_read (extensions_resolve env files) hdocuments,
    conclude_of_many _ (hlength ▸ hmany)]
  let settings := Settings.resolve env files
  let report := Report.ofDocuments settings documents
  refine ⟨documents, report, (Notice.compared report settings.threads).line, hdocuments, rfl, rfl,
    ?_, isSummedUp_line _ _, hlength.symm, (List.length_map _).symm, flagged_ofResults _ _ _⟩
  rw [Outcome.messages, List.flatMap_append, flatMap_line_unsupported, List.flatMap_singleton]

/-- What a run without a report says. -/
theorem explains_run : (run env files args).Explains files args where
  no_arguments := by
    rintro rfl
    rfl
  corpus_unreadable path hargs hcorpus hnone := by
    subst hargs
    rw [run_of_corpus hcorpus, runCorpus_eq _ (hregular path List.mem_cons_self), hnone]
    exact (List.append_nil _).trans (line_cannotOpen path)
  corpus_without_documents path content hargs hcorpus hsome := by
    subst hargs
    rw [run_of_corpus hcorpus, runCorpus_eq _ (hregular path List.mem_cons_self), hsome]
    have hnone : ofAscii "[pair_checker] need at least two documents (got 0)\n" =
        (Notice.tooFewDocuments 0).line := rfl
    rw [Outcome.messages, List.flatMap_append, List.flatMap_singleton, hnone, ← line_skippedLines]
    split
    · rfl
    · rw [List.flatMap_singleton]
  source_unreadable hcorpus path hfirst := by
    have hargs : args ≠ [] := by
      rintro rfl
      exact absurd hfirst (Option.some_ne_none path).symm
    rw [run_of_sources hargs hcorpus,
      runSources_of_unreadable (extensions_resolve env files) hfirst]
    exact (List.append_nil _).trans (line_cannotOpen path)
  too_few_sources hargs hcorpus hread hfew := by
    obtain ⟨documents, hdocuments⟩ := exists_documents hread
    have hlength : (sources args).length = documents.length := hdocuments.length_eq
    rw [run_of_sources hargs hcorpus,
      runSources_of_read (extensions_resolve env files) hdocuments,
      conclude_of_few _ (hlength ▸ hfew), ← hlength, Outcome.messages, List.flatMap_append,
      flatMap_line_unsupported, List.flatMap_singleton, line_tooFewDocuments]
    simp only [List.append_assoc]

end Ends

/-- **A run ends with a report or with an explanation**: the exit code is zero exactly if a report
is printed, which is the case exactly if there are two source files at least and all of them can
be read, and never on a corpus. -/
theorem run_reports_or_explains (env : Environment) (files : FileSystem) (args : List Text)
    (hregular : ∀ path ∈ args, files.entry? path ≠ some .directory) :
    let o := run env files args
    (o.exitCode = 0 ∨ o.exitCode = 1) ∧
      (o.report.isSome ↔ o.exitCode = 0) ∧
      (o.exitCode = 0 ↔
        2 ≤ (sources args).length ∧ ∀ path ∈ sources args, (files.read? path).isSome) ∧
      (IsCorpusRun args → o.exitCode = 1) ∧
      (o.exitCode = 0 → o.Reports (Settings.resolve env files) files args) ∧
      o.Explains files args := by
  intro o
  have hreport : o.report.isSome ↔ _ := isSome_report_run_iff hregular
  have hexit : o.exitCode = if o.report.isSome then 0 else 1 := exitCode_run env files args
  have hcode : o.exitCode = 0 ∨ o.exitCode = 1 := hexit ▸ ite_eq_or_eq _ _ _
  have hiff : o.report.isSome ↔ o.exitCode = 0 := by
    rw [hexit]
    cases o.report.isSome <;> decide
  refine ⟨hcode, hiff, hiff.symm.trans hreport, fun hcorpus => ?_, fun hzero => ?_,
    explains_run hregular⟩
  · refine hcode.resolve_left fun hzero => ?_
    rw [← hiff, show o.report = none from report_run_of_isCorpusRun hregular hcorpus] at hzero
    exact absurd hzero Bool.false_ne_true
  · exact reports_run hregular (hiff.2 hzero)

/-- The files, if there is only one. -/
def FileSystem.single (path content : Text) : FileSystem where
  entry? path' := if path' = path then some (.file content) else none

/-- A source file that is named twice, with another argument in between; and a source file that is
missing, behind another argument and one that is there. -/
theorem run_reports_or_explains_repeated :
    ((∀ path ∈ ["a.cpp", "notes.txt", "a.cpp"].map ofAscii,
        FileSystem.entry? (.single (ofAscii "a.cpp") (ofAscii "x;")) path ≠ some .directory) ∧
      (run {} (.single (ofAscii "a.cpp") (ofAscii "x;"))
        (["a.cpp", "notes.txt", "a.cpp"].map ofAscii)).exitCode = 0 ∧
      ∃ report : Report, report.documents = 2 ∧ report.pairs = report.items.length ∧
        report.IsSummedUp {} (ofAscii
          "[pair_checker] compared docs=2 pairs=1 flagged=0 threshold=0.7 threads=1\n")) ∧
    (∀ path ∈ ["notes.txt", "a.cpp", "b.h"].map ofAscii,
        FileSystem.entry? (.single (ofAscii "a.cpp") (ofAscii "x;")) path ≠ some .directory) ∧
      (run {} (.single (ofAscii "a.cpp") (ofAscii "x;"))
        (["notes.txt", "a.cpp", "b.h"].map ofAscii)).messages =
          ofAscii "[pair_checker] cannot open b.h\n" := by
  have hregular : ∀ path ∈ ["a.cpp", "notes.txt", "a.cpp"].map ofAscii,
      FileSystem.entry? (.single (ofAscii "a.cpp") (ofAscii "x;")) path ≠ some .directory := by
    decide +kernel
  have hregular' : ∀ path ∈ ["notes.txt", "a.cpp", "b.h"].map ofAscii,
      FileSystem.entry? (.single (ofAscii "a.cpp") (ofAscii "x;")) path ≠ some .directory := by
    decide +kernel
  obtain ⟨-, -, hzero, -, hreports, -⟩ := run_reports_or_explains {} _ _ hregular
  obtain ⟨-, -, -, -, -, hexplains⟩ := run_reports_or_explains {} _ _ hregular'
  have hexit := hzero.2 ⟨by decide +kernel, by decide +kernel⟩
  have hcorpus : ¬ IsCorpusRun (["notes.txt", "a.cpp", "b.h"].map ofAscii) := by
    rintro ⟨path, hargs, -⟩
    simp at hargs
  refine ⟨⟨hregular, hexit, ?_⟩, hregular',
    hexplains.source_unreadable hcorpus (ofAscii "b.h") (by decide +kernel)⟩
  obtain ⟨documents, report, summary, -, -, -, hmessages, hsummary, hlength, hpairs, -⟩ :=
    hreports hexit
  have hall : (run {} (.single (ofAscii "a.cpp") (ofAscii "x;"))
      (["a.cpp", "notes.txt", "a.cpp"].map ofAscii)).messages =
        (others (["a.cpp", "notes.txt", "a.cpp"].map ofAscii)).flatMap (fun path =>
          ofAscii "[pair_checker] unsupported file type, skipped: " ++ path ++ ofAscii "\n") ++
        ofAscii "[pair_checker] compared docs=2 pairs=1 flagged=0 threshold=0.7 threads=1\n" := by
    decide +kernel
  obtain rfl := List.append_cancel_left (hmessages.symm.trans hall)
  have hsettings : Settings.resolve {} (.single (ofAscii "a.cpp") (ofAscii "x;")) = {} := by
    decide +kernel
  rw [hsettings] at hsummary
  exact ⟨report, hlength, hpairs, hsummary⟩

end CodeSimilarity
