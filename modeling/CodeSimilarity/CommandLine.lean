import CodeSimilarity.Binary64.Writing
import CodeSimilarity.Report

set_option autoImplicit false
set_option relaxedAutoImplicit false

/-!
# The command line

The program is given source files, or one corpus file, and prints the report on all pairs of
their documents.

## Main definitions

* `Notice` — the lines for the error output.
* `Outcome` — what a run leads to: messages, a report, an exit code.
* `run` — a run of the program.
-/

namespace CodeSimilarity

/-- What the program says besides its report. -/
inductive Notice where
  /-- No argument was given. -/
  | usage
  /-- The documents could not be loaded. -/
  | loadFailed (error : LoadError)
  /-- Some lines of a corpus were skipped. -/
  | skippedLines (count : Nat)
  /-- A path has none of the accepted endings. -/
  | unsupported (path : Text)
  /-- There are too few documents to compare. -/
  | tooFewDocuments (count : Nat)
  /-- The documents were compared. -/
  | compared (report : Report) (threads : Int)

/-- The wording of a notice that stands under the program's name. -/
def Notice.wording : Notice → Text
  | .usage => []
  | .loadFailed e => e.message
  | .skippedLines count =>
    Text.ofAscii "skipped " ++ Text.ofNat 10 count ++ Text.ofAscii " malformed corpus lines"
  | .unsupported path => Text.ofAscii "unsupported file type, skipped: " ++ path
  | .tooFewDocuments count =>
    Text.ofAscii "need at least two documents (got " ++ Text.ofNat 10 count ++ Text.ofAscii ")"
  | .compared report threads =>
    Text.ofAscii "compared docs=" ++ Text.ofNat 10 report.documents ++
      Text.ofAscii " pairs=" ++ Text.ofNat 10 report.pairs ++
      Text.ofAscii " flagged=" ++ Text.ofNat 10 report.flagged ++
      Text.ofAscii " threshold=" ++ report.threshold.general 6 ++
      Text.ofAscii " threads=" ++ Text.ofInt 10 threads

/-- A notice as one line. -/
def Notice.line : Notice → Text
  | .usage => Text.ofAscii "Usage: pair_checker <source_file>... | <corpus_jsonl>\n"
  | notice => Text.ofAscii "[pair_checker] " ++ notice.wording ++ [Byte.newline]

/-- What a run leads to. -/
structure Outcome where
  /-- What is said on the error output, in order. -/
  notices : List Notice
  /-- The report on the standard output. -/
  report : Option Report
  /-- The exit code. -/
  exitCode : Nat

/-- The text on the error output. -/
def Outcome.messages (o : Outcome) : Text :=
  o.notices.flatMap Notice.line

/-- The end of a run, after some notices about loading: a report if there are two documents. -/
def conclude (settings : Settings) (notices : List Notice) (documents : List Document) :
    Outcome :=
  if documents.length < 2 then
    { notices := notices ++ [.tooFewDocuments documents.length], report := none, exitCode := 1 }
  else
    let report := Report.ofDocuments settings documents
    { notices := notices ++ [.compared report settings.threads]
      report := some report
      exitCode := 0 }

/-- A run on one corpus file. -/
def runCorpus (settings : Settings) (files : FileSystem) (path : Text) : Outcome :=
  match loadCorpus files path with
  | .error e => { notices := [.loadFailed e], report := none, exitCode := 1 }
  | .ok corpus =>
    conclude settings (if corpus.skipped = 0 then [] else [.skippedLines corpus.skipped])
      corpus.documents

/-- A run on source files. -/
def runSources (settings : Settings) (files : FileSystem) (paths : List Text) : Outcome :=
  match loadSources files settings.extensions {} paths with
  | (_, some e) => { notices := [.loadFailed e], report := none, exitCode := 1 }
  | (loaded, none) => conclude settings (loaded.rejected.map .unsupported) loaded.documents

/-- A run of the program with some arguments. A lone argument that ends like a corpus file names
a corpus; any other arguments name source files. -/
def run (env : Environment) (files : FileSystem) (args : List Text) : Outcome :=
  match args with
  | [] => { notices := [.usage], report := none, exitCode := 1 }
  | [path] =>
    let settings := Settings.resolve env files
    if (Text.ofAscii ".jsonl").isSuffixOf path then runCorpus settings files path
    else runSources settings files [path]
  | paths => runSources (Settings.resolve env files) files paths

end CodeSimilarity
