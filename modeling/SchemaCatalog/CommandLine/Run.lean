import SchemaCatalog.Api.Encode
import SchemaCatalog.Check.Encode
import SchemaCatalog.CommandLine.Arguments
import SchemaCatalog.Corpus.Load
import SchemaCatalog.Json.Writer
import SchemaCatalog.Schema.Encode

/-!
# Running commands

A command runs on a file tree and answers with what a process shows: an exit code, lines for the
standard output, lines for the standard error, and the file it wrote. Documents outside of the
corpus are read from the same tree by their addresses.

Each command is a program that stops with a `Stop`, the exit code and the line that says why.
-/

namespace SchemaCatalog.CommandLine

/-- The end of a program that fails. -/
structure Stop where
  code : Nat
  /-- The line for the standard error. -/
  line : String
  deriving DecidableEq, Repr

/-- What a program shows. -/
structure Outcome where
  exit : Nat
  stdout : String := ""
  stderr : String := ""
  /-- The file written, by path, with its content. -/
  written : Option (String × String) := none
  /-- The addresses of documents asked for outside of the corpus. -/
  requested : List Address := []

/-- The files a program sees, and the directory it runs in. -/
structure World where
  root : FileTree
  current : List String

/-- The options of a corpus. -/
def CorpusArguments.options (a : CorpusArguments) : Except Stop Options :=
  let options : Options := { methodsFile := a.methodsFile, errorsFile := a.errorsFile }
  let options := options.exclude a.exclude
  match a.base with
  | none => .ok options
  | some text =>
    match Address.parse text with
    | .ok base => .ok { options with base := some base }
    | .error e =>
      .error ⟨2, "Error: invalid base URI \"" ++ text ++ "\": " ++ e.message⟩

/-- The corpus of the arguments. -/
def World.corpus (w : World) (a : CorpusArguments) (o : Options) : Except Stop Corpus :=
  match Corpus.load w.root w.current a.path o with
  | .ok c => .ok c
  | .error e => .error ⟨e.exitCode, "Error: " ++ e.message⟩

/-- A resolver that reads documents outside of the corpus from files. -/
def World.resolver (w : World) : Resolver :=
  .ofRegistry (.withSource w.root.readAddress)

/-- The result of a run, with the addresses asked for. -/
def World.run {α : Type} (w : World) (x : Run α) : Except Stop α × List Address :=
  let (result, s) := x.run.run w.resolver
  (match result with
    | .ok a => .ok a
    | .error e => .error ⟨e.exitCode, "Error: " ++ e.message⟩,
   s.registry.requested)

/-- Write a value where it belongs. -/
def World.write (w : World) (o : OutputArguments) (v : Json) : Outcome :=
  let text := if o.pretty then v.pretty else v.compact
  match o.output with
  | none => { exit := 0, stdout := text ++ "\n" }
  | some path =>
    match w.root.write w.current path text.toUTF8 with
    | .ok _ => { exit := 0, written := some (path, text) }
    | .error f =>
      { exit := 3, stderr := "Error writing to " ++ path ++ ": " ++ f.message ++ "\n" }

/-- The outcome of a program that ends with a value or stops. -/
def finish (x : Except Stop Outcome) (requested : List Address) : Outcome :=
  match x with
  | .ok o => { o with requested }
  | .error s => { exit := s.code, stderr := s.line ++ "\n", requested }

/-- Write the model of a corpus. -/
def World.parse (w : World) (a : CorpusArguments) (output : OutputArguments) : Outcome :=
  match (do let o ← a.options; return (o, ← w.corpus a o) : Except Stop (Options × Corpus)) with
  | .error s => finish (.error s) []
  | .ok (o, c) =>
    let (result, requested) := w.run (Api.ofCorpus Resolution.defaultLimit c o)
    finish ((fun api => w.write output api.encode) <$> result) requested

/-- The value of a resolved document. -/
def encodeDocument (d : Document × Node) : Except Stop Json :=
  match d.2.encode with
  | .ok v => .ok v
  | .error e => .error ⟨2, "Error: cannot encode " ++ d.1.name ++ ": " ++ e.message⟩

/-- The value of one resolved document or of all by name. -/
def encodeDocuments (document : Option String) (docs : List (Document × Node)) :
    Except Stop Json :=
  match document with
  | some name =>
    match docs.find? (·.1.name == name) with
    | some d => encodeDocument d
    | none => .error ⟨2, "Error: document not in corpus: " ++ name⟩
  | none => .object <$> docs.mapM fun d => (fun v => (d.1.name, v)) <$> encodeDocument d

/-- Write the resolved documents of a corpus. -/
def World.resolve (w : World) (a : CorpusArguments) (document : Option String)
    (output : OutputArguments) : Outcome :=
  match (do w.corpus a (← a.options) : Except Stop Corpus) with
  | .error s => finish (.error s) []
  | .ok c =>
    let (result, requested) := w.run (c.resolve Resolution.defaultLimit)
    finish (w.write output <$> (result >>= encodeDocuments document)) requested

/-! ## Reports for readers -/

/-- A text in a color of a terminal. -/
def colored (color text : String) : String := "\x1b[" ++ color ++ "m" ++ text ++ "\x1b[0m"

/-- The sign of a judgement. -/
def statusSign : Check.Status → String
  | .ok => colored "32" "✓"
  | .warning => colored "33" "⚠"
  | .error => colored "31" "✗"

/-- The line of a diagnostic. -/
def diagnosticLine (d : Check.Diagnostic) : String :=
  let label := match d.severity with
    | .error => colored "31" ("error[" ++ d.finding.code ++ "]")
    | .warning => colored "33" ("warning[" ++ d.finding.code ++ "]")
  "    " ++ label ++ ": " ++ pointerText d.path ++ " - " ++ d.finding.message

/-- The lines of a document; where little is wanted, those about nothing but warnings and about
documents that are fine are left out. -/
def resultLines (quiet : Bool) (r : Check.FileResult) : List String :=
  (if !quiet || r.status != .ok then ["  " ++ statusSign r.status ++ " " ++ r.file] else []) ++
    (r.diagnostics.filter fun d => !quiet || d.severity == .error).map diagnosticLine

/-- The last line of a report. -/
def summaryLine (r : Check.Report) (strict : Bool) : String :=
  if r.exitCode strict = 0 then
    colored "32" ("✓ " ++ toString r.filesChecked ++ " files checked, all passed")
  else
    colored "31" ("✗ " ++ toString r.filesChecked ++ " files checked: " ++ toString r.passed ++
      " passed, " ++ toString r.failed ++ " failed (" ++ toString r.errors ++ " errors, " ++
      toString r.warnings ++ " warnings)")

/-- The lines of a report. -/
def reportLines (path : String) (strict quiet : Bool) (r : Check.Report) : List String :=
  (if quiet then [] else ["Checking " ++ path ++ " ...", ""]) ++
    r.results.flatMap (resultLines quiet) ++ ["", summaryLine r strict]

/-- Write what is wrong with a corpus. -/
def World.check (w : World) (a : CorpusArguments) (format : String) (strict quiet : Bool) :
    Outcome :=
  match (do let o ← a.options; return (o, ← w.corpus a o) : Except Stop (Options × Corpus)) with
  | .error s => finish (.error s) []
  | .ok (o, c) =>
    let (report, s) := (Check.corpus Resolution.defaultLimit c o strict).run w.resolver
    let stdout :=
      if format = "json" then report.encode.pretty ++ "\n"
      else String.join ((reportLines a.path strict quiet report).map (· ++ "\n"))
    { exit := report.exitCode strict, stdout, requested := s.registry.requested }

/-- How the program is used. -/
def usageText : String :=
  "Usage: schema-catalog [-v] parse|resolve|check PATH [OPTIONS]\n"

/-- The version of the program. -/
def versionText : String := "schema-catalog 0.1.0\n"

/-- Run a command. -/
def World.runCommand (w : World) : Command → Outcome
  | .parse a output => w.parse a output
  | .resolve a document output => w.resolve a document output
  | .check a format strict quiet => w.check a format strict quiet

/-- Run a command line. -/
def World.runArguments (w : World) (args : List String) : Outcome :=
  match Command.ofArguments args with
  | .ok c => w.runCommand c
  | .error .wrong => { exit := 2, stderr := usageText }
  | .error .help => { exit := 0, stdout := usageText }
  | .error .version => { exit := 0, stdout := versionText }

end SchemaCatalog.CommandLine
