import SchemaCatalog.Check.Basic

/-!
# Reports as JSON
-/

namespace SchemaCatalog.Check

/-- The name of a severity. -/
def Severity.name : Severity → String
  | .error => "error"
  | .warning => "warning"

/-- The name of a judgement. -/
def Status.name : Status → String
  | .ok => "ok"
  | .error => "error"
  | .warning => "warning"

/-- A number as JSON. -/
def encodeNat (n : Nat) : Json := .number (.whole n)

/-- The value of a diagnostic in a file. -/
def Diagnostic.encode (file : String) (d : Diagnostic) : Json :=
  .object [
    ("severity", .string d.severity.name),
    ("code", .string d.finding.code),
    ("file", .string file),
    ("path", .string (pointerText d.path)),
    ("message", .string d.finding.message)]

/-- The value of the result of a document; without diagnostics there is no member for them. -/
def FileResult.encode (r : FileResult) : Json :=
  .object ([("file", .string r.file), ("status", .string r.status.name)] ++
    if r.diagnostics.isEmpty then []
    else [("diagnostics", .array (r.diagnostics.map (Diagnostic.encode r.file)))])

/-- The value of a report. -/
def Report.encode (r : Report) : Json :=
  .object [
    ("base_uri", .string r.base.text),
    ("files_checked", encodeNat r.filesChecked),
    ("passed", encodeNat r.passed),
    ("failed", encodeNat r.failed),
    ("errors", encodeNat r.errors),
    ("warnings", encodeNat r.warnings),
    ("results", .array (r.results.map FileResult.encode))]

end SchemaCatalog.Check
