import SchemaCatalog.Api.Catalog
import SchemaCatalog.Check.Walk

/-!
# Checking a corpus

The check of a corpus goes on where a run would stop: every document is judged, and each finding
has a place. A document that is no schema has that finding alone. In all others the references
are looked up one by one where they stand; only if all of them lead somewhere, and the document
resolves as a whole, its resolved form is walked for properties of one name, for enumerations
that do not count because their names do not match, and, in a catalog of methods, for names
without a category.
-/

namespace SchemaCatalog.Check

/-- How bad a finding is. -/
inductive Severity where
  /-- The document is wrong. -/
  | error
  /-- The document says something without effect. -/
  | warning
  deriving DecidableEq, Repr

/-- What is wrong with a document. -/
inductive Finding where
  /-- It is no schema. -/
  | undecodable (cause : DecodeError)
  /-- A reference leads nowhere. -/
  | unresolved (cause : ResolveError)
  /-- Properties of one object share names. -/
  | duplicateProperties (names : List String)
  /-- There are not as many names as values of an enumeration. -/
  | unmatchedNames (values names : Nat)
  /-- The name of a method has no category. -/
  | uncategorized (method : String)
  deriving DecidableEq, Repr

namespace Finding

/-- How bad a finding is. -/
def severity : Finding → Severity
  | .undecodable _ | .unresolved _ | .duplicateProperties _ => .error
  | .unmatchedNames .. | .uncategorized _ => .warning

/-- The code of a kind of finding. -/
def code : Finding → String
  | .undecodable _ => "E001"
  | .unresolved _ => "E002"
  | .duplicateProperties _ => "E003"
  | .unmatchedNames .. => "W001"
  | .uncategorized _ => "W002"

/-- The text of a finding. -/
def message : Finding → String
  | .undecodable cause => "decode error: " ++ cause.message
  | .unresolved cause => cause.message
  | .duplicateProperties names => (ProjectError.duplicateProperty names).message
  | .unmatchedNames values names =>
    "enum has " ++ toString values ++ " values but enumNames has " ++ toString names ++
      " names; both are ignored"
  | .uncategorized method => "method name \"" ++ method ++ "\" has no category prefix"

end Finding

/-- A finding and the path of the node it is about. -/
structure Diagnostic where
  /-- The path from the root of the document. -/
  path : List String
  finding : Finding
  deriving DecidableEq, Repr

/-- How bad a diagnostic is. -/
def Diagnostic.severity (d : Diagnostic) : Severity := d.finding.severity

/-- The judgement on a document. -/
inductive Status where
  | ok
  | error
  /-- Warnings and no errors were found. -/
  | warning
  deriving DecidableEq, Repr

/-- What was found in one document. -/
structure FileResult where
  file : String
  /-- What was found, in order. -/
  diagnostics : List Diagnostic

namespace FileResult

/-- The number of diagnostics of a severity. -/
def count (r : FileResult) (s : Severity) : Nat := r.diagnostics.countP (·.severity == s)

/-- The worst of what was found. -/
def status (r : FileResult) : Status :=
  if r.diagnostics.any (·.severity == .error) then .error
  else if r.diagnostics.any (·.severity == .warning) then .warning
  else .ok

/-- Whether the document fails; where the check is strict, warnings fail it too. -/
def fails (strict : Bool) (r : FileResult) : Bool :=
  if strict then r.status != .ok else r.status == .error

end FileResult

/-- What was found in a corpus. -/
structure Report where
  base : Address
  filesChecked : Nat
  passed : Nat
  failed : Nat
  errors : Nat
  warnings : Nat
  /-- The documents in the order of the corpus. -/
  results : List FileResult

namespace Report

/-- Whether no document has errors. -/
def isOk (r : Report) : Bool := r.errors == 0

/-- The exit code: zero if the corpus passes; where the check is strict, warnings fail it. -/
def exitCode (r : Report) (strict : Bool) : Nat :=
  if r.isOk && (!strict || r.warnings == 0) then 0 else 1

/-- The number of diagnostics of a severity over all documents. -/
def total (results : List FileResult) (s : Severity) : Nat :=
  (results.flatMap (·.diagnostics)).countP (·.severity == s)

/-- The report of results. -/
def ofResults (base : Address) (strict : Bool) (results : List FileResult) : Report :=
  let failed := results.countP (FileResult.fails strict)
  { base, results, failed
    filesChecked := results.length
    passed := results.length - failed
    errors := total results .error
    warnings := total results .warning }

end Report

/-! ## Findings in one node -/

/-- Names shared by properties, and names shared by pattern properties, a list for each. -/
def duplicates (n : Node) : List (List String) :=
  [KeyedKind.properties, KeyedKind.patternProperties].filterMap fun kind =>
    match Node.repeatedNames (OrderedMap.keys (n.entries kind)) with
    | [] => none
    | names => some names

/-- The numbers of values and of names of an enumeration, if they differ. -/
def unmatched? (n : Node) : Option (Nat × Nat) := do
  let values ← n.declaredValues?
  let names ← n.declaredNames?
  if values.length ≠ names.length then some (values.length, names.length) else none

/-- The names of methods of a node that have no dot. -/
def uncategorized (n : Node) : List String :=
  (OrderedMap.keys (n.entries .methods)).filter fun name => !name.toList.contains '.'

/-- What is wrong with a node of a resolved document; `catalog` says whether the document lists
methods. -/
def judge (catalog : Bool) (n : Node) (path : List String) : List Diagnostic :=
  (duplicates n).map (fun names => ⟨path, .duplicateProperties names⟩) ++
    (unmatched? n).toList.map (fun (values, names) => ⟨path, .unmatchedNames values names⟩) ++
    (if catalog && path.isEmpty then
      (uncategorized n).map fun name => ⟨["methods", name], .uncategorized name⟩
    else [])

/-! ## Documents -/

/-- A program over a resolver. -/
abbrev Checking := StateM Resolver

/-- Look a reference up; the result is what is wrong with it. -/
def reference (current : Address) (text : String) : Checking (Option ResolveError) := do
  let x : Resolution Unit := do
    let target ← Resolution.ofExcept (current.target text)
    let fragment ← Resolution.ofExcept target.fragmentText
    let _ ← Resolution.lift (Registry.lookup target.withoutFragment fragment)
  match ← x.run with
  | .ok _ => return none
  | .error e => return some e

/-- The broken references of a raw document, each with the path of its node. -/
def references (current : Address) (raw : Node) : Checking (List Diagnostic) := do
  let found ← raw.visits.mapM fun (n, path) => do
    let faults ← n.references.mapM (reference current)
    return (faults.filterMap id).map fun e => (⟨path, .unresolved e⟩ : Diagnostic)
  return found.flatten

/-- What is wrong with a document that is a schema. -/
def document (limit : Nat) (o : Options) (d : Document) (raw : Node) :
    Checking (List Diagnostic) := do
  match ← references d.address raw with
  | [] =>
    match ← (Resolution.document limit d.address : Resolution Node).run with
    | .error e => return [⟨[], .unresolved e⟩]
    | .ok n =>
      let catalog := d.fileName == o.methodsFile
      return n.visits.flatMap fun (n, path) => judge catalog n path
  | broken => return broken

/-- A document, decoded and registered, or the reason why it is no schema. -/
def decode (d : Document) : Checking (Document × Except DecodeError Node) :=
  match Node.ofBytes d.content with
  | .error e => return (d, .error e)
  | .ok n => do
    let n ← modifyGet fun s =>
      let (n, r) := s.registry.register d.address n
      (n, s.withRegistry r)
    return (d, .ok n)

/-- What is wrong with a document after decoding. -/
def result (limit : Nat) (o : Options) (d : Document × Except DecodeError Node) :
    Checking FileResult := do
  match d.2 with
  | .error e => return ⟨d.1.name, [⟨[], .undecodable e⟩]⟩
  | .ok n => return ⟨d.1.name, ← document limit o d.1 n⟩

/-- The check of a corpus. All documents are registered before any reference is followed. -/
def corpus (limit : Nat) (c : Corpus) (o : Options) (strict : Bool) : Checking Report := do
  let docs ← c.documents.mapM decode
  let results ← docs.mapM (result limit o)
  return Report.ofResults c.base strict results

end SchemaCatalog.Check
