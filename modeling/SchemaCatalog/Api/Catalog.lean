import SchemaCatalog.Api.Projection
import SchemaCatalog.Corpus.Basic
import SchemaCatalog.Resolver

/-!
# The API of a corpus

All documents of a corpus are decoded and registered, then resolved one by one in one run of a
resolver, so that targets are shared between documents. The model is collected from the resolved
documents: every document in a directory opens the category of that directory, and one that has
the name of method catalogs adds its methods to it; the first document that has the name of the
error catalog gives the errors. A method name may come once in the whole corpus.
-/

namespace SchemaCatalog

/-- Why a corpus has no model. -/
inductive ParseError where
  | load (cause : LoadError)
  /-- A document is no schema. -/
  | decode (document : String) (cause : DecodeError)
  | resolve (cause : ResolveError)
  /-- A document has no projection. -/
  | project (document : String) (cause : ProjectError)
  deriving DecidableEq, Repr

namespace ParseError

/-- The text of an error. -/
def message : ParseError → String
  | .load cause => cause.message
  | .decode document cause => "cannot decode " ++ document ++ ": " ++ cause.message
  | .resolve cause => cause.message
  | .project document cause => "cannot project " ++ document ++ ": " ++ cause.message

/-- The exit code of a program that fails with an error. -/
def exitCode : ParseError → Nat
  | .load cause => cause.exitCode
  | _ => 2

end ParseError

/-- A program over a resolver that may fail as a whole. -/
abbrev Run := ExceptT ParseError (StateM Resolver)

namespace Run

/-- A resolution as part of a run. -/
def resolve {α : Type} (x : Resolution α) : Run α :=
  ExceptT.mk do
    match ← x.run with
    | .ok a => return .ok a
    | .error e => return .error (.resolve e)

/-- A result without state. -/
def ofExcept {α : Type} (x : Except ParseError α) : Run α := ExceptT.mk (pure x)

end Run

/-- The registry with decoded documents. -/
def Registry.registerAll (r : Registry) (docs : List (Document × Node)) : Registry :=
  docs.foldl (fun r d => (r.register d.1.address d.2).2) r

/-- The schema of a document. -/
def Document.decode (d : Document) : Except ParseError (Document × Node) :=
  match Node.ofBytes d.content with
  | .ok n => .ok (d, n)
  | .error e => .error (.decode d.name e)

/-- The documents of a corpus with their schemas, resolved, in order. -/
def Corpus.resolve (limit : Nat) (c : Corpus) : Run (List (Document × Node)) := do
  let docs ← Run.ofExcept (c.documents.mapM Document.decode)
  modify fun s => s.withRegistry (s.registry.registerAll docs)
  c.documents.mapM fun d => do
    return (d, ← Run.resolve (Resolution.document limit d.address))

namespace Api

/-- What is collected from the documents of a corpus one after the other. -/
structure Collected where
  categories : OrderedMap String Category := []
  /-- The names of all methods so far, whatever their category. -/
  names : List String := []

/-- One more method in a category, under a name that no method has so far. -/
def addMethod (document category : String) (c : Collected) (m : String × Method) :
    Except ParseError Collected :=
  if m.1 ∈ c.names then
    .error (.project document (.duplicateMethod m.1))
  else
    let methods := (OrderedMap.get? c.categories category).getD []
    .ok {
      categories := OrderedMap.insert c.categories category (OrderedMap.insert methods m.1 m.2)
      names := m.1 :: c.names }

/-- A category with the methods it has, be they none. -/
def Collected.openCategory (c : Collected) (category : String) : Collected :=
  let methods := (OrderedMap.get? c.categories category).getD []
  { c with categories := OrderedMap.insert c.categories category methods }

/-- What has been collected once a resolved document has added to it. -/
def addDocument (o : Options) (c : Collected) (d : Document × Node) :
    Except ParseError Collected :=
  match d.1.category? with
  | none => .ok c
  | some category =>
    let c := c.openCategory category
    if d.1.fileName ≠ o.methodsFile then .ok c
    else
      match d.2.methodCatalog with
      | .error e => .error (.project d.1.name e)
      | .ok catalog => catalog.foldlM (addMethod d.1.name category) c

/-- The errors of the first document that has the name of the error catalog. -/
def errorsOf (o : Options) (docs : List (Document × Node)) :
    Except ParseError (OrderedMap String Error) :=
  match docs.find? fun d => d.1.fileName == o.errorsFile with
  | none => .ok []
  | some d =>
    match d.2.errorCatalog with
    | .ok errors => .ok errors
    | .error e => .error (.project d.1.name e)

/-- The model of resolved documents. -/
def ofDocuments (o : Options) (docs : List (Document × Node)) : Except ParseError Api := do
  let collected ← docs.foldlM (addDocument o) {}
  let errors ← errorsOf o docs
  return ⟨collected.categories, errors⟩

/-- The model of a corpus. -/
def ofCorpus (limit : Nat) (c : Corpus) (o : Options) : Run Api := do
  let docs ← c.resolve limit
  Run.ofExcept (ofDocuments o docs)

end Api

end SchemaCatalog
