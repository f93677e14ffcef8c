import SchemaCatalog.Address.Parser
import SchemaCatalog.NameOrder

/-!
# Corpora

A corpus is the set of documents of one run, as raw bytes, each under a name and at the address
that the name has beneath the base of the corpus. The documents are kept in strict order of their
names, so a name occurs once and the order in which documents came does not show. A document
belongs to the category that the first directory of its name names.
-/

namespace SchemaCatalog

/-- How a corpus is read: where it lies and what its files are called. -/
structure Options where
  /-- The base of the corpus, if it is not the place its files lie in. -/
  base : Option Address := none
  /-- The name of the files that list methods. -/
  methodsFile : String := "methods.json"
  /-- The name of the file that lists errors. -/
  errorsFile : String := "errors.json"
  /-- The names of files that are no schemas. -/
  excluded : List String := ["composer.json", "package.json", "schema.json"]

/-- The options with more file names excluded. -/
def Options.exclude (o : Options) (names : List String) : Options :=
  { o with excluded := o.excluded ++ names }

/-- Whether a file name is excluded. -/
def Options.isExcluded (o : Options) (name : String) : Bool := name ∈ o.excluded

/-- Why documents cannot be loaded. -/
inductive LoadError where
  /-- There is no such file. -/
  | notFound (path : String)
  /-- The file cannot be read, for the given reason. -/
  | unreadable (path reason : String)
  /-- A text is no address of a document. -/
  | invalidBase (text : String)
  deriving DecidableEq, Repr

namespace LoadError

/-- The text of an error. -/
def message : LoadError → String
  | .notFound path => "file not found: " ++ path
  | .unreadable path reason => "cannot read " ++ path ++ ": " ++ reason
  | .invalidBase text => "invalid base URI \"" ++ text ++ "\""

/-- The exit code of a program that fails with an error. -/
def exitCode : LoadError → Nat
  | .invalidBase _ => 2
  | _ => 3

end LoadError

/-- A document of a corpus. -/
structure Document where
  /-- The path beneath the base. -/
  name : String
  address : Address
  content : ByteArray

namespace Document

/-- The first directory of the name, if there is one. -/
def category? (d : Document) : Option String :=
  let cs := d.name.toList
  if '/' ∈ cs then some (String.ofList (cs.takeWhile (· != '/'))) else none

/-- The part of the name behind its last slash. -/
def fileName (d : Document) : String :=
  String.ofList (d.name.toList.reverse.takeWhile (· != '/')).reverse

end Document

/-- Documents beneath a base, in order of their names. -/
structure Corpus where
  /-- The address of the directory of all documents. -/
  base : Address
  documents : List Document

namespace Corpus

/-- The corpus without documents at a base. -/
def empty (base : Address) : Corpus := ⟨base.asDirectory, []⟩

/-- A program over a corpus that may fail. -/
abbrev Filling := ExceptT LoadError (StateM Corpus)

/-- Put a document into the corpus; it takes the place of one of its name. -/
def put (name : String) (content : ByteArray) : Filling Unit := do
  let c ← get
  match c.base.join name with
  | .error _ => throw (.invalidBase (c.base.text ++ name))
  | .ok address =>
    set { c with documents := NameOrder.put Document.name ⟨name, address, content⟩ c.documents }

/-- The corpus with a document in it. -/
def insert (c : Corpus) (name : String) (content : ByteArray) : Except LoadError Corpus :=
  match (put name content).run.run c with
  | (.ok (), c) => .ok c
  | (.error e, _) => .error e

/-- The document of a name. -/
def get? (c : Corpus) (name : String) : Option Document := c.documents.find? (·.name == name)

end Corpus

end SchemaCatalog
