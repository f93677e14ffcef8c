import SchemaCatalog.Corpus.Basic
import SchemaCatalog.FileTree

/-!
# Loading corpora

The corpus at a path holds every file beneath it whose name ends in `.json`, excluded names
aside; if the path is that of a file, the corpus holds this file and lies in its directory.
A file name that is nothing but an extension has none.
-/

namespace SchemaCatalog

namespace FileTree

/-- Whether a file name has the extension `.json`. -/
def isJsonName (name : String) : Bool :=
  let cs := name.toList
  let stem := (cs.reverse.dropWhile (· != '.')).reverse.dropLast
  !stem.isEmpty && (cs.reverse.takeWhile (· != '.')).reverse == "json".toList

mutual

/-- The files beneath a tree that is found under the given names. -/
def jsonFiles (names : List String) : FileTree → List (List String × ByteArray)
  | .file content =>
    if (names.getLast?.map isJsonName).getD false then [(names, content)] else []
  | .directory entries => entryFiles names entries

/-- The files beneath the entries of a directory. -/
def entryFiles (names : List String) :
    List (String × FileTree) → List (List String × ByteArray)
  | [] => []
  | (name, child) :: entries => jsonFiles (names ++ [name]) child ++ entryFiles names entries

end

end FileTree

namespace Corpus

/-- The corpus with files, named from its directory, that are not excluded. -/
def insertFiles (o : Options) (c : Corpus) :
    List (List String × ByteArray) → Except LoadError Corpus
  | [] => .ok c
  | (names, content) :: files =>
    if o.isExcluded (names.getLast?.getD "") then insertFiles o c files
    else do insertFiles o (← c.insert ("/".intercalate names) content) files

/-- The corpus of the files at a place. -/
def ofTrail (root : FileTree) (o : Options) (trail : FileTree.Trail) : Except LoadError Corpus :=
  match trail.here root with
  | .file content =>
    let base := o.base.getD (FileTree.directoryAddress trail.names.dropLast)
    insertFiles o (empty base) [([trail.names.getLast?.getD ""], content)]
  | .directory entries =>
    let base := o.base.getD (FileTree.directoryAddress trail.names)
    insertFiles o (empty base) (FileTree.entryFiles [] entries)

/-- The corpus at a path. -/
def load (root : FileTree) (current : List String) (path : String) (o : Options) :
    Except LoadError Corpus :=
  match root.locate current path with
  | .ok trail => ofTrail root o trail
  | .error _ => .error (.notFound path)

end Corpus

/-- The content of the file at a path, or why there is none. -/
def FileTree.documentAt (root : FileTree) (current : List String) (path : String) :
    Except LoadError ByteArray :=
  match root.locate current path with
  | .error _ => .error (.notFound path)
  | .ok _ =>
    match root.read current path with
    | .ok content => .ok content
    | .error f => .error (.unreadable path f.message)

end SchemaCatalog
