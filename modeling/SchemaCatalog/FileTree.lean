import SchemaCatalog.Address.Parser
import SchemaCatalog.NameOrder
import SchemaCatalog.OrderedMap

/-!
# File trees

A file system as a value: a tree whose inner nodes are directories and whose leaves are files
with their content. The entries of a directory stand in the order of their names. A path is
followed component by component from the root or from a current directory; every component needs
a directory to stand in, so a file name with a slash behind it leads nowhere, and two dots go
back to the directory the path came from. Names and paths have a greatest length.

`readAddress` is the way from the address of a file to its content.
-/

namespace SchemaCatalog

/-- A file or a directory. -/
inductive FileTree where
  | file (content : ByteArray)
  /-- A directory with its entries by name. -/
  | directory (entries : List (String × FileTree))

namespace FileTree

/-- Why a path cannot be used. -/
inductive Fault where
  /-- Something on the way does not exist. -/
  | missing
  /-- Something on the way is a file. -/
  | notDirectory
  /-- What should be a file is a directory. -/
  | isDirectory
  /-- The path or one of its names is longer than paths or names can be. -/
  | nameTooLong
  deriving DecidableEq, Repr

/-- The text of a fault. -/
def Fault.message : Fault → String
  | .missing => "No such file or directory (os error 2)"
  | .notDirectory => "Not a directory (os error 20)"
  | .isDirectory => "Is a directory (os error 21)"
  | .nameTooLong => "File name too long (os error 36)"

/-- The most bytes of a name. -/
def longestName : Nat := 255

/-- The most bytes of a path. -/
def longestPath : Nat := 4095

instance : Inhabited FileTree := ⟨.directory []⟩

/-- Whether a tree is a directory. -/
def isDirectory : FileTree → Bool
  | .directory _ => true
  | .file _ => false

/-- The entry of a directory under a name. -/
def entry (t : FileTree) (name : String) : Except Fault FileTree :=
  match t with
  | .file _ => .error .notDirectory
  | .directory entries =>
    match OrderedMap.get? entries name with
    | some child => .ok child
    | none => .error (if longestName < name.utf8ByteSize then .nameTooLong else .missing)

/-- A place in a tree: its names from the root, outermost first, with the trees they stand for. -/
abbrev Trail := List (String × FileTree)

/-- The tree at the end of a trail. -/
def Trail.here (root : FileTree) (trail : Trail) : FileTree :=
  (trail.getLast?.map Prod.snd).getD root

/-- The names of a trail. -/
def Trail.names (trail : Trail) : List String := trail.map Prod.fst

/-- Follow the components of a path from a place. -/
def follow (root : FileTree) : Trail → List String → Except Fault Trail
  | trail, [] => .ok trail
  | trail, name :: names =>
    if !(trail.here root).isDirectory then .error .notDirectory
    else if name = "" ∨ name = "." then follow root trail names
    else if name = ".." then follow root trail.dropLast names
    else do
      let child ← (trail.here root).entry name
      follow root (trail ++ [(name, child)]) names

/-- The components of a path between slashes. -/
def components (path : String) : List String :=
  (splitAt '/' path.toList).map String.ofList

/-- Whether a path starts at the root. -/
def isRooted (path : String) : Bool := path.toList.head? == some '/'

/-- The place a path leads to from a current directory. -/
def locate (root : FileTree) (current : List String) (path : String) : Except Fault Trail := do
  if path.isEmpty then .error .missing
  else if longestPath < path.utf8ByteSize then .error .nameTooLong
  else
    let start ← if isRooted path then pure [] else follow root [] current
    follow root start (components path)

/-- The content of the file at a path. -/
def read (root : FileTree) (current : List String) (path : String) : Except Fault ByteArray := do
  match (← root.locate current path).here root with
  | .file content => return content
  | .directory _ => .error .isDirectory

/-- The tree with another tree under the given names; directories are made on the way. -/
def put : FileTree → List String → FileTree → FileTree
  | _, [], new => new
  | .file _, name :: names, new => .directory [(name, put (.directory []) names new)]
  | .directory entries, name :: names, new =>
    let child := (OrderedMap.get? entries name).getD (.directory [])
    .directory (NameOrder.place Prod.fst (name, put child names new) entries)

/-- The tree with another tree under the given names, unless something is there. -/
def ensure (root : FileTree) (names : List String) (new : FileTree) : FileTree :=
  match follow root [] names with
  | .ok _ => root
  | .error _ => root.put names new

/-- The places a path passes on its way from a current directory, the last one being where it
leads if each of them is a directory. -/
def passes (current : List String) (path : String) : List (List String) :=
  let start := if isRooted path then [] else current
  (components path).foldl (fun places name =>
    let here := places.getLast?.getD start
    if name = "" ∨ name = "." then places
    else places ++ [if name = ".." then here.dropLast else here ++ [name]]) [start]

/-- The path of the directory in which the last component of a path stands, and this component;
slashes behind it do not count. -/
def splitLast (path : String) : String × String :=
  let cs := (path.toList.reverse.dropWhile (· == '/')).reverse
  let last := (cs.reverse.takeWhile (· != '/')).reverse
  (String.ofList (cs.take (cs.length - last.length)), String.ofList last)

/-- The tree with a file written at a path, the directory of which must exist. -/
def write (root : FileTree) (current : List String) (path : String) (content : ByteArray) :
    Except Fault FileTree := do
  if path.isEmpty then .error .missing
  else if longestPath < path.utf8ByteSize then .error .nameTooLong
  else
    let (front, last) := splitLast path
    let start ← if isRooted path then pure [] else follow root [] current
    let directory ← follow root start (components front)
    if !(directory.here root).isDirectory then .error .notDirectory
    else if last = "" ∨ last = "." ∨ last = ".." ∨ path.toList.getLast? = some '/' then
      .error .isDirectory
    else
      match (directory.here root).entry last with
      | .ok (.directory _) => .error .isDirectory
      | .error .nameTooLong => .error .nameTooLong
      | _ => return root.put (directory.names ++ [last]) (.file content)

/-! ## Addresses of files -/

/-- Whether a path ends in the letter of a drive, behind which a slash is meant. -/
def endsInDrive (path : String) : Bool :=
  match path.toList.reverse with
  | sign :: letter :: _ => (sign == ':' || sign == '|') && letter.isAlpha
  | _ => false

/-- The path of a file address; other addresses and those with a host have none. -/
def pathOf? (a : Address) : Option String := do
  if a.scheme ≠ "file" ∨ (a.host ≠ some "" ∧ a.host ≠ some "localhost") then none
  else
    let segments ← a.names.mapM fun s => (Utf8.decode (Percent.decode s.toList)).toOption
    let path := "/" ++ "/".intercalate (segments.map String.ofList)
    some (if endsInDrive path then path ++ "/" else path)

/-- The content of the file at an address. -/
def readAddress (root : FileTree) (a : Address) : Option ByteArray := do
  (root.read [] (← pathOf? a)).toOption

/-- The address of the directory with the given names. -/
def directoryAddress (names : List String) : Address :=
  { scheme := "file", host := some ""
    path := .segments (names.map (fun s =>
      String.ofList (Percent.encode Percent.fileName s.toList)) ++ [""]) }

end FileTree

end SchemaCatalog
