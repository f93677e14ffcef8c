import SchemaCatalog.CommandLine.Run

/-!
# The program

The outermost layer: it copies the files that a command asks for into a `FileTree`, runs the
command on the copy, and shows the outcome. A run may ask for documents outside of the corpus;
those that exist are added to the copy and the command is run again, until it asks for nothing
new.
-/

namespace SchemaCatalog.Main

open CommandLine

/-- The path of names from the root. -/
def pathOf (names : List String) : String := "/" ++ "/".intercalate names

/-- A copy of what lies at a path. -/
partial def copy (path : String) : IO FileTree := do
  let place := (← IO.currentDir) / path
  if ← place.isDir then
    let entries ← place.readDir
    let children ← entries.toList.mapM fun e => do
      return (e.fileName, ← copy (path ++ "/" ++ e.fileName))
    return children.foldl (fun t c => t.put [c.1] c.2) (.directory [])
  else
    try return .file (← IO.FS.readBinFile path)
    catch _ => return .file ByteArray.empty

/-- The tree with a copy of a place in it, if there is anything; of a directory the copy is
empty unless it is wanted `whole`. -/
def addPlace (whole : Bool) (root : FileTree) (names : List String) : IO FileTree := do
  let place := (← IO.currentDir) / pathOf names
  if !(← place.pathExists) then return root
  else if whole then return root.put names (← copy (pathOf names))
  else if ← place.isDir then return root.ensure names (.directory [])
  else return root.ensure names (← copy (pathOf names))

/-- The tree with copies of what a path passes and of what it leads to. -/
def addPath (whole : Bool) (w : World) (path : String) : IO World := do
  let places := FileTree.passes w.current path
  let root ← places.dropLast.foldlM (addPlace false) w.root
  let root ← (places.getLast?.toList).foldlM (addPlace whole) root
  return { w with root }

/-- The paths of a command: that of its corpus, and that of the file it writes. -/
def pathsOf : Command → String × Option String
  | .parse a o => (a.path, o.output)
  | .resolve a _ o => (a.path, o.output)
  | .check a .. => (a.path, none)

/-- The documents asked for that are no part of the tree. -/
def missing (w : World) (o : Outcome) : List String :=
  (o.requested.filter fun a => (w.root.readAddress a).isNone).filterMap FileTree.pathOf?

/-- The outcome of a command on a tree that is filled until nothing asked for can be added. -/
partial def settle (w : World) (c : Command) (tried : List String) : IO Outcome := do
  let o := w.runCommand c
  match (missing w o).filter (· ∉ tried) with
  | [] => return o
  | paths => settle (← paths.foldlM (addPath false) w) c (paths ++ tried)

/-- Write the file of an outcome. -/
def writeOutcome (o : Outcome) : IO Outcome := do
  match o.written with
  | none => return o
  | some (path, text) =>
    try
      IO.FS.writeFile path text
      return o
    catch e => return { o with exit := 3, stderr := s!"Error writing to {path}: {e}\n" }

/-- The outcome of a command line in the current directory. -/
def run (args : List String) : IO Outcome := do
  let current := (FileTree.components (← IO.currentDir).toString).filter (· ≠ "")
  let w : World := ⟨.directory [], current⟩
  let w ← addPath false w "."
  match Command.ofArguments args with
  | .error _ => return w.runArguments args
  | .ok c =>
    let (corpus, output) := pathsOf c
    let w ← addPath true w corpus
    let w ← output.toList.foldlM (addPath false) w
    writeOutcome (← settle w c [])

end SchemaCatalog.Main

/-- Run the command line of the process. -/
def main (args : List String) : IO UInt32 := do
  let o ← SchemaCatalog.Main.run args
  IO.print o.stdout
  IO.eprint o.stderr
  return UInt32.ofNat o.exit
