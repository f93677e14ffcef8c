import Std.Data.HashSet
import SchemaCatalog.Schema.Pointer

/-!
# Walking shared trees

A resolved document is a tree in which whole subtrees are shared, and it may have far more paths
than nodes. The walk goes through it depth first, in order of declaration, and visits a shared
node once, by its identity, at the first path that leads to it. A node without identity is
shared with nothing and is visited wherever it stands.

Paths are lists of segments as `Node.at?` takes them: the name of a keyword, and behind it the
key or index of the schema if the keyword holds several.
-/

namespace SchemaCatalog

/-- Where a walk stands. -/
structure Walk where
  /-- The identities of the nodes visited. -/
  seen : Std.HashSet Nat := {}
  /-- The nodes visited with their paths, the latest first. -/
  found : List (Node × List String) := []

namespace Walk

/-- Whether a node was visited. -/
def visited (w : Walk) (n : Node) : Bool :=
  match n.identity with
  | some i => w.seen.contains i
  | none => false

/-- The walk after a visit. -/
def visit (w : Walk) (n : Node) (path : List String) : Walk where
  seen := match n.identity with
    | some i => w.seen.insert i
    | none => w.seen
  found := (n, path) :: w.found

mutual

/-- The walk through a node found at a path. -/
def node (path : List String) : Node → Walk → Walk
  | ⟨identity, truth, base, keywords⟩, w =>
    let n : Node := ⟨identity, truth, base, keywords⟩
    if w.visited n then w else keywordList path keywords (w.visit n path)

/-- The walk through keywords of the node at a path. -/
def keywordList (path : List String) : List Keyword → Walk → Walk
  | [], w => w
  | k :: ks, w => keywordList path ks (keyword path k w)

/-- The walk through a keyword of the node at a path. -/
def keyword (path : List String) : Keyword → Walk → Walk
  | .keyed kind members, w => memberList (path ++ [kind.name]) members w
  | .ordered kind schemas, w => schemaList (path ++ [kind.name]) 0 schemas w
  | .additionalProperties schema, w => node (path ++ ["additionalProperties"]) schema w
  | .ref _, w => w
  | .facet _, w => w

/-- The walk through named schemas of the keyword at a path. -/
def memberList (path : List String) : List (String × Node) → Walk → Walk
  | [], w => w
  | (name, n) :: members, w => memberList path members (node (path ++ [name]) n w)

/-- The walk through listed schemas of the keyword at a path, from an index on. -/
def schemaList (path : List String) (index : Nat) : List Node → Walk → Walk
  | [], w => w
  | n :: schemas, w => schemaList path (index + 1) schemas (node (path ++ [toString index]) n w)

end

end Walk

/-- The nodes of a tree with their paths, each shared node once, in the order of the walk. -/
def Node.visits (n : Node) : List (Node × List String) := (Walk.node [] n {}).found.reverse

/-- A path as a pointer; that of the root is a slash. -/
def pointerText (path : List String) : String :=
  if path.isEmpty then "/"
  else String.join (path.map fun s => "/" ++ String.ofList (escapeSegment s.toList))

end SchemaCatalog
