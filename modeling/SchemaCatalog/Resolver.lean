import SchemaCatalog.Registry

/-!
# Resolution

To resolve a schema is to put the expansion of its target in the place of every reference. A
schema that has keywords beside its reference is merged with the target: its own keywords first,
then the target's. Targets are expanded one inside the other, and the resolver keeps three things
about them:

* `active`, the targets being expanded, outermost first. A reference to one of these closes a
  cycle; a stub of the target stands in its place.
* `cut`, the least depth at which a cycle was closed since the innermost target was opened. An
  expansion that was cut at a target further out holds a stub of it, so it holds good only there.
* `expansions`, the expansions that hold good everywhere, by target. Each is one shared node, and
  every later reference to its target is given that node.

A node without references and nested schemas is left as it is, and so is the node of a target
that a bare reference names; any other result is a new node.

`expandNode` is the recursion over a tree, stated over a given way to expand targets, and
`expandTarget` the recursion over targets. It is bounded: `limit` is the number of targets that
may be open inside one another, and beyond it resolution fails with `ResolveError.tooDeep`. Every
target is open at most once at a time, so among finitely many targets a large enough limit is
never reached.
-/

namespace SchemaCatalog

/-- The state of a run of resolutions. -/
structure Resolver where
  /-- The documents and anchors. -/
  registry : Registry := {}
  /-- The expansions that hold good everywhere. -/
  expansions : OrderedMap Address Node := []
  /-- The targets being expanded, outermost first. -/
  active : List Address := []
  /-- The least depth cut by a cycle in the innermost of them. -/
  cut : Option Nat := none

/-- A program over a resolver that may fail. -/
abbrev Resolution := ExceptT ResolveError (StateM Resolver)

namespace Resolver

/-- A resolver over the documents of a registry. -/
def ofRegistry (registry : Registry) : Resolver := { registry }

/-- The resolver with another registry. -/
def withRegistry (s : Resolver) (registry : Registry) : Resolver := { s with registry }

/-- The lesser of two depths, where there are any. -/
def shallower : Option Nat → Option Nat → Option Nat
  | some a, some b => some (min a b)
  | some a, none => some a
  | none, b => b

/-- The resolver after a cycle was closed at a depth. -/
def cutAt (s : Resolver) (depth : Nat) : Resolver := { s with cut := shallower s.cut (some depth) }

/-- The resolver with one more target being expanded, inside all the others. -/
def enter (s : Resolver) (place : Address) : Resolver :=
  { s with active := s.active ++ [place], cut := none }

/-- The cut, if it lies further out than the target at a depth. -/
def openCut (s : Resolver) (depth : Nat) : Option Nat := s.cut.filter (· < depth)

/-- The resolver once the innermost target is done with. A cut at this target or inside it is
closed, one further out joins the cuts there were `before` the target was entered. -/
def leave (s before : Resolver) : Resolver :=
  { s with
    active := s.active.dropLast
    cut := shallower before.cut (s.openCut before.active.length) }

/-- The resolver that keeps the expansion of a target, and names its place by the fragment if it
is not the document itself. -/
def keep (s : Resolver) (place : Address) (fragment : String) (n : Node) : Resolver :=
  { s with
    expansions := OrderedMap.insert s.expansions place n
    registry :=
      if fragment = "" then s.registry
      else s.registry.setAnchor place.withoutFragment fragment n }

end Resolver

/-- Name a node by all its anchors. -/
def Registry.setAnchors (r : Registry) (current : Address) (n : Node) : Registry :=
  n.anchors.foldl (fun r anchor => r.setAnchor current anchor n) r

namespace Resolution

/-! ## Operations

The operations are written for any monad with a resolver as state and `ResolveError` as
exceptions. `Resolution` is the one they run in. -/

variable {m : Type → Type} [Monad m] [MonadStateOf Resolver m] [MonadExceptOf ResolveError m]

/-- A change of the registry with a result. -/
def onRegistry {α : Type} (f : Registry → α × Registry) : m α :=
  modifyGet fun s =>
    let (a, r) := f s.registry
    (a, s.withRegistry r)

/-- A result without state. -/
def ofExcept {α : Type} : Except ResolveError α → m α
  | .ok a => pure a
  | .error e => throw e

/-- A program over the registry as one over the resolver. -/
def lift {α : Type} (x : Registry.Lookup α) : m α := do
  let result ← onRegistry fun r => x.run.run r
  ofExcept result

/-- The result of a program, be it a failure. -/
def observe {α : Type} (x : m α) : m (Except ResolveError α) :=
  tryCatch (do return .ok (← x)) fun e => return .error e

/-- A node with an identity of its own. -/
def fresh (n : Node) : m Node := onRegistry (·.renew n)

/-- Name a node by all its anchors. -/
def setAnchors (current : Address) (n : Node) : m Unit :=
  onRegistry fun r => ((), r.setAnchors current n)

/-! ## Trees -/

/-- The node that comes of expanded keywords: the target of a bare reference, a merged node where
the reference has company, or the node itself with its keywords expanded. -/
def assemble (expand : Address → m Node) (current : Address) (n : Node)
    (keywords : List Keyword) : m Node :=
  match keywords.filterMap Keyword.reference? with
  | [] => fresh { n with keywords }
  | [reference] => do
    let target ← ofExcept (current.target reference)
    let found ← expand target
    match keywords.filter fun k => k.reference?.isNone with
    | [] => return found
    | own =>
      fresh { base := some target.withoutFragment, keywords := own ++ found.keywords }
  | references => throw (.malformed (", ".intercalate references) .several)

/-- Whether a keyword is expanded in the first round, before those that may refer into it. -/
def isEarly (k : Keyword) : Bool := k.priority ≤ 1

mutual

/-- The expansion of a node that stands in the document at `current`. -/
def expandNode (expand : Address → m Node) (current : Address) : Node → m Node
  | ⟨identity, truth, base, keywords⟩ => do
    let n : Node := ⟨identity, truth, base, keywords⟩
    setAnchors current n
    if n.isLeaf then return n
    else
      let early ← expandKeywords expand current true keywords
      let late ← expandKeywords expand current false keywords
      assemble expand current n ((List.zipWith Option.or early late).filterMap id)

/-- The expansions of those keywords that belong to a round, at their places. -/
def expandKeywords (expand : Address → m Node) (current : Address) (early : Bool) :
    List Keyword → m (List (Option Keyword))
  | [] => return []
  | k :: ks => do
    if isEarly k == early then
      let k' ← expandKeyword expand current k
      let ks' ← expandKeywords expand current early ks
      return some k' :: ks'
    else
      let ks' ← expandKeywords expand current early ks
      return none :: ks'

/-- A keyword with its nested schemas expanded. -/
def expandKeyword (expand : Address → m Node) (current : Address) : Keyword → m Keyword
  | .keyed kind members => do return .keyed kind (← expandMembers expand current members)
  | .ordered kind schemas => do return .ordered kind (← expandSchemas expand current schemas)
  | .additionalProperties schema => do
    return .additionalProperties (← expandNode expand current schema)
  | .ref target => return .ref target
  | .facet f => return .facet f

/-- Named schemas expanded in order. -/
def expandMembers (expand : Address → m Node) (current : Address) :
    List (String × Node) → m (List (String × Node))
  | [] => return []
  | (name, n) :: members => do
    let n' ← expandNode expand current n
    let members' ← expandMembers expand current members
    return (name, n') :: members'

/-- Listed schemas expanded in order. -/
def expandSchemas (expand : Address → m Node) (current : Address) : List Node → m (List Node)
  | [] => return []
  | n :: schemas => do
    let n' ← expandNode expand current n
    let schemas' ← expandSchemas expand current schemas
    return n' :: schemas'

end

theorem expandMembers_eq [LawfulMonad m] (expand : Address → m Node) (current : Address)
    (members : List (String × Node)) :
    expandMembers expand current members = do
      return List.zipWith (fun m n => (m.1, n)) members
        (← expandSchemas expand current (OrderedMap.values members)) := by
  induction members with
  | nil =>
    simp only [expandMembers, OrderedMap.values, List.map_nil, expandSchemas, pure_bind,
      List.zipWith_nil_left]
  | cons member members ih =>
    simp only [expandMembers, ih, OrderedMap.values, List.map_cons, expandSchemas, bind_assoc,
      pure_bind, List.zipWith_cons_cons]

/-- The schemas a keyword holds are expanded in order and put back in their places. -/
theorem expandKeyword_eq [LawfulMonad m] (expand : Address → m Node) (current : Address)
    (k : Keyword) :
    expandKeyword expand current k = do
      return k.withNested (← expandSchemas expand current k.nested) := by
  cases k with
  | keyed kind members =>
    simp only [expandKeyword, expandMembers_eq, Keyword.nested, Keyword.withNested, bind_assoc,
      pure_bind]
  | ordered kind schemas => rfl
  | additionalProperties schema =>
    simp only [expandKeyword, expandSchemas, Keyword.nested, Keyword.withNested, bind_assoc,
      pure_bind, List.headD_cons]
  | _ => simp only [expandKeyword, expandSchemas, Keyword.nested, Keyword.withNested, pure_bind]

/-! ## Targets -/

/-- The raw node at a place and its document. -/
def rawAt (place : Address) : m (Node × Address) := do
  let fragment ← ofExcept place.fragmentText
  let raw ← lift (Registry.lookup place.withoutFragment fragment)
  return (raw, place.withoutFragment)

/-- The first node that is more than a bare reference on the way from a node, with its document.
A way that comes back to a place it has been to ends there. -/
def followAliases : Nat → List Address → Node → Address → m (Node × Address)
  | 0, _, _, document => throw (.tooDeep document)
  | limit + 1, seen, raw, document =>
    match raw.keywords with
    | [.ref reference] => do
      let target ← ofExcept (document.target reference)
      if target.place ∈ seen then return (raw, document)
      else
        let (raw, document) ← rawAt target.place
        followAliases limit (target.place :: seen) raw document
    | _ => return (raw, document)

/-- The stub of a target that is being expanded at a depth; the cycle is cut there. -/
def closeCycle (limit depth : Nat) (raw : Node) (document : Address) : m Node := do
  modify (·.cutAt depth)
  let (raw, document) ← followAliases limit [] raw document
  fresh { raw.cycleStub with base := some document }

/-- Run the expansion of a target as the innermost one. The result says whether it holds good
everywhere: no cycle was cut further out. -/
def inside (place : Address) (x : m Node) : m (Node × Bool) := do
  let before ← get
  set (before.enter place)
  let result ← observe x
  let after ← get
  set (after.leave before)
  let n ← ofExcept result
  return (n, (after.openCut before.active.length).isNone)

/-- The expansion of the node at an address. -/
def expandTarget : Nat → Address → m Node
  | 0, target => throw (.tooDeep target)
  | limit + 1, target => do
    let place := target.place
    match OrderedMap.get? (← get).expansions place with
    | some n => return n
    | none =>
      let fragment ← ofExcept place.fragmentText
      let (raw, document) ← rawAt place
      match (← get).active.idxOf? place with
      | some depth => closeCycle limit depth raw document
      | none =>
        let (n, complete) ← inside place (expandNode (expandTarget limit) document raw)
        if complete then modify (·.keep place fragment n)
        return n

/-- The number of targets that may be open inside one another unless a caller says otherwise. -/
def defaultLimit : Nat := 1000000

/-- The resolved document at an address. -/
def document (limit : Nat) (address : Address) : m Node :=
  expandTarget limit address.withoutFragment

/-- The expansion of a node that stands in the document at `current`. -/
def node (limit : Nat) (n : Node) (current : Address) : m Node := do
  let n ← onRegistry (·.adopt n)
  expandNode (expandTarget limit) current n

end Resolution

end SchemaCatalog
