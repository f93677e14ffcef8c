import SchemaCatalog.Reference
import SchemaCatalog.Schema.Pointer

/-!
# The registry

The documents of one run by the addresses they have, and a table of anchors: places in documents
that were named, by an anchor or by the pointer of a target that is resolved already. A document
that is missing is asked of the `source`, if there is one, and kept; every question is recorded.
Anchors go before pointers when a place is looked up.

Nodes enter a registry by `register`, which gives identities to a whole document, and by `adopt`,
which gives them to a tree that has none. Looking a place up can fail and can change the registry
all the same, so these operations are programs that keep the state when they fail.
-/

namespace SchemaCatalog

/-- The documents and anchors of one run. -/
structure Registry where
  /-- Where missing documents come from, by address. -/
  source : Option (Address → Option ByteArray) := none
  /-- The documents by address, which has no fragment. -/
  documents : OrderedMap Address Node := []
  /-- The named places by address of the document and name. -/
  anchors : OrderedMap (Address × String) Node := []
  /-- The addresses asked of the source, the latest first. -/
  requested : List Address := []
  /-- The next identity that no node has. -/
  nextIdentity : Nat := 0

namespace Registry

/-- A program over a registry that may fail. -/
abbrev Lookup := ExceptT ResolveError (StateM Registry)

/-- A registry that asks a source for missing documents. -/
def withSource (source : Address → Option ByteArray) : Registry := { source := some source }

/-- The node, with identities for its whole tree if it has none. -/
def adopt (r : Registry) (n : Node) : Node × Registry :=
  match n.identity with
  | some _ => (n, r)
  | none =>
    let (n, next) := n.label r.nextIdentity
    (n, { r with nextIdentity := next })

/-- The node as a new one: with an identity of its own, whatever it had before. -/
def renew (r : Registry) (n : Node) : Node × Registry :=
  ({ n with identity := some r.nextIdentity }, { r with nextIdentity := r.nextIdentity + 1 })

/-- Keep a document under an address, whose fragment does not count. The document is meant to be a
tree in which no node is shared, as decoding makes them: every node of it is given an identity of
its own, whatever it had before, so nodes that were shared inside it are told apart from then on. -/
def register (r : Registry) (address : Address) (n : Node) : Node × Registry :=
  let address := address.withoutFragment
  let (n, next) := ({ n with base := some address }).label r.nextIdentity
  (n, { r with
    documents := OrderedMap.insert r.documents address n
    nextIdentity := next })

/-- Whether there is a document under an address. -/
def contains (r : Registry) (address : Address) : Bool :=
  OrderedMap.contains r.documents address.withoutFragment

/-- Name a place in the document at an address. -/
def setAnchor (r : Registry) (address : Address) (anchor : String) (n : Node) : Registry :=
  { r with anchors := OrderedMap.insert r.anchors (address.withoutFragment, anchor) n }

/-- The place of a name in the document at an address. -/
def anchor? (r : Registry) (address : Address) (anchor : String) : Option Node :=
  OrderedMap.get? r.anchors (address.withoutFragment, anchor)

/-- Ask the source for the bytes of a document. -/
def request (r : Registry) (address : Address) : Option ByteArray × Registry :=
  match r.source with
  | none => (none, r)
  | some source => (source address, { r with requested := address :: r.requested })

/-- The document at an address. -/
def document (address : Address) : Lookup Node := do
  let address := address.withoutFragment
  match OrderedMap.get? (← get).documents address with
  | some n => return n
  | none =>
    match ← modifyGet (·.request address) with
    | none => throw (.notFound address)
    | some bytes =>
      match Node.ofBytes bytes with
      | .error e => throw (.decode address e)
      | .ok n => modifyGet (·.register address n)

/-- The place a fragment names in a document, anchors aside. -/
def placeIn (doc : Node) (fragment : String) : Option Node :=
  match fragment.toList with
  | [] => doc.find? fragment
  | '/' :: _ => doc.find? fragment
  | _ => doc.findAnchor? fragment

/-- The place a fragment names in the document at an address. -/
def lookup (address : Address) (fragment : String) : Lookup Node := do
  let doc ← document address
  match (← get).anchor? address fragment with
  | some n => return n
  | none =>
    match placeIn doc fragment with
    | some n => modifyGet (·.adopt n)
    | none => throw (.notFound (address.withoutFragment.atFragment fragment))

/-- What a registry holds, in numbers. -/
def summary (r : Registry) : String :=
  "SchemaRegistry \x7b documents: " ++ toString r.documents.length ++
    ", anchors: " ++ toString r.anchors.length ++
    ", fetch: " ++ toString r.source.isSome ++ " \x7d"

end Registry

end SchemaCatalog
