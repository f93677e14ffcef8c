import SchemaCatalog.Proofs.Resolution.Outcome

/-!
# Sessions

A session is the whole life of one resolver: it starts over a registry, and then documents and
nodes are resolved in any order while the registry is changed at will between the calls.
`Resolver.Reachable` holds of every resolver that some session leads to.  Calls that fail are
part of a session like all others, and so are calls under any limit.

The source of a registry is a function of the address.  A source that answers differently from
time to time is covered all the same: no call asks for an address twice, and between two calls
the registry may get another source.

`Resolver.afterDocuments` is the narrower history in which nothing but documents is resolved.
-/

namespace SchemaCatalog

namespace Resolver

/-- The resolvers that sessions lead to. -/
inductive Reachable : Resolver → Prop where
  /-- A session starts over any registry. -/
  | start (r : Registry) : Reachable (ofRegistry r)
  /-- Between two calls the registry may become any other. -/
  | registry {s : Resolver} (r : Registry) : Reachable s → Reachable (s.withRegistry r)
  /-- A document is resolved, successfully or not. -/
  | document {s : Resolver} (limit : Nat) (address : Address) :
      Reachable s → Reachable (Resolution.outcome (Resolution.document limit address) s).2
  /-- A node is resolved as part of a document, successfully or not. -/
  | node {s : Resolver} (limit : Nat) (n : Node) (current : Address) :
      Reachable s → Reachable (Resolution.outcome (Resolution.node limit n current) s).2

/-- The resolver over a registry after some calls for documents, each with its limit. -/
def afterDocuments (r : Registry) (calls : List (Nat × Address)) : Resolver :=
  calls.foldl
    (fun s call => (Resolution.outcome (Resolution.document call.1 call.2) s).2) (ofRegistry r)

/-- A history of calls for documents is a session. -/
lemma reachable_afterDocuments (r : Registry) (calls : List (Nat × Address)) :
    Reachable (afterDocuments r calls) := by
  suffices h : ∀ s, Reachable s → Reachable (calls.foldl
      (fun s call => (Resolution.outcome (Resolution.document call.1 call.2) s).2) s) from
    h _ (.start r)
  induction calls with
  | nil => exact fun s hs => hs
  | cons call calls ih => exact fun s hs => ih _ (.document call.1 call.2 hs)

end Resolver

/-! ## A small session

Three documents for runs on fixed inputs: one refers to itself, one to another document, and the
other to nothing. -/

/-- The address of a document that is kept in memory. -/
def Address.inMemory (name : String) : Address := { scheme := "mem", path := .plain name }

/-- The documents `mem:ring`, `mem:list` and `mem:item`. -/
def Registry.threeDocuments : Registry :=
  [("ring", [Keyword.keyed .properties [("next", .ofKeywords [.ref "#"])]]),
    ("list", [.ordered .items [.ofKeywords [.ref "mem:item"]]]),
    ("item", [.facet (.type ["string"])])].foldl
    (fun r document => (r.register (.inMemory document.1) (.ofKeywords document.2)).2) {}

end SchemaCatalog
