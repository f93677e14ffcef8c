import SchemaCatalog.Proofs.Resolution.Produced
import SchemaCatalog.Proofs.Schema.Equivalence

/-!
# Equality of schemas that are put together from keywords

A caller need not take schemas as they were read.  Keywords may be taken out of schemas and put
together in new ones, in any order and as often as one likes, and given other schemas to hold; what
comes of this may be registered and resolved, and what comes of that taken apart again.
`Node.Gathered` and `Keyword.Gathered` are the schemas and keywords that can be had in this way
when every keyword was read from a JSON value in the first place.  Nothing is asked of the names: a
gathered schema may repeat them, at every depth, and may be one that cannot be folded.

Equality is an equivalence among all of these (`Node.same_equivalence`), since whatever is gathered
can be compared (`Node.Gathered.comparable`).
-/

namespace SchemaCatalog

open Resolution

mutual

/-- The schemas that are put together from keywords that were read or resolved. -/
inductive Node.Gathered : Node → Prop where
  /-- Keywords are put together, in any order and with any repetition.  A truth value has none. -/
  | ofKeywords {n : Node} (keywords : ∀ k ∈ n.keywords, Keyword.Gathered k)
      (truth : n.truth ≠ none → n.keywords = []) : Node.Gathered n
  /-- A part of a schema is taken. -/
  | part {n c : Node} (whole : Node.Gathered n) (part : n.Part c) : Node.Gathered c
  /-- A document is resolved by a resolver that holds such schemas. -/
  | document {s s' : Resolver} {limit : Nat} {address : Address} {m : Node}
      (content : ∀ a n, s.registry.content a = .ok n → Node.Gathered n)
      (anchors : ∀ a name n, s.registry.anchor? a name = some n → Node.Gathered n)
      (expansions : ∀ e ∈ s.expansions, Node.Gathered e.2)
      (run : outcome (Resolution.document limit address) s = (.ok m, s')) : Node.Gathered m
  /-- Such a schema is resolved by a resolver that holds such schemas. -/
  | node {s s' : Resolver} {limit : Nat} {current : Address} {n m : Node}
      (content : ∀ a n, s.registry.content a = .ok n → Node.Gathered n)
      (anchors : ∀ a name n, s.registry.anchor? a name = some n → Node.Gathered n)
      (expansions : ∀ e ∈ s.expansions, Node.Gathered e.2) (tree : Node.Gathered n)
      (run : outcome (Resolution.node limit n current) s = (.ok m, s')) : Node.Gathered m

/-- The keywords of such schemas. -/
inductive Keyword.Gathered : Keyword → Prop where
  /-- A keyword is read from a member of an object. -/
  | decoded {name : String} {v : Json} {k : Keyword} (distinct : v.hasDistinctNames = true)
      (decode : Keyword.decode name v = .ok k) : Keyword.Gathered k
  /-- A keyword is taken out of a schema. -/
  | ofNode {n : Node} {k : Keyword} (node : Node.Gathered n) (mem : k ∈ n.keywords) :
      Keyword.Gathered k
  /-- A keyword is given other schemas to hold in the places of its own. -/
  | holding {j k : Keyword} (keyword : Keyword.Gathered j)
      (places : Keyword.Related (fun _ _ => True) j k)
      (nested : ∀ c ∈ k.nested, Node.Gathered c) : Keyword.Gathered k

end

lemma Keyword.throughout_comparable_of_decode {name : String} {v : Json} {k : Keyword}
    (hv : v.hasDistinctNames = true) (h : Keyword.decode name v = .ok k) :
    k.Throughout Comparable := by
  -- the keyword is that of an object with the one member
  have hobject : (Json.object [(name, v)]).hasDistinctNames = true := by
    simp [OrderedMap.keys, hv]
  have hdecode : Node.decode (.object [(name, v)]) = .ok (.ofKeywords [k]) := by
    simp only [Node.decode, decodeAll, h]
    rfl
  have hall : (Node.ofKeywords [k]).Throughout (Node.Carries Comparable) :=
    Node.decode_throughout (fun _ _ hv hu => hu.hasDistinctNames hv)
      (fun _ hv m hm _ hread => hread.comparable ((Json.hasDistinctNames_object.1 hv).2 m hm))
      hobject hdecode
  exact (Node.throughout_carries_iff.1 hall).2 k (List.mem_singleton_self k)

mutual

theorem Node.Gathered.throughout {n : Node} :
    n.Gathered → n.Throughout (Node.Carries Keyword.Comparable)
  | .ofKeywords keywords truth =>
    Node.throughout_carries_iff.2 ⟨truth, fun k hk => (keywords k hk).throughout⟩
  | .part whole part => whole.throughout.part part
  | .document content anchors expansions run =>
    ((document_lasting Keyword.lasting_comparable _ _ _
      ⟨⟨fun a n hn => (content a n hn).throughout,
        fun a name n hn => (anchors a name n hn).throughout⟩,
        fun e he => (expansions e he).throughout⟩).of_ok run).2.2
  | .node content anchors expansions tree run =>
    ((node_lasting Keyword.lasting_comparable _ _ tree.throughout _
      ⟨⟨fun a n hn => (content a n hn).throughout,
        fun a name n hn => (anchors a name n hn).throughout⟩,
        fun e he => (expansions e he).throughout⟩).of_ok run).2.2

theorem Keyword.Gathered.throughout {k : Keyword} : k.Gathered → k.Throughout Keyword.Comparable
  | .decoded distinct decode => Keyword.throughout_comparable_of_decode distinct decode
  | .ofNode node mem => (Node.throughout_carries_iff.1 node.throughout).2 k mem
  | .holding keyword places nested =>
    { self := keyword.throughout.self.related places
      nested := fun c hc => (nested c hc).throughout
      plain := fun a ha => keyword.throughout.plain a (by cases places <;> exact ha) }

end

lemma Node.comparable_of_throughout {n : Node}
    (h : n.Throughout (Node.Carries Keyword.Comparable)) : n.Comparable :=
  fun _ hc => (h.of_mem_nodes hc).self.keywords

/-- Gathered schemas can be compared. -/
theorem Node.Gathered.comparable {n : Node} (h : n.Gathered) : n.Comparable :=
  Node.comparable_of_throughout h.throughout

/-- Gathered keywords can be compared, and so can the schemas they hold. -/
theorem Keyword.Gathered.comparable {k : Keyword} (h : k.Gathered) :
    k.Comparable ∧ k.All Node.Comparable :=
  ⟨h.throughout.self, fun c hc => Node.comparable_of_throughout (h.throughout.nested c hc)⟩

/-- Equality is an equivalence among gathered schemas, and it is one among gathered keywords. -/
theorem Node.same_equivalence :
    (Equivalence fun m n : { n : Node // n.Gathered } => m.1.same n.1 = true) ∧
      Equivalence fun j k : { k : Keyword // k.Gathered } => j.1.same k.1 = true := by
  constructor
  · refine ⟨fun n => ?_, fun {m n} hmn => ?_, fun {l m n} hlm hmn => ?_⟩
    · exact Node.equivalenceOn_same.refl n.1
    · exact Node.equivalenceOn_same.symm m.2.comparable n.2.comparable hmn
    · exact Node.equivalenceOn_same.trans l.2.comparable m.2.comparable n.2.comparable hlm hmn
  · refine ⟨fun k => ?_, fun {j k} hjk => ?_, fun {i j k} hij hjk => ?_⟩
    · exact Keyword.equivalenceOn_same.refl k.1
    · exact Keyword.equivalenceOn_same.symm j.2.comparable k.2.comparable hjk
    · exact Keyword.equivalenceOn_same.trans i.2.comparable j.2.comparable k.2.comparable hij hjk

end SchemaCatalog
