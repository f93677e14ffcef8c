import SchemaCatalog.Proofs.Registry.Content
import SchemaCatalog.Proofs.Schema.Decoding

/-!
# References as a graph

A tree that stands in a document refers to places, and what stands there is a tree again.
`Node.targets` lists the places that a tree refers to.  It depends on neither identities nor base
addresses, so it is the same for a node of the registry and for the node that was read.

There may be infinitely many places, but over finitely many documents only finitely many are
ever referred to: a registry `RefersInto` a finite set (`exists_refersInto`).
-/

namespace SchemaCatalog

lemma Address.target_withoutFragment (a : Address) (reference : String) :
    a.withoutFragment.target reference = a.target reference := by
  unfold target
  rw [withoutFragment_idem]

namespace Node

/-- The places that the references in a tree name, the tree standing in the document at
`current`.  A reference that is no address names none. -/
def targets (n : Node) (current : Address) : List Address :=
  (n.nodes.flatMap references).filterMap fun reference =>
    (current.target reference).toOption.map Address.place

variable {n m : Node} {current p : Address}

lemma mem_targets : p ∈ n.targets current ↔ ∃ m ∈ n.nodes, ∃ reference ∈ m.references,
    ∃ t, current.target reference = .ok t ∧ t.place = p := by
  unfold targets
  rw [List.mem_filterMap]
  constructor
  · rintro ⟨reference, hreference, hp⟩
    obtain ⟨m, hm, hreference⟩ := List.mem_flatMap.1 hreference
    obtain ⟨t, ht, hp⟩ := Option.map_eq_some_iff.1 hp
    exact ⟨m, hm, reference, hreference, t, toOption_eq_some.1 ht, hp⟩
  · rintro ⟨m, hm, reference, hreference, t, ht, hp⟩
    refine ⟨reference, List.mem_flatMap.2 ⟨m, hm, hreference⟩, ?_⟩
    rw [ht]
    exact congrArg some hp

lemma targets_forget (n : Node) (current : Address) :
    n.forget.targets current = n.targets current := by
  unfold targets
  rw [nodes_forget, List.flatMap_map]
  simp only [references_forget]

lemma targets_withoutFragment (n : Node) (current : Address) :
    n.targets current.withoutFragment = n.targets current := by
  unfold targets
  simp only [Address.target_withoutFragment]

lemma targets_subset (h : m ∈ n.nodes) (hp : p ∈ m.targets current) : p ∈ n.targets current := by
  obtain ⟨l, hl, hreference⟩ := mem_targets.1 hp
  exact mem_targets.2 ⟨l, mem_nodes_trans h hl, hreference⟩

end Node

namespace Registry

/-! ## Registries that refer into a set -/

/-- The addresses that have a document, be it kept or only had by the source. -/
def documentAddresses (r : Registry) : Set Address :=
  {a | a.fragment = none ∧ ∃ doc, r.content a = .ok doc}

/-- Without a source the documents are those that are kept. -/
lemma mem_documents_of_content {r : Registry} (h : r.source = none) {a : Address} {doc : Node}
    (hdoc : r.content a = .ok doc) : (a.withoutFragment, doc) ∈ r.documents := by
  unfold content at hdoc
  rw [h] at hdoc
  cases hkept : OrderedMap.get? r.documents a.withoutFragment with
  | some n =>
    rw [hkept] at hdoc
    obtain rfl := Except.ok.inj hdoc
    exact OrderedMap.mem_of_get?_eq_some hkept
  | none =>
    rw [hkept] at hdoc
    cases hdoc

/-- Finitely many documents are kept, so only the source can have infinitely many. -/
lemma finite_documentAddresses (r : Registry)
    (h : {a | (r.source.bind fun source => source a).isSome}.Finite) :
    r.documentAddresses.Finite := by
  refine ((List.finite_toSet (OrderedMap.keys r.documents)).union h).subset ?_
  rintro a ⟨ha, doc, hdoc⟩
  unfold content at hdoc
  rw [Address.withoutFragment_of_fragment_eq_none ha] at hdoc
  cases hkept : OrderedMap.get? r.documents a with
  | some n =>
    have hentry : (a, n) ∈ r.documents := OrderedMap.mem_of_get?_eq_some hkept
    have hkey : a ∈ OrderedMap.keys r.documents := List.mem_map_of_mem hentry
    exact .inl hkey
  | none =>
    right
    rw [hkept] at hdoc
    cases hsource : r.source.bind fun source => source a with
    | none =>
      rw [hsource] at hdoc
      cases hdoc
    | some bytes =>
      change (r.source.bind fun source => source a).isSome
      rw [hsource]
      rfl

/-- Whatever is found refers to places in a set alone. -/
def RefersInto (r : Registry) (T : Finset Address) : Prop :=
  ∀ a fragment n, r.found a fragment = .ok n → ∀ p ∈ n.targets a, p ∈ T

variable {r : Registry} {T : Finset Address}

lemma RefersInto.mono {T' : Finset Address} (h : r.RefersInto T) (sub : T ⊆ T') :
    r.RefersInto T' := fun a fragment n hn p hp => sub (h a fragment n hn p hp)

/-- **Over finitely many documents only finitely many places are referred to.** -/
theorem exists_refersInto (r : Registry) (h : r.documentAddresses.Finite) :
    ∃ T : Finset Address, r.RefersInto T := by
  have hdocuments : (⋃ a ∈ r.documentAddresses, {p | ∃ doc, r.content a = .ok doc ∧
      ∃ fragment m, placeIn doc fragment = some m ∧ p ∈ m.targets a}).Finite := by
    refine h.biUnion fun a ha => ?_
    obtain ⟨-, doc, hdoc⟩ := ha
    refine ((finite_places doc).biUnion fun m _ => List.finite_toSet (m.targets a)).subset ?_
    rintro p ⟨doc', hdoc', fragment, m, hm, hp⟩
    obtain rfl : doc = doc' := Except.ok.inj (hdoc.symm.trans hdoc')
    exact Set.mem_biUnion ⟨fragment, hm⟩ hp
  have hanchors : (⋃ e ∈ {e | e ∈ r.anchors}, {p | p ∈ e.2.targets e.1.1}).Finite :=
    (List.finite_toSet r.anchors).biUnion fun e _ => List.finite_toSet (e.2.targets e.1.1)
  refine ⟨(hdocuments.union hanchors).toFinset, ?_⟩
  intro a fragment n hn p hp
  rw [Set.Finite.mem_toFinset]
  rw [← Node.targets_withoutFragment] at hp
  obtain ⟨doc, hdoc, hanchor | ⟨-, hplace⟩⟩ := found_cases hn
  · -- The entry was in the table of anchors from the beginning.
    right
    have hentry : ((a.withoutFragment, fragment), n) ∈ r.anchors :=
      OrderedMap.mem_of_get?_eq_some hanchor
    exact Set.mem_biUnion hentry hp
  · left
    rw [← content_withoutFragment] at hdoc
    have ha : a.withoutFragment ∈ r.documentAddresses :=
      ⟨Address.fragment_withoutFragment a, doc, hdoc⟩
    exact Set.mem_biUnion ha ⟨doc, hdoc, fragment, n, hplace, hp⟩

end Registry

end SchemaCatalog
