import SchemaCatalog.Proofs.Resolution.Graph
import SchemaCatalog.Proofs.Resolution.Session
import Mathlib.Logic.Relation

/-!
# Documents and their targets

A fresh registry has documents and no anchors.  What is raw at a place of it is then a matter of
the documents alone, and so is the graph of references: `Refers` relates a place to those that
are named in the tree there, and the targets are the documents and all that targets refer to.

Two things can make a session over such a registry ambiguous.  The table of anchors is keyed by
document and name, so two targets that are the same fragment of the same document once escapes
are undone would share an entry (`Unambiguous` excludes it).  And anchors share the table with
pointers, so an anchor must look like no pointer, must name one node of its document, and must
not stand where only a pointer can see it (`TidyAnchors`).
-/

namespace SchemaCatalog

lemma Address.place_withoutFragment (a : Address) : a.withoutFragment.place = a.withoutFragment := by
  unfold place
  rw [if_neg (by simp)]

namespace Registry

open Relation

/-- The tree at a place refers to another place. -/
def Refers (r : Registry) (p q : Address) : Prop := ∃ n, r.raw p = .ok n ∧ q ∈ n.targets p

/-- The targets of a session in which documents are resolved. -/
inductive Target (r : Registry) : Address → Prop where
  /-- A document is a target. -/
  | document (a : Address) : Target r a.withoutFragment
  /-- What a target refers to is a target. -/
  | refers {p q : Address} : Target r p → Refers r p q → Target r q

/-- No two targets are the same fragment of the same document. -/
def Unambiguous (r : Registry) : Prop :=
  ∀ p q, r.Target p → r.Target q → p.withoutFragment = q.withoutFragment →
    ∀ fragment, p.fragmentText = .ok fragment → q.fragmentText = .ok fragment → p = q

/-- Anchors that look like no pointer, that name one node of their document, and that do not
stand inside unrecognized members. -/
structure TidyAnchors (r : Registry) : Prop where
  proper : ∀ a doc, r.content a = .ok doc → ∀ m ∈ doc.nodes, ∀ name ∈ m.anchors,
    name ≠ "" ∧ name.toList.head? ≠ some '/'
  unique : ∀ a doc, r.content a = .ok doc → (doc.nodes.flatMap Node.anchors).Nodup
  unburied : ∀ a doc, r.content a = .ok doc → ∀ m, doc.Buried m → ∀ l ∈ m.nodes, l.anchors = []

/-- No node of a document has an anchor, inside unrecognized members or elsewhere. -/
def Anchorless (r : Registry) : Prop :=
  ∀ a doc, r.content a = .ok doc → (∀ m ∈ doc.nodes, m.anchors = []) ∧
    ∀ m, doc.Buried m → ∀ l ∈ m.nodes, l.anchors = []

/-- A target from which references never lead back to where they have been. -/
def Acyclic (r : Registry) (p : Address) : Prop :=
  ∀ q, ReflTransGen r.Refers p q → ¬ TransGen r.Refers q q

variable {r : Registry} {p q : Address}

lemma Anchorless.tidyAnchors (h : r.Anchorless) : r.TidyAnchors where
  proper a doc hdoc m hm name hname := by
    rw [(h a doc hdoc).1 m hm] at hname
    exact absurd hname List.not_mem_nil
  unique a doc hdoc := by
    have hnil : doc.nodes.flatMap Node.anchors = [] := by
      rw [List.flatMap_eq_nil_iff]
      exact (h a doc hdoc).1
    rw [hnil]
    exact List.nodup_nil
  unburied a doc hdoc := (h a doc hdoc).2

lemma Acyclic.refers (h : r.Acyclic p) (hpq : r.Refers p q) : r.Acyclic q :=
  fun t ht => h t (.head hpq ht)

/-- What the tree at a place refers to depends on neither identities nor base addresses. -/
lemma Refers.of_mem_nodes {n raw m : Node} {reference : String} {t : Address}
    (hn : r.raw p = .ok n) (hforget : raw.forget = n.forget) (hm : m ∈ raw.nodes)
    (hone : m.references = [reference]) (ht : p.withoutFragment.target reference = .ok t) :
    r.Refers p t.place := by
  refine ⟨n, hn, ?_⟩
  rw [← Node.targets_forget, ← hforget, Node.targets_forget]
  rw [Address.target_withoutFragment] at ht
  exact Node.targets_subset hm (Node.mem_targets.2
    ⟨m, m.self_mem_nodes, reference, by rw [hone]; exact List.mem_singleton_self _, t, ht, rfl⟩)

lemma Target.place_eq (h : r.Target p) : p.place = p := by
  cases h with
  | document a => exact a.place_withoutFragment
  | refers _ hpq =>
    obtain ⟨n, -, hmem⟩ := hpq
    obtain ⟨_, _, _, _, t, _, rfl⟩ := Node.mem_targets.1 hmem
    exact t.place_place

/-! ## What is raw over fresh documents -/

/-- An anchor leads to the node that carries it. -/
lemma TidyAnchors.placeIn_eq (h : r.TidyAnchors) {a : Address} {doc m : Node} {name : String}
    (hdoc : r.content a = .ok doc) (hm : m ∈ doc.nodes) (hname : name ∈ m.anchors) :
    placeIn doc name = some m := by
  obtain ⟨hnonempty, hslash⟩ := h.proper a doc hdoc m hm name hname
  have hfind : placeIn doc name = doc.findAnchor? name := by
    unfold placeIn
    split
    case h_1 hnil => exact absurd (String.toList_eq_nil_iff.1 hnil) hnonempty
    case h_2 cs hcons =>
      rw [hcons] at hslash
      exact absurd rfl hslash
    case h_3 => rfl
  rw [hfind, Node.findAnchor?_eq]
  cases hfirst : doc.nodes.find? (·.hasAnchor name) with
  | none =>
    have hnot := List.find?_eq_none.1 hfirst m hm
    exact absurd (Node.hasAnchor_iff.2 hname) hnot
  | some first =>
    obtain ⟨hhas, before, after, hnodes, hbefore⟩ := List.find?_eq_some_iff_append.1 hfirst
    have hunique := h.unique a doc hdoc
    rw [hnodes] at hm hunique
    rw [List.flatMap_append, List.flatMap_cons] at hunique
    rcases List.mem_append.1 hm with hm | hm
    · exact absurd (Node.hasAnchor_iff.2 hname) (by simpa using hbefore m hm)
    rcases List.mem_cons.1 hm with rfl | hm
    · rfl
    · -- Two nodes of the document would carry the anchor.
      have hdisjoint := (List.nodup_append.1 (List.nodup_append.1 hunique).2.1).2.2
      exact absurd rfl (hdisjoint name (Node.hasAnchor_iff.1 hhas) name
        (List.mem_flatMap.2 ⟨m, hm, hname⟩))

variable (fresh : r.anchors = [])
include fresh

lemma anchor?_eq_none (a : Address) (name : String) : r.anchor? a name = none := by
  unfold anchor?
  rw [fresh]
  rfl

lemma found_eq_ok {a : Address} {fragment : String} {n : Node} :
    r.found a fragment = .ok n ↔
      ∃ doc, r.content a = .ok doc ∧ placeIn doc fragment = some n := by
  constructor
  · intro h
    obtain ⟨doc, hdoc, hn | ⟨-, hn⟩⟩ := found_cases h
    · rw [anchor?_eq_none fresh] at hn
      cases hn
    · exact ⟨doc, hdoc, hn⟩
  · rintro ⟨doc, hdoc, hn⟩
    unfold found
    rw [hdoc]
    change r.placed a fragment doc = .ok n
    unfold placed
    rw [anchor?_eq_none fresh, hn]

lemma raw_eq_ok {n : Node} : r.raw p = .ok n ↔ ∃ fragment doc,
    p.fragmentText = .ok fragment ∧ r.content p = .ok doc ∧ placeIn doc fragment = some n := by
  cases hfragment : p.fragmentText with
  | error e =>
    rw [raw_of_fragmentText_error hfragment]
    constructor
    · intro h
      cases h
    · rintro ⟨fragment, doc, h, -⟩
      cases h
  | ok fragment =>
    rw [raw_of_fragmentText hfragment, found_eq_ok fresh]
    constructor
    · rintro ⟨doc, hdoc, hn⟩
      exact ⟨fragment, doc, rfl, hdoc, hn⟩
    · rintro ⟨fragment', doc, h, hdoc, hn⟩
      obtain rfl := Except.ok.inj h
      exact ⟨doc, hdoc, hn⟩

/-- What is raw at a place stands in the document or is buried in it. -/
lemma raw_cases {n : Node} (h : r.raw p = .ok n) :
    ∃ doc, r.content p = .ok doc ∧ (n ∈ doc.nodes ∨ doc.Buried n) := by
  obtain ⟨fragment, doc, -, hdoc, hn⟩ := (raw_eq_ok fresh).1 h
  exact ⟨doc, hdoc, placeIn_cases hn⟩

/-- The anchors in what is raw at a place lead, in its document, to the nodes that carry them. -/
lemma TidyAnchors.found_eq (h : r.TidyAnchors) {n m : Node} {name : String}
    (hn : r.raw p = .ok n) (hm : m ∈ n.nodes) (hname : name ∈ m.anchors) :
    r.found p name = .ok m := by
  obtain ⟨doc, hdoc, hin | hburied⟩ := raw_cases fresh hn
  · have hplace := h.placeIn_eq hdoc (Node.mem_nodes_trans hin hm) hname
    exact (found_eq_ok fresh).2 ⟨doc, hdoc, hplace⟩
  · rw [h.unburied p doc hdoc n hburied m hm] at hname
    exact absurd hname List.not_mem_nil

omit fresh in
lemma unambiguous_of_fragment_eq_none (h : ∀ p, r.Target p → p.fragment = none) :
    r.Unambiguous := by
  intro p q hp hq hdocument _ _ _
  rwa [Address.withoutFragment_of_fragment_eq_none (h p hp),
    Address.withoutFragment_of_fragment_eq_none (h q hq)] at hdocument

/-! ## Documents that are kept -/

section Kept

omit fresh

variable (hsource : r.source = none)
include hsource

/-- Nothing is buried in documents that keep to the vocabulary. -/
lemma not_buried_of_documents
    (hfacets : ∀ e ∈ r.documents, ∀ l ∈ e.2.nodes, ∀ f ∈ l.facets,
      (Keyword.facet f).term?.isSome = true)
    {a : Address} {doc m : Node} (hdoc : r.content a = .ok doc) : ¬ doc.Buried m := by
  rintro ⟨l, hl, f, hf, path, hpath⟩
  have hterm := hfacets _ (mem_documents_of_content hsource hdoc) l hl f hf
  cases f with
  | unrecognized => cases hterm
  | _ => cases hpath

lemma anchorless_of_documents
    (hfacets : ∀ e ∈ r.documents, ∀ l ∈ e.2.nodes, ∀ f ∈ l.facets,
      (Keyword.facet f).term?.isSome = true)
    (hanchors : ∀ e ∈ r.documents, ∀ m ∈ e.2.nodes, m.anchors = []) : r.Anchorless := by
  intro a doc hdoc
  refine ⟨hanchors _ (mem_documents_of_content hsource hdoc), fun m hm => ?_⟩
  exact absurd hm (not_buried_of_documents hsource hfacets hdoc)

/-- If documents refer to whole documents alone, these are the targets. -/
lemma unambiguous_of_documents (fresh : r.anchors = [])
    (hfacets : ∀ e ∈ r.documents, ∀ l ∈ e.2.nodes, ∀ f ∈ l.facets,
      (Keyword.facet f).term?.isSome = true)
    (hfragments : ∀ e ∈ r.documents, ∀ q ∈ e.2.targets e.1, q.fragment = none) :
    r.Unambiguous := by
  refine unambiguous_of_fragment_eq_none fun p hp => ?_
  cases hp with
  | document a => exact a.fragment_withoutFragment
  | @refers p' q _ hpq =>
    obtain ⟨n, hn, hq⟩ := hpq
    obtain ⟨doc, hdoc, hin | hburied⟩ := raw_cases fresh hn
    · refine hfragments _ (mem_documents_of_content hsource hdoc) _ ?_
      rw [Node.targets_withoutFragment]
      exact Node.targets_subset hin hq
    · exact absurd hburied (not_buried_of_documents hsource hfacets hdoc)

end Kept

/-! ## The small session -/

section SmallSession

omit fresh

lemma threeDocuments_facets : ∀ e ∈ threeDocuments.documents, ∀ l ∈ e.2.nodes, ∀ f ∈ l.facets,
    (Keyword.facet f).term?.isSome = true := by
  decide +kernel

lemma threeDocuments_anchorless : threeDocuments.Anchorless :=
  anchorless_of_documents rfl threeDocuments_facets (by decide +kernel)

/-- The document `mem:ring` refers to itself, `mem:list` to `mem:item`, and that is all. -/
lemma threeDocuments_refers (h : threeDocuments.Refers p q) :
    (p.withoutFragment, q) ∈ [(Address.inMemory "ring", Address.inMemory "ring"),
      (Address.inMemory "list", Address.inMemory "item")] := by
  have htargets : ∀ e ∈ threeDocuments.documents, ∀ q ∈ e.2.targets e.1,
      (e.1, q) ∈ [(Address.inMemory "ring", Address.inMemory "ring"),
        (Address.inMemory "list", Address.inMemory "item")] := by
    decide +kernel
  obtain ⟨n, hn, hq⟩ := h
  obtain ⟨doc, hdoc, hin | hburied⟩ := raw_cases rfl hn
  · refine htargets _ (mem_documents_of_content rfl hdoc) q ?_
    rw [Node.targets_withoutFragment]
    exact Node.targets_subset hin hq
  · exact absurd hburied (not_buried_of_documents rfl threeDocuments_facets hdoc)

lemma threeDocuments_unambiguous : threeDocuments.Unambiguous :=
  unambiguous_of_documents rfl rfl threeDocuments_facets (by decide +kernel)

lemma threeDocuments_acyclic : threeDocuments.Acyclic (.inMemory "list") := by
  have hlist {q : Address} (h : threeDocuments.Refers (.inMemory "list") q) :
      q = .inMemory "item" := by
    have hpair := threeDocuments_refers h
    simpa [Address.inMemory, Address.withoutFragment] using hpair
  have hitem (q : Address) : ¬ threeDocuments.Refers (.inMemory "item") q := by
    intro h
    have hpair := threeDocuments_refers h
    simp [Address.inMemory, Address.withoutFragment] at hpair
  intro q hq
  have hreach : q = .inMemory "list" ∨ q = .inMemory "item" := by
    induction hq with
    | refl => exact .inl rfl
    | tail _ h ih =>
      rcases ih with rfl | rfl
      · exact .inr (hlist h)
      · exact absurd h (hitem _)
  intro hcycle
  obtain ⟨t, hqt, htq⟩ := TransGen.head'_iff.1 hcycle
  rcases hreach with rfl | rfl
  · obtain rfl := hlist hqt
    rcases ReflTransGen.cases_head htq with heq | ⟨o, ho, -⟩
    · exact absurd heq (by decide)
    · exact hitem o ho
  · exact hitem t hqt

end SmallSession

end Registry

end SchemaCatalog
