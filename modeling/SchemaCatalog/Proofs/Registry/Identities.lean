import SchemaCatalog.Proofs.Registry.Content
import SchemaCatalog.Proofs.Schema.Parts

/-!
# What identities stand for

An identity is a number, and it is there so that a node that occurs in many places can be known
for one.  That is sound as long as no two nodes have the same one.  A `Roster` says which node
each identity stands for, and a tree is `Listed` if it is that node wherever it carries an
identity.  A registry is `Coherent` if one roster covers all that it has and the count of
identities is ahead of it.

Every operation lists new nodes under new identities at most, so the roster grows
(`Roster.Grows`) and what was listed before remains so; `CoherentIn.lookup` is the case of a
look-up.  Therefore a registry that is made by its operations is coherent (`Made.coherent`).
-/

namespace SchemaCatalog

/-- Which node each identity stands for. -/
def Roster := Nat → Option Node

namespace Roster

/-- Whether all identities that stand for a node come before a count. -/
def Below (W : Roster) (next : Nat) : Prop := ∀ i n, W i = some n → i < next

/-- Whether each identity that stands for a node still does. -/
def Grows (W W' : Roster) : Prop := ∀ i n, W i = some n → W' i = some n

variable {W W' W'' : Roster}

lemma Grows.refl (W : Roster) : W.Grows W := fun _ _ h => h

lemma Grows.trans (h : W.Grows W') (h' : W'.Grows W'') : W.Grows W'' :=
  fun i n hn => h' i n (h i n hn)

/-- The roster with nodes under their identities, which are not below `next`. -/
def extend (W : Roster) (next : Nat) (ns : List Node) : Roster := fun i =>
  if i < next then W i else ns.find? fun n => n.identity = some i

lemma Below.grows_extend {next : Nat} (h : W.Below next) (ns : List Node) :
    W.Grows (W.extend next ns) := by
  intro i n hn
  rw [extend, if_pos (h i n hn), hn]

end Roster

/-! ## Counting -/

/-- Nodes that have, in order, the identities from one count up to another. -/
inductive Counted : Nat → List Node → Nat → Prop where
  | nil {next : Nat} : Counted next [] next
  | cons {next after : Nat} {n : Node} {ns : List Node} (head : n.identity = some next)
      (tail : Counted (next + 1) ns after) : Counted next (n :: ns) after

namespace Counted

variable {next middle after : Nat} {ns ms : List Node}

lemma append (h : Counted next ns middle) (h' : Counted middle ms after) :
    Counted next (ns ++ ms) after := by
  induction h with
  | nil => exact h'
  | cons head _ ih => exact .cons head (ih h')

lemma le (h : Counted next ns after) : next ≤ after := by
  induction h with
  | nil => exact Nat.le_refl _
  | cons _ _ ih => exact Nat.le_of_succ_le ih

lemma identity_lt (h : Counted next ns after) {n : Node} (hn : n ∈ ns) {i : Nat}
    (hi : n.identity = some i) : next ≤ i ∧ i < after := by
  induction h with
  | nil => exact absurd hn List.not_mem_nil
  | cons head tail ih =>
    rcases List.mem_cons.1 hn with rfl | hn
    · obtain rfl := Option.some.inj (head.symm.trans hi)
      exact ⟨Nat.le_refl _, tail.le⟩
    · exact ⟨Nat.le_of_succ_le (ih hn).1, (ih hn).2⟩

lemma nodup_identities (h : Counted next ns after) : (ns.map Node.identity).Nodup := by
  induction h with
  | nil => exact List.nodup_nil
  | @cons next after n ns head tail ih =>
    refine List.nodup_cons.2 ⟨fun hmem => ?_, ih⟩
    obtain ⟨m, hm, hidentity⟩ := List.mem_map.1 hmem
    have hle := (tail.identity_lt hm (hidentity.trans head)).1
    exact absurd hle (Nat.not_succ_le_self next)

/-- Each of the nodes is the first with its identity. -/
lemma find?_eq (h : Counted next ns after) {n : Node} (hn : n ∈ ns) {i : Nat}
    (hi : n.identity = some i) : (ns.find? fun m => m.identity = some i) = some n := by
  induction h with
  | nil => exact absurd hn List.not_mem_nil
  | @cons next after m ns head tail ih =>
    rw [List.find?_cons]
    rcases List.mem_cons.1 hn with rfl | hn
    · rw [decide_eq_true hi]
    · have hne : m.identity ≠ some i := by
        intro heq
        have hle := (tail.identity_lt hn hi).1
        rw [head] at heq
        obtain rfl := Option.some.inj heq
        exact absurd hle (Nat.not_succ_le_self _)
      rw [decide_eq_false hne]
      exact ih hn

end Counted

/-- Counted nodes can be listed. -/
lemma Roster.extend_counted (W : Roster) {next after : Nat} {ns : List Node}
    (hns : Counted next ns after) :
    (W.extend next ns).Below after ∧
      ∀ c ∈ ns, ∀ i, c.identity = some i → W.extend next ns i = some c := by
  constructor
  · intro i n hn
    unfold extend at hn
    split at hn
    · exact Nat.lt_of_lt_of_le ‹_› hns.le
    · have hi := List.find?_some hn
      exact (hns.identity_lt (List.mem_of_find?_eq_some hn) (of_decide_eq_true hi)).2
  · intro c hc i hi
    unfold extend
    rw [if_neg (Nat.not_lt.2 (hns.identity_lt hc hi).1)]
    exact hns.find?_eq hc hi

namespace Node

variable {W W' : Roster} {n : Node}

/-! ## Labels count -/

lemma counted_labelMembers {members : List (String × Node)}
    (h : ∀ c ∈ OrderedMap.values members, ∀ next, Counted next (c.label next).1.nodes
      (c.label next).2) (next : Nat) :
    Counted next (membersNodes (labelMembers next members).1) (labelMembers next members).2 := by
  induction members generalizing next with
  | nil => exact .nil
  | cons e members ih =>
    obtain ⟨hc, hmembers⟩ := List.forall_mem_cons.1 h
    exact (hc next).append (ih hmembers _)

lemma counted_labelSchemas {schemas : List Node}
    (h : ∀ c ∈ schemas, ∀ next, Counted next (c.label next).1.nodes (c.label next).2)
    (next : Nat) :
    Counted next (schemasNodes (labelSchemas next schemas).1) (labelSchemas next schemas).2 := by
  induction schemas generalizing next with
  | nil => exact .nil
  | cons c schemas ih =>
    obtain ⟨hc, hschemas⟩ := List.forall_mem_cons.1 h
    exact (hc next).append (ih hschemas _)

lemma counted_labelKeyword {k : Keyword}
    (h : ∀ c ∈ k.nested, ∀ next, Counted next (c.label next).1.nodes (c.label next).2)
    (next : Nat) :
    Counted next (keywordNodes (labelKeyword next k).1) (labelKeyword next k).2 := by
  cases k with
  | keyed kind members => exact counted_labelMembers h next
  | ordered kind schemas => exact counted_labelSchemas h next
  | additionalProperties schema => exact h schema (by simp [Keyword.nested]) next
  | ref target => exact .nil
  | facet a => exact .nil

lemma counted_labelKeywords {ks : List Keyword}
    (h : ∀ k ∈ ks, ∀ c ∈ k.nested, ∀ next, Counted next (c.label next).1.nodes (c.label next).2)
    (next : Nat) :
    Counted next (keywordsNodes (labelKeywords next ks).1) (labelKeywords next ks).2 := by
  induction ks generalizing next with
  | nil => exact .nil
  | cons k ks ih =>
    obtain ⟨hk, hks⟩ := List.forall_mem_cons.1 h
    exact (counted_labelKeyword hk next).append (ih hks _)

/-- The nodes of a labelled tree have their identities in order. -/
theorem counted_label (n : Node) (next : Nat) :
    Counted next (n.label next).1.nodes (n.label next).2 := by
  induction n using induction_nested generalizing next with
  | step n ih =>
    obtain ⟨identity, truth, base, keywords⟩ := n
    exact .cons rfl (counted_labelKeywords ih (next + 1))

/-! ## Listed trees -/

/-- Whether every node of a tree that has an identity is the node that it stands for. -/
def Listed (W : Roster) (n : Node) : Prop := ∀ c ∈ n.nodes, ∀ i, c.identity = some i → W i = some c

namespace Listed

lemma mono (h : n.Listed W) (grows : W.Grows W') : n.Listed W' :=
  fun c hc i hi => grows i c (h c hc i hi)

lemma of_mem_nodes (h : n.Listed W) {c : Node} (hc : c ∈ n.nodes) : c.Listed W :=
  fun d hd => h d (mem_nodes_trans hc hd)

lemma nested (h : n.Listed W) {k : Keyword} (hk : k ∈ n.keywords) {c : Node}
    (hc : c ∈ k.nested) : c.Listed W :=
  h.of_mem_nodes (mem_nodes_of_nested hk hc (self_mem_nodes c))

/-- A tree is listed if its root and the schemas below are. -/
lemma of_nested (self : ∀ i, n.identity = some i → W i = some n)
    (nested : ∀ k ∈ n.keywords, ∀ c ∈ k.nested, c.Listed W) : n.Listed W := by
  intro c hc
  rcases mem_nodes.1 hc with rfl | ⟨k, hk, d, hd, hc⟩
  · exact self
  · exact nested k hk d hd c hc

/-- What is decoded has no identities. -/
lemma of_decode {v : Json} (h : decode v = .ok n) : n.Listed W := by
  have hparts : n.Throughout fun c => ∃ u, decode u = .ok c := by
    intro c hc
    induction hc with
    | refl => exact ⟨v, h⟩
    | tail _ hpart ih =>
      obtain ⟨u, hu⟩ := ih
      obtain ⟨w, hw, -⟩ := decode_part hu hpart
      exact ⟨w, hw⟩
  intro c hc i hi
  obtain ⟨u, hu⟩ := (hparts.of_mem_nodes hc).self
  obtain ⟨b, -, rfl⟩ | ⟨members, ks, -, rfl, -⟩ := decode_cases hu
  · cases hi
  · cases hi

lemma of_ofBytes {bytes : ByteArray} (h : Node.ofBytes bytes = .ok n) : n.Listed W := by
  obtain ⟨v, -, -, hn⟩ := ofBytes_eq_ok_iff.1 h
  exact .of_decode hn

/-- What a fragment names in a listed document is listed. -/
lemma of_placeIn (h : n.Listed W) {fragment : String} {m : Node}
    (hm : Registry.placeIn n fragment = some m) : m.Listed W := by
  rcases Registry.placeIn_cases hm with hm | ⟨l, -, a, -, path, hm⟩
  · exact h.of_mem_nodes hm
  · -- What is buried in plain JSON is decoded when it is named.
    cases a with
    | unrecognized name v =>
      simp only [Facet.at?, Option.bind_eq_bind, Option.bind_eq_some_iff] at hm
      obtain ⟨u, -, hm⟩ := hm
      exact .of_decode (toOption_eq_some.1 hm)
    | _ => simp [Facet.at?] at hm

end Listed

lemma exists_listed_label {next : Nat} (h : W.Below next) (n : Node) :
    ∃ W', W.Grows W' ∧ W'.Below (n.label next).2 ∧ (n.label next).1.Listed W' :=
  ⟨_, h.grows_extend _, W.extend_counted (n.counted_label next)⟩

end Node

/-! ## Coherent registries -/

namespace Registry

/-- Whether a roster covers all that a registry has, and the next identity is free. -/
structure CoherentIn (W : Roster) (r : Registry) : Prop where
  offers : r.Offers (Node.Listed W)
  below : W.Below r.nextIdentity

/-- Whether no identity stands for two nodes of a registry, and the next one is free. -/
def Coherent (r : Registry) : Prop := ∃ W, r.CoherentIn W

variable {W W' : Roster} {r : Registry}

lemma Offers.grows (h : r.Offers (Node.Listed W)) (grows : W.Grows W') :
    r.Offers (Node.Listed W') where
  content a n hn := (h.content a n hn).mono grows
  anchor? a name n hn := (h.anchor? a name n hn).mono grows

/-- An empty registry is coherent, whatever its source. -/
theorem coherent_source (source : Option (Address → Option ByteArray)) :
    Coherent { source } := by
  refine ⟨fun _ => none, ⟨fun a n hn => ?_, fun a name n hn => by cases hn⟩,
    fun i n hn => by cases hn⟩
  unfold content at hn
  split at hn
  case h_1 h => cases h
  case h_2 =>
    split at hn
    · cases hn
    · split at hn
      · cases hn
      · obtain rfl := Except.ok.inj hn
        exact .of_ofBytes ‹_›

namespace CoherentIn

lemma congr {r' : Registry} (h : r.CoherentIn W) (hcontent : ∀ a, r'.content a = r.content a)
    (hanchor : ∀ a name, r'.anchor? a name = r.anchor? a name)
    (hnext : r'.nextIdentity = r.nextIdentity) : r'.CoherentIn W where
  offers.content a n hn := h.offers.content a n (hcontent a ▸ hn)
  offers.anchor? a name n hn := h.offers.anchor? a name n (hanchor a name ▸ hn)
  below := hnext ▸ h.below

variable (h : r.CoherentIn W) {n : Node}
include h

lemma register (address : Address) (n : Node) : ∃ W', W.Grows W' ∧
    (r.register address n).2.CoherentIn W' ∧ (r.register address n).1.Listed W' := by
  obtain ⟨W', grows, below, listed⟩ :=
    Node.exists_listed_label h.below { n with base := some address.withoutFragment }
  exact ⟨W', grows, ⟨(h.offers.grows grows).register listed, below⟩, listed⟩

lemma adopt (hn : n.Listed W) : ∃ W', W.Grows W' ∧
    (r.adopt n).2.CoherentIn W' ∧ (r.adopt n).1.Listed W' := by
  unfold Registry.adopt
  split
  · exact ⟨W, .refl W, h, hn⟩
  · obtain ⟨W', grows, below, listed⟩ := Node.exists_listed_label h.below n
    have hoffers := h.offers.grows grows
    exact ⟨W', grows, ⟨⟨hoffers.content, hoffers.anchor?⟩, below⟩, listed⟩

lemma renew (hn : ∀ k ∈ n.keywords, ∀ c ∈ k.nested, c.Listed W) : ∃ W', W.Grows W' ∧
    (r.renew n).2.CoherentIn W' ∧ (r.renew n).1.Listed W' := by
  have hcounted : Counted r.nextIdentity [(r.renew n).1] (r.renew n).2.nextIdentity :=
    .cons rfl .nil
  have grows := h.below.grows_extend [(r.renew n).1]
  obtain ⟨below, listed⟩ := W.extend_counted hcounted
  have hoffers := h.offers.grows grows
  refine ⟨_, grows, ⟨⟨hoffers.content, hoffers.anchor?⟩, below⟩, ?_⟩
  exact .of_nested (listed _ (List.mem_singleton_self _)) fun k hk c hc => (hn k hk c hc).mono grows

lemma setAnchor (address : Address) (name : String) (hn : n.Listed W) :
    (r.setAnchor address name n).CoherentIn W :=
  ⟨h.offers.setAnchor address name hn, h.below⟩

lemma setAnchors (address : Address) (hn : n.Listed W) : (r.setAnchors address n).CoherentIn W := by
  refine ⟨h.offers.setAnchors address hn, ?_⟩
  have hnext : (r.setAnchors address n).nextIdentity = r.nextIdentity := by
    unfold Registry.setAnchors
    induction n.anchors generalizing r with
    | nil => rfl
    | cons name names ih =>
      rw [List.foldl_cons, ih (h.setAnchor address name hn)]
      rfl
  rw [hnext]
  exact h.below

/-- Asking for a document lists at most the tree of that document. -/
lemma document (address : Address) : ∃ W', W.Grows W' ∧
    ((document address).run.run r).2.CoherentIn W' ∧
    ∀ n, ((document address).run.run r).1 = .ok n → n.Listed W' := by
  have hrequest : (r.request address.withoutFragment).2.CoherentIn W := by
    refine h.congr (content_request r _) (alike_request r _).anchor? ?_
    unfold request
    cases r.source <;> rfl
  rcases document_cases r address with ⟨n, hkept, hrun⟩ | ⟨-, ⟨-, hrun⟩ |
    ⟨bytes, -, ⟨e, -, hrun⟩ | ⟨n, -, hrun⟩⟩⟩
  all_goals
    rw [hrun]
  · refine ⟨W, .refl W, h, fun m hm => h.offers.content address m ?_⟩
    unfold content
    rw [hkept]
    exact hm
  · exact ⟨W, .refl W, hrequest, fun n hn => by cases hn⟩
  · exact ⟨W, .refl W, hrequest, fun n hn => by cases hn⟩
  · obtain ⟨W', grows, hcoherent, hlisted⟩ := hrequest.register address.withoutFragment n
    exact ⟨W', grows, hcoherent, fun m hm => Except.ok.inj hm ▸ hlisted⟩

/-- **A look-up keeps a registry coherent**, and what is found is listed. -/
theorem lookup (address : Address) (fragment : String) : ∃ W', W.Grows W' ∧
    ((lookup address fragment).run.run r).2.CoherentIn W' ∧
    ∀ n, ((lookup address fragment).run.run r).1 = .ok n → n.Listed W' := by
  obtain ⟨W₁, grows₁, hcoherent, hlisted⟩ := h.document address
  rcases lookup_cases r address fragment with ⟨e, r₁, hrun₁, hrun⟩ | ⟨doc, r₁, hrun₁,
    ⟨n, hanchor, hrun⟩ | ⟨-, ⟨-, hrun⟩ | ⟨n, hplace, hrun⟩⟩⟩
  all_goals
    rw [hrun₁] at hcoherent hlisted
    rw [hrun]
  · exact ⟨W₁, grows₁, hcoherent, fun n hn => by cases hn⟩
  · refine ⟨W₁, grows₁, hcoherent, fun m hm => ?_⟩
    exact Except.ok.inj hm ▸ hcoherent.offers.anchor? address fragment n hanchor
  · exact ⟨W₁, grows₁, hcoherent, fun n hn => by cases hn⟩
  · obtain ⟨W₂, grows₂, hcoherent₂, hlisted₂⟩ :=
      hcoherent.adopt ((hlisted doc rfl).of_placeIn hplace)
    exact ⟨W₂, grows₁.trans grows₂, hcoherent₂, fun m hm => Except.ok.inj hm ▸ hlisted₂⟩

end CoherentIn

/-- The registries that the operations make, given new trees and places that they found. -/
inductive Made : Registry → Prop where
  /-- A registry starts empty, with any source or none. -/
  | start (source : Option (Address → Option ByteArray)) : Made { source }
  /-- A document is registered. -/
  | register {r : Registry} (address : Address) (n : Node) :
      Made r → Made (r.register address n).2
  /-- A document is asked for, successfully or not. -/
  | document {r : Registry} (address : Address) :
      Made r → Made ((Registry.document address).run.run r).2
  /-- A place is looked up, successfully or not. -/
  | lookup {r : Registry} (address : Address) (fragment : String) :
      Made r → Made ((Registry.lookup address fragment).run.run r).2
  /-- A new tree gets a name. -/
  | nameNew {r : Registry} (address : Address) (name : String) {n : Node}
      (new : ∀ c ∈ n.nodes, c.identity = none) :
      Made r → Made ((r.adopt n).2.setAnchor address name (r.adopt n).1)
  /-- A place that was found gets a name. -/
  | nameFound {r r' : Registry} (address : Address) (name : String) {n : Node}
      {address' : Address} {fragment : String}
      (found : (Registry.lookup address' fragment).run.run r = (.ok n, r')) :
      Made r → Made (r'.setAnchor address name n)

/-- **A registry that is made by its operations is coherent.** -/
theorem Made.coherent {r : Registry} (h : r.Made) : r.Coherent := by
  induction h with
  | start source => exact coherent_source source
  | register address n _ ih =>
    obtain ⟨W, hr⟩ := ih
    obtain ⟨W', -, hregister, -⟩ := hr.register address n
    exact ⟨W', hregister⟩
  | document address _ ih =>
    obtain ⟨W, hr⟩ := ih
    obtain ⟨W', -, hdocument, -⟩ := hr.document address
    exact ⟨W', hdocument⟩
  | lookup address fragment _ ih =>
    obtain ⟨W, hr⟩ := ih
    obtain ⟨W', -, hlookup, -⟩ := hr.lookup address fragment
    exact ⟨W', hlookup⟩
  | nameNew address name new _ ih =>
    obtain ⟨W, hr⟩ := ih
    obtain ⟨W', -, hadopt, hlisted⟩ := hr.adopt fun c hc i hi => by simp [new c hc] at hi
    exact ⟨W', hadopt.setAnchor address name hlisted⟩
  | nameFound address name found _ ih =>
    obtain ⟨W, hr⟩ := ih
    obtain ⟨W', -, hlookup, hlisted⟩ := hr.lookup _ _
    rw [found] at hlookup hlisted
    exact ⟨W', hlookup.setAnchor address name (hlisted _ rfl)⟩

end Registry

end SchemaCatalog
