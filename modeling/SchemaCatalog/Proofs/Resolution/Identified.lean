import SchemaCatalog.Proofs.Resolution.Correspondence
import SchemaCatalog.Proofs.Resolution.Discipline

/-!
# Every node has an identity

Whether two places of a tree are one shared node is told by identities, so it can be told only
where nodes have them.  What a registry keeps or finds and what resolution returns is `Identified`:
every node of it has an identity.  Trees get them when they enter a registry, root and all, and
each node that resolution makes gets one of its own.  Together with a roster, in which no identity
stands for two nodes, the identities then tell the nodes of a tree apart
(`Node.Identified.eq_of_identity_eq`).

`Resolver.Serving` is the life of a resolver together with the trees that its user was given:
documents are registered, places are looked up, named and resolved.  All these trees are identified
and listed in one roster (`Resolver.Serving.keyed`).
-/

namespace SchemaCatalog

open Resolution

/-! ## Trees -/

lemma Counted.identity_ne_none {next after : Nat} {ns : List Node} (h : Counted next ns after) :
    ∀ n ∈ ns, n.identity ≠ none := by
  induction h with
  | nil => exact fun _ hn => absurd hn List.not_mem_nil
  | cons head _ ih =>
    refine List.forall_mem_cons.2 ⟨?_, ih⟩
    rw [head]
    exact Option.some_ne_none _

namespace Node

/-- Whether every node of a tree has an identity. -/
def Identified (n : Node) : Prop := ∀ c ∈ n.nodes, c.identity ≠ none

lemma identified_label (n : Node) (next : Nat) : (n.label next).1.Identified :=
  (n.counted_label next).identity_ne_none

/-- Two listed trees have different identities at their roots. -/
lemma Listed.eq_of_identity_eq {W : Roster} {n c : Node} (hn : n.Listed W) (hc : c.Listed W)
    (hidentity : c.identity ≠ none) (h : n.identity = c.identity) : n = c := by
  obtain ⟨i, hi⟩ := Option.ne_none_iff_exists'.1 hidentity
  have hnc : some n = some c := by
    rw [← hn n n.self_mem_nodes i (h.trans hi), hc c c.self_mem_nodes i hi]
  exact Option.some.inj hnc

namespace Identified

variable {n c : Node} {W : Roster}

lemma self (h : n.Identified) : n.identity ≠ none := h n n.self_mem_nodes

lemma of_mem_nodes (h : n.Identified) (hc : c ∈ n.nodes) : c.Identified :=
  fun d hd => h d (mem_nodes_trans hc hd)

lemma nested (h : n.Identified) {k : Keyword} (hk : k ∈ n.keywords) (hc : c ∈ k.nested) :
    c.Identified :=
  h.of_mem_nodes (mem_nodes_of_nested hk hc (self_mem_nodes c))

lemma of_nested (self : n.identity ≠ none)
    (nested : ∀ k ∈ n.keywords, ∀ c ∈ k.nested, c.Identified) : n.Identified := by
  intro c hc
  rcases mem_nodes.1 hc with rfl | ⟨k, hk, d, hd, hc⟩
  · exact self
  · exact nested k hk d hd c hc

lemma eq_of_identity_eq (h : n.Identified) (listed : n.Listed W) {d : Node} (hc : c ∈ n.nodes)
    (hd : d ∈ n.nodes) (hidentity : c.identity = d.identity) : c = d :=
  (listed.of_mem_nodes hc).eq_of_identity_eq (listed.of_mem_nodes hd) (h d hd) hidentity

end Identified

end Node

/-! ## Registries -/

/-- Whether every node of what a registry keeps has an identity. -/
structure Registry.Identified (r : Registry) : Prop where
  documents : ∀ e ∈ r.documents, e.2.Identified
  anchors : ∀ e ∈ r.anchors, e.2.Identified

namespace Registry

variable {r : Registry} {n : Node}

lemma adopt_of_identity_ne_none (h : n.identity ≠ none) : r.adopt n = (n, r) := by
  unfold adopt
  split
  · rfl
  · exact absurd ‹_› h

lemma identified_adopt (hn : n.identity = none ∨ n.Identified) : (r.adopt n).1.Identified := by
  rcases hn with hn | hn
  · unfold adopt
    rw [hn]
    exact n.identified_label r.nextIdentity
  · rw [adopt_of_identity_ne_none hn.self]
    exact hn

lemma identified_renew (hn : ∀ k ∈ n.keywords, ∀ c ∈ k.nested, c.Identified) :
    (r.renew n).1.Identified :=
  .of_nested (Option.some_ne_none _) hn

/-- What a fragment names is a node of the document, or it has no identity yet. -/
lemma identity_of_placeIn {doc : Node} {fragment : String} (hdoc : doc.Identified)
    (h : placeIn doc fragment = some n) : n.identity = none ∨ n.Identified := by
  rcases placeIn_cases h with hn | ⟨l, -, a, -, path, hn⟩
  · exact .inr (hdoc.of_mem_nodes hn)
  · cases a with
    | unrecognized name v =>
      simp only [Facet.at?, Option.bind_eq_bind, Option.bind_eq_some_iff] at hn
      obtain ⟨u, -, hn⟩ := hn
      obtain ⟨b, -, rfl⟩ | ⟨members, ks, -, rfl, -⟩ := Node.decode_cases (toOption_eq_some.1 hn)
      · exact .inl rfl
      · exact .inl rfl
    | _ => simp [Facet.at?] at hn

namespace Identified

lemma start (source : Option (Address → Option ByteArray)) : Identified { source } where
  documents _ he := absurd he List.not_mem_nil
  anchors _ he := absurd he List.not_mem_nil

variable (h : r.Identified)
include h

lemma register (address : Address) (n : Node) :
    (r.register address n).2.Identified ∧ (r.register address n).1.Identified := by
  have hlabel :=
    Node.identified_label { n with base := some address.withoutFragment } r.nextIdentity
  refine ⟨⟨fun e he => ?_, h.anchors⟩, hlabel⟩
  rcases OrderedMap.eq_or_mem_of_mem_insert he with rfl | he
  · exact hlabel
  · exact h.documents e he

lemma adopt (n : Node) : (r.adopt n).2.Identified := by
  unfold Registry.adopt
  split
  · exact h
  · exact ⟨h.documents, h.anchors⟩

lemma setAnchor (address : Address) (name : String) (hn : n.Identified) :
    (r.setAnchor address name n).Identified := by
  refine ⟨h.documents, fun e he => ?_⟩
  rcases OrderedMap.eq_or_mem_of_mem_insert he with rfl | he
  · exact hn
  · exact h.anchors e he

lemma setAnchors (address : Address) (hn : n.Identified) : (r.setAnchors address n).Identified := by
  unfold Registry.setAnchors
  induction n.anchors generalizing r with
  | nil => exact h
  | cons name names ih => exact ih (h.setAnchor address name hn)

/-- Asking for a document identifies the tree of that document. -/
lemma document (address : Address) : ((document address).run.run r).2.Identified ∧
    ∀ n, ((document address).run.run r).1 = .ok n → n.Identified := by
  have hrequest : (r.request address.withoutFragment).2.Identified := by
    unfold request
    cases r.source <;> exact ⟨h.documents, h.anchors⟩
  rcases document_cases r address with ⟨n, hkept, hrun⟩ | ⟨-, ⟨-, hrun⟩ |
    ⟨bytes, -, ⟨e, -, hrun⟩ | ⟨n, -, hrun⟩⟩⟩
  all_goals
    rw [hrun]
  · refine ⟨h, fun m hm => ?_⟩
    exact Except.ok.inj hm ▸ h.documents _ (OrderedMap.mem_of_get?_eq_some hkept)
  · exact ⟨hrequest, fun n hn => by cases hn⟩
  · exact ⟨hrequest, fun n hn => by cases hn⟩
  · obtain ⟨hregistry, hnode⟩ := hrequest.register address.withoutFragment n
    exact ⟨hregistry, fun m hm => Except.ok.inj hm ▸ hnode⟩

/-- **What a look-up finds is identified.** -/
theorem lookup (address : Address) (fragment : String) :
    ((lookup address fragment).run.run r).2.Identified ∧
      ∀ n, ((lookup address fragment).run.run r).1 = .ok n → n.Identified := by
  obtain ⟨hregistry, hfound⟩ := h.document address
  rcases lookup_cases r address fragment with ⟨e, r₁, hrun₁, hrun⟩ | ⟨doc, r₁, hrun₁,
    ⟨n, hanchor, hrun⟩ | ⟨-, ⟨-, hrun⟩ | ⟨n, hplace, hrun⟩⟩⟩
  all_goals
    rw [hrun₁] at hregistry hfound
    rw [hrun]
  · exact ⟨hregistry, fun n hn => by cases hn⟩
  · refine ⟨hregistry, fun m hm => ?_⟩
    exact Except.ok.inj hm ▸ hregistry.anchors _ (OrderedMap.mem_of_get?_eq_some hanchor)
  · exact ⟨hregistry, fun n hn => by cases hn⟩
  · refine ⟨hregistry.adopt n, fun m hm => ?_⟩
    exact Except.ok.inj hm ▸ identified_adopt (identity_of_placeIn (hfound doc rfl) hplace)

end Identified

end Registry

/-! ## Resolution -/

/-- Whether every node of what a resolver keeps has an identity. -/
structure Resolver.Identified (s : Resolver) : Prop where
  registry : s.registry.Identified
  expansions : ∀ e ∈ s.expansions, e.2.Identified

namespace Resolver.Identified

variable {s : Resolver}

lemma withRegistry (h : s.Identified) {r : Registry} (hr : r.Identified) :
    (s.withRegistry r).Identified :=
  ⟨hr, h.expansions⟩

lemma keep (h : s.Identified) (place : Address) (fragment : String) {n : Node}
    (hn : n.Identified) : (s.keep place fragment n).Identified := by
  refine ⟨?_, fun e he => ?_⟩
  · unfold Resolver.keep
    dsimp only
    split
    · exact h.registry
    · exact h.registry.setAnchor _ _ hn
  · rcases OrderedMap.eq_or_mem_of_mem_insert he with rfl | he
    · exact hn
    · exact h.expansions e he

end Resolver.Identified

namespace Resolution

/-- The discipline of resolvers that keep nothing but identified trees. -/
def identified : Discipline where
  inv := Resolver.Identified
  later _ _ := True
  refl _ := trivial
  trans _ _ := trivial

/-- Whether a program leaves nothing but identified trees behind, and what it returns has a
property. -/
abbrev Identifies {α : Type} (x : Resolution α) (s : Resolver) (P : α → Prop) : Prop :=
  identified.logic.ensures x s (fun a _ => P a) fun _ => True

section Operations

variable {α : Type} {s : Resolver} {n : Node} {place document : Address}

lemma identifies_get : Identifies get s Resolver.Identified := fun hs => ⟨hs, trivial, hs⟩

lemma identifies_ofExcept (a : Except ResolveError α) :
    Identifies (Resolution.ofExcept a) s fun _ => True :=
  Logic.ofExcept (fun _ _ => trivial) fun _ _ => trivial

lemma identifies_modify {f : Resolver → Resolver} (hf : ∀ s, s.Identified → (f s).Identified) :
    Identifies (modify f) s fun _ => True := fun hs => ⟨hf s hs, trivial, trivial⟩

lemma identifies_fresh (hn : ∀ k ∈ n.keywords, ∀ c ∈ k.nested, c.Identified) :
    Identifies (fresh n) s Node.Identified := by
  intro hs
  rw [ensures_fresh]
  exact ⟨hs.withRegistry ⟨hs.registry.documents, hs.registry.anchors⟩, trivial,
    Registry.identified_renew hn⟩

lemma identifies_setAnchors (current : Address) (hn : n.Identified) :
    Identifies (setAnchors current n) s fun _ => True := by
  intro hs
  rw [ensures_setAnchors]
  exact ⟨hs.withRegistry (hs.registry.setAnchors current hn), trivial, trivial⟩

lemma identifies_lookup (address : Address) (fragment : String) :
    Identifies (lift (Registry.lookup address fragment)) s Node.Identified := by
  intro hs
  obtain ⟨hregistry, hfound⟩ := hs.registry.lookup address fragment
  unfold Ensures
  rw [outcome_lift]
  rcases hrun : (Registry.lookup address fragment).run.run s.registry with ⟨e | raw, r⟩
  all_goals
    rw [hrun] at hregistry hfound
  · exact ⟨hs.withRegistry hregistry, trivial, trivial⟩
  · exact ⟨hs.withRegistry hregistry, trivial, hfound raw rfl⟩

lemma identifies_inside {x : Resolution Node}
    (hx : ∀ s, Identifies x s Node.Identified) :
    Identifies (inside place x) s fun p => p.1.Identified := by
  intro hs
  rw [ensures_inside]
  have henter : (s.enter place).Identified := ⟨hs.registry, hs.expansions⟩
  refine (hx (s.enter place) henter).mono ?_ ?_
  · exact fun m s' ⟨hs', _, hm⟩ => ⟨⟨hs'.registry, hs'.expansions⟩, trivial, hm⟩
  · exact fun e s' ⟨hs', _, _⟩ => ⟨⟨hs'.registry, hs'.expansions⟩, trivial, trivial⟩

lemma identifies_rawAt : Identifies (rawAt place) s fun p => p.1.Identified := by
  refine identified.logic.bind (identifies_ofExcept _) fun fragment s₁ _ _ => ?_
  refine identified.logic.bind (identifies_lookup place.withoutFragment fragment) ?_
  exact fun raw s₂ _ hraw => identified.logic.pure hraw

lemma identifies_followAliases (limit : Nat) (seen : List Address) (hn : n.Identified) :
    Identifies (followAliases limit seen n document) s fun p => p.1.Identified := by
  induction limit generalizing seen n document s with
  | zero => exact identified.logic.throw trivial
  | succ limit ih =>
    rw [followAliases]
    split
    case h_1 reference _ =>
      refine identified.logic.bind (identifies_ofExcept _) fun target s₁ _ _ => ?_
      split
      · exact identified.logic.pure hn
      · refine identified.logic.bind identifies_rawAt ?_
        rintro ⟨raw, document⟩ s₂ _ hraw
        exact ih (target.place :: seen) hraw
    case h_2 => exact identified.logic.pure hn

/-- A stub has no schemas below. -/
lemma identifies_closeCycle (limit depth : Nat) (hn : n.Identified) :
    Identifies (closeCycle limit depth n document) s Node.Identified := by
  refine identified.logic.bind (identifies_modify fun s hs => ⟨hs.registry, hs.expansions⟩) ?_
  intro _ s₁ _ _
  refine identified.logic.bind (identifies_followAliases limit [] hn) ?_
  rintro ⟨raw, document⟩ s₂ _ -
  refine identifies_fresh fun k hk c hc => ?_
  have hfacet : k.isFacet = true := (List.mem_filter.1 hk).2
  cases k with
  | facet a => exact absurd hc List.not_mem_nil
  | _ => cases hfacet

end Operations

section Trees

variable {expand : Address → Resolution Node} {current : Address}

/-- A node that is put together from identified trees is identified. -/
lemma identifies_assemble {s : Resolver} (hexpand : ∀ t s, Identifies (expand t) s Node.Identified)
    (n : Node) {ks : List Keyword} (hks : ∀ k ∈ ks, ∀ c ∈ k.nested, c.Identified) :
    Identifies (assemble expand current n ks) s Node.Identified := by
  rw [assemble]
  split
  case h_1 => exact identifies_fresh hks
  case h_2 reference _ =>
    refine identified.logic.bind (identifies_ofExcept _) fun target s₁ _ _ => ?_
    refine identified.logic.bind (hexpand target s₁) fun found s₂ _ hfound => ?_
    split
    case h_1 => exact identified.logic.pure hfound
    case h_2 =>
      refine identifies_fresh fun k hk c hc => ?_
      rcases List.mem_append.1 hk with hk | hk
      · exact hks k (List.mem_filter.1 hk).1 c hc
      · exact hfound.nested hk hc
  case h_3 => exact identified.logic.throw trivial

/-- The expansion of an identified tree is identified if those of targets are. -/
lemma identifies_expandNode (hexpand : ∀ t s, Identifies (expand t) s Node.Identified) {n : Node}
    (hn : n.Identified) (s : Resolver) :
    Identifies (expandNode expand current n) s Node.Identified := by
  induction n using Node.induction_nested generalizing s with
  | step n ih =>
    refine Logic.expandNode_of_nested (R := fun _ _ r => r.Identified) (fun _ _ _ _ _ h => h)
      (fun k hk c hc s => ih k hk c hc (hn.nested hk hc) s)
      (fun s => identifies_setAnchors current hn) (fun _ _ => hn) (fun s ks hks => ?_) s
    refine identifies_assemble hexpand n fun k hk c hc => ?_
    obtain ⟨_, hc⟩ := Keyword.exists_rel_nested hks hk hc
    exact hc

end Trees

/-- **What a target expands to is identified.** -/
theorem identifies_expandTarget (limit : Nat) (target : Address) (s : Resolver) :
    Identifies (expandTarget limit target) s Node.Identified := by
  induction limit generalizing target s with
  | zero => exact identified.logic.throw trivial
  | succ limit ih =>
    rw [expandTarget]
    refine identified.logic.bind identifies_get fun s₁ s₂ _ hs₁ => ?_
    cases hkept : OrderedMap.get? s₁.expansions target.place with
    | some n =>
      exact identified.logic.pure (hs₁.expansions _ (OrderedMap.mem_of_get?_eq_some hkept))
    | none =>
      refine identified.logic.bind (identifies_ofExcept _) fun fragment s₃ _ _ => ?_
      refine identified.logic.bind identifies_rawAt ?_
      rintro ⟨raw, document⟩ s₄ _ hraw
      refine identified.logic.bind identifies_get fun s₅ s₆ _ _ => ?_
      dsimp only
      split
      · exact identifies_closeCycle limit _ hraw
      · refine identified.logic.bind
          (identifies_inside fun s => identifies_expandNode ih hraw s) ?_
        rintro ⟨n, complete⟩ s₇ _ hn
        dsimp only
        split
        · refine identified.logic.bind
            (identifies_modify fun s hs => hs.keep target.place fragment hn) ?_
          exact fun _ s₈ _ _ => identified.logic.pure hn
        · exact identified.logic.pure hn

end Resolution

/-! ## What the user of a resolver is given -/

namespace Resolver

/-- A resolver in use, and the trees that its user was given. -/
inductive Serving : Resolver → List Node → Prop where
  /-- A registry starts empty, with any source or none. -/
  | start (source : Option (Address → Option ByteArray)) : Serving (.ofRegistry { source }) []
  /-- A document is registered. -/
  | register {s : Resolver} {given : List Node} (address : Address) (n : Node) :
      Serving s given →
      Serving (s.withRegistry (s.registry.register address n).2)
        ((s.registry.register address n).1 :: given)
  /-- A tree that is new enters the registry. -/
  | adopt {s : Resolver} {given : List Node} {n : Node} (new : ∀ c ∈ n.nodes, c.identity = none) :
      Serving s given →
      Serving (s.withRegistry (s.registry.adopt n).2) ((s.registry.adopt n).1 :: given)
  /-- A tree in hand gets a name. -/
  | setAnchor {s : Resolver} {given : List Node} (address : Address) (name : String) {n : Node}
      (hn : n ∈ given) : Serving s given →
      Serving (s.withRegistry (s.registry.setAnchor address name n)) given
  /-- A document is asked for, successfully or not. -/
  | raw {s : Resolver} {given : List Node} (address : Address) : Serving s given →
      Serving (s.withRegistry ((Registry.document address).run.run s.registry).2)
        (((Registry.document address).run.run s.registry).1.toOption.toList ++ given)
  /-- A place is looked up, successfully or not. -/
  | lookup {s : Resolver} {given : List Node} (address : Address) (fragment : String) :
      Serving s given →
      Serving (s.withRegistry ((Registry.lookup address fragment).run.run s.registry).2)
        (((Registry.lookup address fragment).run.run s.registry).1.toOption.toList ++ given)
  /-- A document is resolved, successfully or not. -/
  | document {s : Resolver} {given : List Node} (limit : Nat) (address : Address) :
      Serving s given →
      Serving (outcome (Resolution.document limit address) s).2
        ((outcome (Resolution.document limit address) s).1.toOption.toList ++ given)
  /-- A tree in hand is resolved as part of a document, successfully or not. -/
  | node {s : Resolver} {given : List Node} (limit : Nat) (current : Address) {n : Node}
      (hn : n ∈ given) : Serving s given →
      Serving (outcome (Resolution.node limit n current) s).2
        ((outcome (Resolution.node limit n current) s).1.toOption.toList ++ given)
  /-- Another resolver takes over the registry. -/
  | restart {s : Resolver} {given : List Node} : Serving s given →
      Serving (.ofRegistry s.registry) given

/-- Whether a resolver and trees are identified, and no identity stands for two of their nodes. -/
structure Keyed (s : Resolver) (given : List Node) : Prop where
  identified : s.Identified
  listed : ∃ W, Like W s s ∧ ∀ n ∈ given, n.Listed W
  given : ∀ n ∈ given, n.Identified

namespace Keyed

variable {s s' : Resolver} {given : List Node}

/-- A step that lists what it gives in a roster that has grown. -/
lemma step (h : s.Keyed given) (result : Except ResolveError Node) (identified : s'.Identified)
    (listed : ∀ W, Like W s s → (∀ n ∈ given, n.Listed W) → ∃ W', W.Grows W' ∧ Like W' s' s' ∧
      ∀ n, result = .ok n → n.Listed W')
    (hresult : ∀ n, result = .ok n → n.Identified) :
    s'.Keyed (result.toOption.toList ++ given) := by
  obtain ⟨W, like, hgiven⟩ := h.listed
  obtain ⟨W', grows, like', hnew⟩ := listed W like hgiven
  have hok : ∀ n ∈ result.toOption.toList, result = .ok n := fun n hn =>
    toOption_eq_some.1 (Option.mem_toList.1 hn)
  refine ⟨identified, ⟨W', like', fun n hn => ?_⟩, fun n hn => ?_⟩
  · rcases List.mem_append.1 hn with hn | hn
    · exact hnew n (hok n hn)
    · exact (hgiven n hn).mono grows
  · rcases List.mem_append.1 hn with hn | hn
    · exact hresult n (hok n hn)
    · exact h.given n hn

/-- A step that concerns the registry alone. -/
lemma onRegistry {x : Except ResolveError Node × Registry} (h : s.Keyed given)
    (identified : x.2.Identified ∧ ∀ n, x.1 = .ok n → n.Identified)
    (coherent : ∀ W, s.registry.CoherentIn W → ∃ W', W.Grows W' ∧ x.2.CoherentIn W' ∧
      ∀ n, x.1 = .ok n → n.Listed W') :
    (s.withRegistry x.2).Keyed (x.1.toOption.toList ++ given) := by
  refine h.step x.1 (h.identified.withRegistry identified.1) (fun W like _ => ?_) identified.2
  obtain ⟨W', grows, hcoherent, hlisted⟩ := coherent W like.coherent
  exact ⟨W', grows, like.withRegistry grows hcoherent (.refl _), hlisted⟩

/-- A step of resolution. -/
lemma resolve {x : Resolution Node} (h : s.Keyed given)
    (identifies : Identifies x s Node.Identified)
    (corresponds : ∀ W, (∀ n ∈ given, n.Listed W) → Corresponds W s s x x Node.Matches) :
    (outcome x s).2.Keyed ((outcome x s).1.toOption.toList ++ given) := by
  have hidentified : (outcome x s).2.Identified ∧
      ∀ n, (outcome x s).1 = .ok n → n.Identified := by
    have hx := identifies h.identified
    rcases hrun : outcome x s with ⟨e | m, s'⟩
    · exact ⟨(hx.of_error hrun).1, fun n hn => by cases hn⟩
    · obtain ⟨hs', -, hm⟩ := hx.of_ok hrun
      exact ⟨hs', fun n hn => Except.ok.inj hn ▸ hm⟩
  refine h.step _ hidentified.1 (fun W like hgiven => ?_) hidentified.2
  obtain ⟨W', grows, like', result⟩ := corresponds W hgiven like
  refine ⟨W', grows, like', fun n hn => ?_⟩
  rw [hn] at result
  cases result with
  | ok hmatches => exact hmatches.listed

end Keyed

/-- **Whatever a resolver gives is identified, and no identity stands for two nodes of it.** -/
theorem Serving.keyed {s : Resolver} {given : List Node} (h : s.Serving given) :
    s.Keyed given := by
  induction h with
  | start source =>
    obtain ⟨W, hcoherent⟩ := Registry.coherent_source source
    exact ⟨⟨.start source, fun _ he => absurd he List.not_mem_nil⟩,
      ⟨W, .ofRegistry hcoherent, fun _ hn => absurd hn List.not_mem_nil⟩,
      fun _ hn => absurd hn List.not_mem_nil⟩
  | @register s given address n _ ih =>
    obtain ⟨hregistry, hnode⟩ := ih.identified.registry.register address n
    refine ih.onRegistry (x := (.ok (s.registry.register address n).1, _))
      ⟨hregistry, fun m hm => Except.ok.inj hm ▸ hnode⟩ fun W hW => ?_
    obtain ⟨W', grows, hcoherent, hlisted⟩ := hW.register address n
    exact ⟨W', grows, hcoherent, fun m hm => Except.ok.inj hm ▸ hlisted⟩
  | @adopt s given n new _ ih =>
    have hnode := Registry.identified_adopt (r := s.registry) (.inl (new n n.self_mem_nodes))
    refine ih.onRegistry (x := (.ok (s.registry.adopt n).1, _))
      ⟨ih.identified.registry.adopt n, fun m hm => Except.ok.inj hm ▸ hnode⟩ fun W hW => ?_
    obtain ⟨W', grows, hcoherent, hlisted⟩ := hW.adopt (n := n)
      fun c hc i hi => by rw [new c hc] at hi; cases hi
    exact ⟨W', grows, hcoherent, fun m hm => Except.ok.inj hm ▸ hlisted⟩
  | setAnchor address name hn _ ih =>
    obtain ⟨W, like, hgiven⟩ := ih.listed
    have hcoherent := like.coherent.setAnchor address name (hgiven _ hn)
    exact ⟨ih.identified.withRegistry (ih.identified.registry.setAnchor _ _ (ih.given _ hn)),
      ⟨W, like.withRegistry (.refl W) hcoherent (.refl _), hgiven⟩, ih.given⟩
  | raw address _ ih =>
    exact ih.onRegistry (ih.identified.registry.document address) fun W hW => hW.document address
  | lookup address fragment _ ih =>
    exact ih.onRegistry (ih.identified.registry.lookup address fragment)
      fun W hW => hW.lookup address fragment
  | document limit address _ ih =>
    exact ih.resolve (identifies_expandTarget limit address.withoutFragment _)
      fun _ _ => corresponds_document limit address
  | @node s given limit current n hn _ ih =>
    have hidentified : n.Identified := ih.given n hn
    have hnode : outcome (Resolution.node limit n current) s =
        outcome (expandNode (expandTarget limit) current n) s := by
      rw [Resolution.node, outcome_bind, outcome_onRegistry,
        Registry.adopt_of_identity_ne_none hidentified.self]
      rfl
    rw [hnode]
    exact ih.resolve (identifies_expandNode (identifies_expandTarget limit) hidentified s)
      fun W hgiven => corresponds_expandNode (fun _ _ _ => corresponds_expandTarget limit) n
        W s s n ⟨hgiven n hn, rfl⟩
  | restart _ ih =>
    obtain ⟨W, like, hgiven⟩ := ih.listed
    exact ⟨⟨ih.identified.registry, fun _ he => absurd he List.not_mem_nil⟩,
      ⟨W, .ofRegistry like.coherent, hgiven⟩, ih.given⟩

end Resolver

end SchemaCatalog
