import SchemaCatalog.Proofs.Resolution.Compositional
import SchemaCatalog.Proofs.Resolution.ReferenceFree

/-!
# What outlasts a session

A resolver serves any number of calls, and some of them fail: in the middle of a target, with
others open around it, or on the way along a chain of aliases.  Whatever happens, every call leaves
the resolver ready for the next one: no target is in progress and no cut is remembered, every
document and every kept expansion is still there as the same node, and a document that was resolved
once is resolved to the same node ever after (`Resolver.survives_session`).

There are two separate reasons.  Of the registry it is enough to know what the few operations do
that a resolution consists of; a relation that is `Registry.Respected` by them is followed by whole
resolutions.  For the expansions one has to know when they are kept: an expansion is written only
for a target that had none when it was entered, and while a target is in progress nobody else
writes one for it, because whoever comes upon it closes a cycle (`Resolver.Advances`).
-/

namespace SchemaCatalog

open Resolution

/-! ## Registries -/

/-- A relation between a registry and a later one that every operation respects. -/
structure Registry.Respected (R : Registry → Registry → Prop) : Prop where
  refl : ∀ r, R r r
  trans : ∀ {r r' r''}, R r r' → R r' r'' → R r r''
  lookup : ∀ r address fragment, R r ((Registry.lookup address fragment).run.run r).2
  adopt : ∀ r n, R r (Registry.adopt r n).2
  renew : ∀ r n, R r (Registry.renew r n).2
  setAnchor : ∀ r address name n, R r (Registry.setAnchor r address name n)

namespace Registry.Respected

variable {R : Registry → Registry → Prop} (h : Respected R)
include h

/-- What is related to one registry is maintained, be a program successful or not. -/
lemma conduct (start : Registry) : Conduct (R start) (R start) where
  stop _ hr := hr
  lookup address fragment := fun r hr => by
    have hlookup := h.trans hr (h.lookup r address fragment)
    rcases hrun : (Registry.lookup address fragment).run.run r with ⟨e | n, r'⟩
    all_goals
      rw [hrun] at hlookup
      exact hlookup
  adopt r n hr := h.trans hr (h.adopt r n)
  renew r n hr := h.trans hr (h.renew r n)
  setAnchor r address name n hr := h.trans hr (h.setAnchor r address name n)

end Registry.Respected

namespace Resolution

variable {R : Registry → Registry → Prop} {limit : Nat}

/-- Whether a program leaves a registry that is related to the one before, be it successful or
not. -/
def Follows {α : Type} (R : Registry → Registry → Prop) (x : Resolution α) : Prop :=
  ∀ s, R s.registry (outcome x s).2.registry

theorem follows_expandTarget (h : Registry.Respected R) (target : Address) :
    Follows R (expandTarget limit target) := fun s =>
  ((h.conduct s.registry).compositional.expandTarget limit target).final (fun _ h => h) s
    (h.refl _)

theorem follows_node (h : Registry.Respected R) (n : Node) (current : Address) :
    Follows R (node limit n current) := fun s =>
  ((h.conduct s.registry).compositional.node limit n current).final (fun _ h => h) s
    (h.refl _)

end Resolution

/-- Whether a later registry has every document of an earlier one, as the same node. -/
def Registry.Retains (r r' : Registry) : Prop :=
  ∀ a n, OrderedMap.get? r.documents a = some n → OrderedMap.get? r'.documents a = some n

namespace Registry

variable (r : Registry)

/-- Only a document that is missing is registered. -/
lemma retains_document (address : Address) :
    r.Retains ((document address).run.run r).2 := by
  have hsame : r.Retains (r.request address.withoutFragment).2 := fun a n h => by
    rw [documents_request]
    exact h
  rcases document_cases r address with ⟨n, hkept, hrun⟩ | ⟨hnone, ⟨-, hrun⟩ |
    ⟨bytes, -, ⟨e, -, hrun⟩ | ⟨n, -, hrun⟩⟩⟩
  all_goals
    rw [hrun]
  · exact fun a n h => h
  · exact hsame
  · exact hsame
  · intro a m hm
    have hne : address.withoutFragment.withoutFragment ≠ a := by
      rw [Address.withoutFragment_idem]
      rintro rfl
      rw [hnone] at hm
      cases hm
    show OrderedMap.get? (OrderedMap.insert _ _ _) a = some m
    rw [OrderedMap.get?_insert_of_ne _ _ hne, documents_request]
    exact hm

lemma retains_adopt (n : Node) : r.Retains (r.adopt n).2 := by
  unfold adopt
  split <;> exact fun a n h => h

lemma retains_lookup (address : Address) (fragment : String) :
    r.Retains ((lookup address fragment).run.run r).2 := by
  have hdocument := r.retains_document address
  rcases lookup_cases r address fragment with ⟨e, r₁, hrun₁, hrun⟩ | ⟨doc, r₁, hrun₁,
    ⟨n, -, hrun⟩ | ⟨-, ⟨-, hrun⟩ | ⟨n, -, hrun⟩⟩⟩
  all_goals
    rw [hrun₁] at hdocument
    rw [hrun]
  · exact hdocument
  · exact hdocument
  · exact hdocument
  · exact fun a m hm => r₁.retains_adopt n a m (hdocument a m hm)

theorem respected_retains : Respected Retains where
  refl _ _ _ h := h
  trans h h' a n hn := h' a n (h a n hn)
  lookup := retains_lookup
  adopt := retains_adopt
  renew _ _ _ _ h := h
  setAnchor _ _ _ _ _ _ h := h

end Registry

/-! ## Expansions -/

/-- Whether a later resolver has the same targets in progress as an earlier one and all its
expansions, and none for a target that has been in progress since. -/
structure Resolver.Advances (s s' : Resolver) : Prop where
  active : s'.active = s.active
  expansions : ∀ place n, OrderedMap.get? s.expansions place = some n →
    OrderedMap.get? s'.expansions place = some n
  pending : ∀ place ∈ s.active, OrderedMap.get? s.expansions place = none →
    OrderedMap.get? s'.expansions place = none

namespace Resolver.Advances

variable {s s' s'' : Resolver}

lemma of_eq (active : s'.active = s.active) (expansions : s'.expansions = s.expansions) :
    s.Advances s' where
  active := active
  expansions _ _ h := by rw [expansions, h]
  pending _ _ h := by rw [expansions, h]

lemma trans (h : s.Advances s') (h' : s'.Advances s'') : s.Advances s'' where
  active := h'.active.trans h.active
  expansions place n hn := h'.expansions place n (h.expansions place n hn)
  pending place hplace hn :=
    h'.pending place (h.active.symm ▸ hplace) (h.pending place hplace hn)

/-- The target that was entered is left, and then it has as few expansions as before. -/
lemma leave {place : Address} {r : Registry}
    (h : ((s.withRegistry r).enter place).Advances s')
    (hnone : OrderedMap.get? s.expansions place = none) :
    s.Advances (s'.leave (s.withRegistry r)) ∧
      OrderedMap.get? (s'.leave (s.withRegistry r)).expansions place = none := by
  have hentered : place ∈ ((s.withRegistry r).enter place).active :=
    List.mem_append_right _ (List.mem_singleton_self place)
  refine ⟨⟨Resolver.active_leave_of_enter h.active, h.expansions, ?_⟩, h.pending place hentered hnone⟩
  exact fun p hp => h.pending p (List.mem_append_left _ hp)

/-- The expansion of a target that had none is kept, and nobody else is in its place. -/
lemma keep {place : Address} {n : Node} {fragment : String} (h : s.Advances s')
    (hnone : OrderedMap.get? s'.expansions place = none) (hplace : place ∉ s.active) :
    s.Advances (s'.keep place fragment n) where
  active := h.active
  expansions p m hm := by
    have hp := h.expansions p m hm
    have hne : place ≠ p := by
      rintro rfl
      rw [hnone] at hp
      cases hp
    rw [Resolver.expansions_keep, OrderedMap.get?_insert_of_ne _ _ hne, hp]
  pending p hp hm := by
    have hne : place ≠ p := by
      rintro rfl
      exact hplace hp
    rw [Resolver.expansions_keep, OrderedMap.get?_insert_of_ne _ _ hne, h.pending p hp hm]

end Resolver.Advances

namespace Resolution

/-- The discipline of resolvers that remember a cut only while a target is in progress. -/
def advancing : Discipline where
  inv s := s.active = [] → s.cut = none
  later := Resolver.Advances
  refl _ := .of_eq rfl rfl
  trans := Resolver.Advances.trans

lemma expandNode_advancing {expand : Address → Resolution Node}
    (h : ∀ t s, Keeps advancing (expand t) s (fun _ _ => True) fun _ => True) (current : Address)
    (n : Node) (s : Resolver) :
    Keeps advancing (expandNode expand current n) s (fun _ _ => True) fun _ => True := by
  have hserves : Serves advancing (fun _ _ _ => True) (fun _ => True) expand current n :=
    { stable := fun _ _ _ _ _ _ => trivial
      fresh := fun _ hs _ => ⟨hs, .of_eq rfl rfl⟩
      anchors := fun _ _ _ hs => ⟨hs, .of_eq rfl rfl⟩
      expand := fun _ _ _ _ t _ s => h t s
      malformed := fun _ _ _ _ _ _ => trivial
      several := fun _ _ _ => trivial }
  exact (expandNode_keeps hserves s).mono (fun _ _ _ => trivial) fun _ h => h

/-- The expansion of a target advances, and it is kept if no other target is in progress. -/
theorem expandTarget_advancing (limit : Nat) (target : Address) (s : Resolver) :
    Keeps advancing (expandTarget limit target) s
      (fun m s' => s.active = [] → OrderedMap.get? s'.expansions target.place = some m)
      fun _ => True := by
  induction limit generalizing target s with
  | zero => exact Keeps.throw trivial
  | succ limit ih =>
    intro hs
    apply expandTarget_ensures
    case kept => exact fun n hn => ⟨hs, .of_eq rfl rfl, fun _ => hn⟩
    case missing => exact fun _ e r _ _ => ⟨hs, .of_eq rfl rfl, trivial⟩
    case cycle =>
      intro _ n raw r _ _ _ depth hdepth
      -- there is a target in progress, the one that the cycle closes at
      have hactive : s.active ≠ [] := by
        rintro hnil
        rw [hnil] at hdepth
        cases hdepth
      refine closeCycle_ensures_of_alike (fun _ _ _ => ?_) fun _ _ _ => ?_
      · exact ⟨fun hnil => absurd hnil hactive, .of_eq rfl rfl, fun hnil => absurd hnil hactive⟩
      · exact ⟨fun hnil => absurd hnil hactive, .of_eq rfl rfl, trivial⟩
    case opened =>
      intro hnone n raw r _ _ _ hplace fragment _
      -- a cut cannot lie further out than the outermost target
      have houter {s' : Resolver} (hnil : s.active = []) : s'.openCut s.active.length = none := by
        rw [hnil, Resolver.openCut]
        exact Option.filter_eq_none_iff.2 fun depth _ => by simp
      have hcut {s' : Resolver} (hnil : s.active = []) : (s'.leave (s.withRegistry r)).cut = none := by
        show Resolver.shallower s.cut (s'.openCut s.active.length) = none
        rw [hs hnil, houter hnil]
        rfl
      have hinv {s' : Resolver}
          (h : ((s.withRegistry r).enter target.place).Advances s') :
          advancing.inv (s'.leave (s.withRegistry r)) := fun hnil =>
        hcut ((Resolver.active_leave_of_enter h.active).symm.trans hnil)
      have hentered : advancing.inv ((s.withRegistry r).enter target.place) := fun _ => rfl
      refine (expandNode_advancing (fun t s => (ih t s).mono (fun _ _ _ => trivial) fun _ h => h)
        target.withoutFragment raw ((s.withRegistry r).enter target.place) hentered).mono ?_ ?_
      · rintro m s' ⟨-, hadvances, -⟩
        obtain ⟨hleft, hfree⟩ := hadvances.leave hnone
        refine ⟨fun _ => ⟨hinv hadvances, hleft.keep hfree hplace, fun _ => ?_⟩,
          fun hopen => ⟨hinv hadvances, hleft, fun hnil => absurd (houter hnil) hopen⟩⟩
        rw [Resolver.expansions_keep, OrderedMap.get?_insert_self]
      · rintro e s' ⟨-, hadvances, -⟩
        exact ⟨hinv hadvances, (hadvances.leave hnone).1, trivial⟩

theorem node_advancing (limit : Nat) (n : Node) (current : Address) (s : Resolver) :
    Keeps advancing (node limit n current) s (fun _ _ => True) fun _ => True := by
  intro hs
  have htargets (t : Address) (s : Resolver) :
      Keeps advancing (expandTarget limit t) s (fun _ _ => True) fun _ => True :=
    (expandTarget_advancing limit t s).mono (fun _ _ _ => trivial) fun _ h => h
  have hadopted : s.Advances (s.withRegistry (s.registry.adopt n).2) := .of_eq rfl rfl
  rw [node, ensures_bind, ensures_onRegistry]
  refine (expandNode_advancing htargets current (s.registry.adopt n).1
    (s.withRegistry (s.registry.adopt n).2) hs).mono ?_ ?_
  · exact fun m s' h => ⟨h.1, hadopted.trans h.2.1, trivial⟩
  · exact fun e s' h => ⟨h.1, hadopted.trans h.2.1, trivial⟩

end Resolution

/-! ## Sessions -/

/-- A call on a resolver. -/
inductive Resolver.Call where
  /-- Resolve the document at an address. -/
  | document (limit : Nat) (address : Address)
  /-- Resolve a node that stands in the document at `current`. -/
  | node (limit : Nat) (n : Node) (current : Address)

namespace Resolver

/-- The program of a call. -/
def Call.program : Call → Resolution Node
  | .document limit address => Resolution.document limit address
  | .node limit n current => Resolution.node limit n current

/-- The resolver after some calls, successful or not. -/
def after (s : Resolver) (calls : List Call) : Resolver :=
  calls.foldl (fun s call => (outcome call.program s).2) s

/-- Whether no target is in progress and no cut is remembered. -/
structure Idle (s : Resolver) : Prop where
  active : s.active = []
  cut : s.cut = none

/-- Whether a later resolver has the documents and the expansions of an earlier one, each as the
same node. -/
structure Persists (s s' : Resolver) : Prop where
  documents : s.registry.Retains s'.registry
  expansions : ∀ place n, OrderedMap.get? s.expansions place = some n →
    OrderedMap.get? s'.expansions place = some n

variable {s s' s'' : Resolver}

lemma Persists.refl (s : Resolver) : s.Persists s := ⟨fun _ _ h => h, fun _ _ h => h⟩

lemma Persists.trans (h : s.Persists s') (h' : s'.Persists s'') : s.Persists s'' where
  documents := Registry.respected_retains.trans h.documents h'.documents
  expansions place n hn := h'.expansions place n (h.expansions place n hn)

lemma after_append (calls calls' : List Call) :
    s.after (calls ++ calls') = (s.after calls).after calls' :=
  List.foldl_append

/-- A program that advances leaves an idle resolver idle. -/
lemma Idle.of_keeps {x : Resolution Node} {ok : Node → Resolver → Prop} (h : s.Idle)
    (hx : Keeps advancing x s ok fun _ => True) :
    (outcome x s).2.Idle ∧ s.Advances (outcome x s).2 := by
  have hx := hx fun _ => h.cut
  rcases hrun : outcome x s with ⟨e | m, s'⟩
  · obtain ⟨hinv, hadvances, -⟩ := hx.of_error hrun
    have hactive : s'.active = [] := hadvances.active.trans h.active
    exact ⟨⟨hactive, hinv hactive⟩, hadvances⟩
  · obtain ⟨hinv, hadvances, -⟩ := hx.of_ok hrun
    have hactive : s'.active = [] := hadvances.active.trans h.active
    exact ⟨⟨hactive, hinv hactive⟩, hadvances⟩

theorem Idle.call (h : s.Idle) (call : Call) :
    (outcome call.program s).2.Idle ∧ s.Persists (outcome call.program s).2 := by
  cases call with
  | document limit address =>
    have hfollows : Follows Registry.Retains (expandTarget limit address.withoutFragment) :=
      follows_expandTarget Registry.respected_retains _
    obtain ⟨hidle, hadvances⟩ := h.of_keeps (expandTarget_advancing limit address.withoutFragment s)
    exact ⟨hidle, hfollows s, hadvances.expansions⟩
  | node limit n current =>
    have hfollows : Follows Registry.Retains (node limit n current) :=
      follows_node Registry.respected_retains n current
    obtain ⟨hidle, hadvances⟩ := h.of_keeps (node_advancing limit n current s)
    exact ⟨hidle, hfollows s, hadvances.expansions⟩

theorem Idle.after (h : s.Idle) (calls : List Call) :
    (s.after calls).Idle ∧ s.Persists (s.after calls) := by
  induction calls generalizing s with
  | nil => exact ⟨h, .refl s⟩
  | cons call calls ih =>
    obtain ⟨hidle, hpersists⟩ := h.call call
    obtain ⟨hidle', hpersists'⟩ := ih hidle
    exact ⟨hidle', hpersists.trans hpersists'⟩

/-- **A resolver survives any session.**  After every call, whatever came before it and whether it
succeeds or fails, no target is in progress and no cut is remembered, and every document and every
expansion that was there is there as the same node.  A document that was resolved to a node is
resolved to this node from then on, whatever is called in between. -/
theorem survives_session (r : Registry) (calls : List Call) (call : Call) :
    ((ofRegistry r).after (calls ++ [call])).Idle ∧
      ((ofRegistry r).after calls).Persists ((ofRegistry r).after (calls ++ [call])) ∧
      ∀ limit address m,
        (outcome (Resolution.document limit address) ((ofRegistry r).after calls)).1 = .ok m →
        ∀ more limit', outcome (Resolution.document (limit' + 1) address)
            ((ofRegistry r).after (calls ++ .document limit address :: more)) =
          (.ok m, (ofRegistry r).after (calls ++ .document limit address :: more)) := by
  have hstart : (ofRegistry r).Idle := ⟨rfl, rfl⟩
  have hbefore : ((ofRegistry r).after calls).Idle := (hstart.after calls).1
  simp only [after_append]
  generalize (ofRegistry r).after calls = s at hbefore
  obtain ⟨hidle, hpersists⟩ := hbefore.after [call]
  refine ⟨hidle, hpersists, fun limit address m hm more limit' => ?_⟩
  -- the expansion is kept by the call that returns it, and by all calls after that
  have hkept : OrderedMap.get? (outcome (Resolution.document limit address) s).2.expansions
      address.withoutFragment.place = some m := by
    have hadvancing := expandTarget_advancing limit address.withoutFragment s fun _ => hbefore.cut
    rcases hrun : outcome (Resolution.document limit address) s with ⟨e | m', s'⟩
    all_goals rw [hrun] at hm
    · cases hm
    · obtain rfl := Except.ok.inj hm
      exact (hadvancing.of_ok hrun).2.2 hbefore.active
  have hcall : (outcome (Resolution.document limit address) s).2.Idle :=
    (hbefore.call (.document limit address)).1
  have hlater := (hcall.after more).2.expansions _ m hkept
  exact outcome_expandTarget_of_kept hlater limit'

/-- The document that refers to itself keeps its node while a document is asked for that is not
there. -/
theorem survives_session_ring : ∃ m,
    (outcome (Resolution.document 3 (.inMemory "ring")) (ofRegistry .threeDocuments)).1 = .ok m ∧
      (outcome (Resolution.document 3 (.inMemory "none"))
        ((ofRegistry .threeDocuments).after [.document 3 (.inMemory "ring")])).1.isOk = false ∧
      (outcome (Resolution.document 3 (.inMemory "ring"))
        ((ofRegistry .threeDocuments).after
          [.document 3 (.inMemory "ring"), .document 3 (.inMemory "none")])).1 = .ok m := by
  obtain ⟨m, s', h⟩ : ∃ m s', outcome (Resolution.document 3 (.inMemory "ring"))
      (ofRegistry .threeDocuments) = (.ok m, s') := exists_of_isOk (by decide +kernel)
  have hm : (outcome (Resolution.document 3 (.inMemory "ring"))
      (ofRegistry .threeDocuments)).1 = .ok m := by rw [h]
  have hsession := survives_session .threeDocuments [] (.document 3 (.inMemory "none"))
  have hlater := hsession.2.2 3 (.inMemory "ring") m hm [.document 3 (.inMemory "none")] 2
  exact ⟨m, hm, by decide +kernel, congrArg Prod.fst hlater⟩

end Resolver

end SchemaCatalog
