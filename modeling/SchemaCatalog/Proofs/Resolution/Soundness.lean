import SchemaCatalog.Proofs.Resolution.Faithful

/-!
# What sessions give is an expansion

The main result about sessions over fresh, tidy and unambiguous documents is `document_expansion`:
whatever documents were resolved before, with success or without, a document resolves to an
expansion of it inside no other target, or there is a fault in it.

It comes from one induction, on the limit (`expandTarget_expansion`).  The invariant is `Within`:
the resolver is faithful, the targets in progress are those of a given stack, and none of them is
kept.  The stack itself is a matter of the documents: each of its targets refers to the next one
(`Leads`), and so does the last one to the target that is called for.
-/

namespace SchemaCatalog

open Relation

namespace Resolution

/-! ## Stacks -/

/-- The targets of a stack refer one to the next, and the last one to the target `p`. -/
structure Leads (r : Registry) (stack : List Address) (p : Address) : Prop where
  chain : List.IsChain r.Refers (stack ++ [p])
  targets : ∀ q ∈ stack, r.Target q
  target : r.Target p

variable {r : Registry} {stack : List Address} {p q : Address} {s : Resolver}

lemma Leads.refers (h : Leads r stack p) (hpq : r.Refers p q) : Leads r (stack ++ [p]) q where
  chain := by
    rw [List.append_assoc, List.singleton_append, List.isChain_append_cons_cons]
    exact ⟨h.chain, hpq, .singleton q⟩
  targets t ht := by
    rcases List.mem_append.1 ht with ht | ht
    · exact h.targets t ht
    · rw [List.mem_singleton.1 ht]
      exact h.target
  target := h.target.refers hpq

/-- A faithful resolver with the targets of a stack in progress, none of which is kept. -/
structure Within (r : Registry) (stack : List Address) (s : Resolver) : Prop where
  faithful : Faithful r s
  active : s.active = stack
  unkept : ∀ p ∈ stack, OrderedMap.get? s.expansions p = none

/-- The discipline of faithful resolvers: a step may expose more targets, and never fewer. -/
def within (r : Registry) (stack : List Address) : Discipline where
  inv := Within r stack
  later s s' := s'.active = s.active ∧ ∀ p ∈ s.exposed, p ∈ s'.exposed
  refl _ := ⟨rfl, fun _ hp => hp⟩
  trans h h' := ⟨h'.1.trans h.1, fun p hp => h'.2 p (h.2 p hp)⟩

lemma Within.alike (h : Within r stack s) {r' : Registry} (halike : s.registry.Alike r') :
    Within r stack (s.withRegistry r') :=
  ⟨h.faithful.alike halike, h.active, h.unkept⟩

lemma Within.cutAt (h : Within r stack s) (depth : Nat) : Within r stack (s.cutAt depth) :=
  ⟨⟨h.faithful.content, h.faithful.anchor, h.faithful.kept⟩, h.active, h.unkept⟩

lemma Within.enter (h : Within r stack s) (hp : OrderedMap.get? s.expansions p = none) :
    Within r (stack ++ [p]) (s.enter p) where
  faithful := ⟨h.faithful.content, h.faithful.anchor, h.faithful.kept⟩
  active := by rw [Resolver.active_enter, h.active]
  unkept q hq := by
    rcases List.mem_append.1 hq with hq | hq
    · exact h.unkept q hq
    · rw [List.mem_singleton.1 hq]
      exact hp

lemma Within.leave {s' : Resolver} (h : Within r stack s) (h' : Within r (stack ++ [p]) s') :
    Within r stack (s'.leave s) ∧ (within r stack).later s (s'.leave s) := by
  have hactive : s'.active = s.active ++ [p] := by rw [h'.active, h.active]
  have hleave := Resolver.active_leave_of_enter hactive
  refine ⟨⟨?_, hleave.trans h.active, ?_⟩, hleave, fun q hq => Resolver.exposed_leave hactive hq⟩
  · exact ⟨h'.faithful.content, h'.faithful.anchor, h'.faithful.kept⟩
  · exact fun q hq => h'.unkept q (List.mem_append_left _ hq)

/-- An expansion that holds good everywhere may be kept, if its target is not in progress. -/
lemma Within.keep {fragment : String} {m : Node} (h : Within r stack s) (hp : r.Target p)
    (hnot : p ∉ stack) (hfragment : p.fragmentText = .ok fragment)
    (hm : r.Expansion [] p m.forget) : Within r stack (s.keep p fragment m) where
  faithful := h.faithful.keep hp hfragment hm
  active := h.active
  unkept q hq := by
    have hpq : p ≠ q := fun hpq => hnot (hpq ▸ hq)
    rw [Resolver.expansions_keep, OrderedMap.get?_insert_of_ne _ _ hpq]
    exact h.unkept q hq

section Session

variable (fresh : r.anchors = []) (tidy : r.TidyAnchors) (distinct : r.Unambiguous)

/-! ## Cycles -/

include fresh distinct in
/-- A cycle is closed with the stub of the target, which is then exposed. -/
lemma closeCycle_expansion {limit depth : Nat} {raw n : Node} (hleads : Leads r stack p)
    (hs : Within r stack s) (hdepth : s.active.idxOf? p = some depth) (hn : r.raw p = .ok n)
    (hforget : raw.forget = n.forget) :
    Keeps (within r stack) (closeCycle limit depth raw p.withoutFragment) s
      (fun m s' => r.Expansion s'.exposed p m.forget) (r.Fault p) := by
  intro _
  have hp : p ∈ stack := by
    obtain ⟨hlt, hget, -⟩ := List.idxOf?_eq_some_iff.1 hdepth
    rw [← hs.active, ← hget]
    exact List.getElem_mem hlt
  have hlater : (within r stack).later s (s.cutAt depth) :=
    ⟨rfl, fun q hq => Resolver.exposed_cutAt hq⟩
  -- Aliases stay in the stack, where nothing is kept and so all is raw as it was.
  have hclosed : ∀ x ∈ stack, ∀ y, r.AliasTo x y → y ∈ stack := fun x hx y hxy =>
    hxy.mem_of_isChain hleads.chain hp hx
  have hraw : ∀ x ∈ stack, (s.registry.raw x).map Node.forget = (r.raw x).map Node.forget :=
    fun x hx => hs.faithful.raw_forget fresh distinct (hleads.targets x hx) (hs.unkept x hx)
  refine closeCycle_ensures (followAliases_stub (s := s.cutAt depth) hclosed hraw hp .refl hn hforget
    fun x hx => absurd hx List.not_mem_nil) ?_ ?_
  · intro found r' halike hstub
    refine ⟨((hs.cutAt depth).alike halike).alike (Registry.alike_renew _ _), hlater, ?_⟩
    exact .cut (Resolver.mem_exposed_cutAt hdepth) hstub
  · intro e r' halike _
    exact ⟨(hs.cutAt depth).alike halike, hlater, .cyclic (transGen_of_isChain hleads.chain hp)⟩

/-! ## Targets -/

include tidy fresh in
/-- What the expansion of the raw tree at a target asks for, if targets are expanded soundly. -/
lemma serves_raw {expand : Address → Resolution Node} {raw n : Node} (hleads : Leads r stack p)
    (hn : r.raw p = .ok n) (hforget : raw.forget = n.forget)
    (hexpand : ∀ {t : Address}, Leads r (stack ++ [p]) t.place → ∀ s,
      Keeps (within r (stack ++ [p])) (expand t) s
        (fun m s' => r.Expansion s'.exposed t.place m.forget) (r.Fault t.place)) :
    Serves (within r (stack ++ [p])) (fun s t m => r.Expansion s.exposed t.place m.forget)
      (r.Fault p) expand p.withoutFragment raw where
  stable _ _ _ _ hlater hm := hm.mono hlater.2
  fresh s hs m := ⟨hs.alike (s.registry.alike_renew m), rfl, fun _ hq => hq⟩
  anchors m hm s hs := by
    refine ⟨⟨?_, hs.active, hs.unkept⟩, rfl, fun _ hq => hq⟩
    exact hs.faithful.setAnchors fresh tidy hn hforget hm
  expand m hm reference hone t ht s := by
    have hrefers : r.Refers p t.place := .of_mem_nodes hn hforget hm hone ht
    exact (hexpand (hleads.refers hrefers) s).mono (fun _ _ h => h) fun e he =>
      .nested hrefers he
  malformed m hm reference hone e he := by
    obtain ⟨m', hm', hforget'⟩ := Node.exists_mem_nodes hforget hm
    rw [Address.target_withoutFragment] at he
    refine .malformed hn hm' ?_ he
    rw [Node.references_congr hforget', hone]
  several m hm hmore := by
    obtain ⟨m', hm', hforget'⟩ := Node.exists_mem_nodes hforget hm
    refine .several hn hm' ?_
    rwa [Node.references_congr hforget']

include tidy fresh distinct

/-- **The expansion of a target is one inside the exposed targets, or there is a fault.** -/
theorem expandTarget_expansion {limit : Nat} {target : Address}
    (hleads : Leads r stack target.place) (s : Resolver) :
    Keeps (within r stack) (expandTarget limit target) s
      (fun m s' => r.Expansion s'.exposed target.place m.forget) (r.Fault target.place) := by
  induction limit generalizing target stack s with
  | zero => exact Keeps.throw (.tooDeep ⟨target, rfl⟩)
  | succ limit ih =>
    intro hs
    have hraw := fun hnone => hs.faithful.raw_forget fresh distinct hleads.target hnone
    apply expandTarget_ensures
    case kept =>
      intro m hm
      refine ⟨hs, (within r stack).refl s, (hs.faithful.kept _ m hm).2.mono ?_⟩
      exact fun q hq => absurd hq List.not_mem_nil
    case missing =>
      intro hnone e r' halike he
      exact ⟨hs.alike halike, (within r stack).refl s,
        .missing (Registry.error_of_map_forget (hraw hnone) he)⟩
    case cycle =>
      intro hnone n raw r' halike hn hforget depth hdepth
      obtain ⟨n', hn', hforget'⟩ := Registry.ok_of_map_forget (hraw hnone) hn
      rw [← Address.withoutFragment_place]
      exact closeCycle_expansion fresh distinct hleads (hs.alike halike) hdepth hn'
        (hforget.trans hforget') (hs.alike halike)
    case opened =>
      intro hnone n raw r' halike hn hforget hnot fragment hfragment
      obtain ⟨n', hn', hforget'⟩ := Registry.ok_of_map_forget (hraw hnone) hn
      have hraw' : raw.forget = n'.forget := hforget.trans hforget'
      have hs₁ : Within r stack (s.withRegistry r') := hs.alike halike
      rw [hs.active] at hnot
      have hserves := serves_raw fresh tidy hleads hn' hraw' fun h => ih h
      rw [Address.withoutFragment_place] at hserves
      refine (expandNode_keeps hserves _ (hs₁.enter hnone)).mono ?_ ?_
      · rintro m s' ⟨hs', -, hreplaced⟩
        have hactive : s'.active = (s.withRegistry r').active ++ [target.place] := by
          rw [hs'.active, hs₁.active]
        obtain ⟨hleave, hlater⟩ := hs₁.leave hs'
        rw [← Address.withoutFragment_place] at hreplaced
        constructor
        · -- Nothing further out was cut, so no target but this one is exposed.
          intro hcut
          have hm : r.Expansion [] target.place m.forget := by
            refine .of_replaced hn' hraw' hreplaced fun q hq => ?_
            rcases Resolver.exposed_of_leave (s := s.withRegistry r') hactive hq with
              rfl | ⟨-, hopen⟩
            · exact List.mem_cons_self
            · exact absurd hcut hopen
          refine ⟨hleave.keep hleads.target hnot hfragment hm, hlater, hm.mono ?_⟩
          exact fun q hq => absurd hq List.not_mem_nil
        · -- What was exposed inside stays so, for the cut stays open.
          intro _
          refine ⟨hleave, hlater, .of_replaced hn' hraw' hreplaced fun q hq => ?_⟩
          rcases Resolver.exposed_of_leave (s := s.withRegistry r') hactive hq with
            rfl | ⟨hq, -⟩
          · exact List.mem_cons_self
          · exact List.mem_cons_of_mem _ hq
      · rintro e s' ⟨hs', -, he⟩
        obtain ⟨hleave, hlater⟩ := hs₁.leave hs'
        exact ⟨hleave, hlater, he⟩

/-! ## Documents -/

lemma document_within (limit : Nat) (a : Address) (s : Resolver) :
    Keeps (within r []) (document limit a) s
      (fun m s' => r.Expansion s'.exposed a.withoutFragment m.forget)
      (r.Fault a.withoutFragment) := by
  have htarget : r.Target a.withoutFragment := .document a
  have hleads : Leads r [] a.withoutFragment.place := by
    refine ⟨.singleton _, fun q hq => absurd hq List.not_mem_nil, ?_⟩
    rw [htarget.place_eq]
    exact htarget
  rw [← htarget.place_eq]
  exact expandTarget_expansion fresh tidy distinct hleads s

theorem within_afterDocuments (calls : List (Nat × Address)) :
    Within r [] (Resolver.afterDocuments r calls) := by
  suffices h : ∀ s, Within r [] s → Within r [] (calls.foldl
      (fun s call => (outcome (document call.1 call.2) s).2) s) from
    h _ ⟨.ofRegistry fresh, rfl, fun q hq => absurd hq List.not_mem_nil⟩
  induction calls with
  | nil => exact fun s hs => hs
  | cons call calls ih =>
    intro s hs
    refine ih _ ?_
    change Within r [] (outcome (document call.1 call.2) s).2
    have hcall := document_within fresh tidy distinct call.1 call.2 s hs
    rcases hrun : outcome (document call.1 call.2) s with ⟨e | m, s'⟩
    · exact (hcall.of_error hrun).1
    · exact (hcall.of_ok hrun).1

/-- **After any calls for documents, a document resolves to an expansion of it inside no other
target, or there is a fault in it; and so it is with every expansion that is kept.** -/
theorem document_expansion (calls : List (Nat × Address)) (limit : Nat) (a : Address) :
    Ensures (document limit a) (Resolver.afterDocuments r calls)
      (fun m s' => r.Expansion [] a.withoutFragment m.forget ∧
        ∀ p n, OrderedMap.get? s'.expansions p = some n → r.Expansion [] p n.forget)
      (fun e _ => r.Fault a.withoutFragment e) := by
  refine (document_within fresh tidy distinct limit a _
    (within_afterDocuments fresh tidy distinct calls)).mono ?_ ?_
  · rintro m s' ⟨hs', -, hm⟩
    have hexposed : s'.exposed = [] := by
      unfold Resolver.exposed
      rw [hs'.active, List.drop_nil]
    rw [hexposed] at hm
    exact ⟨hm, fun p n hp => (hs'.faithful.kept p n hp).2⟩
  · rintro e s' ⟨-, -, he⟩
    exact he

end Session

/-- **References are cut only inside their targets.**  Take a fresh registry over documents
without anchors whose targets are unambiguous, and any calls for documents, successful or not.
What a document then resolves to is its tree with every reference replaced by an expansion of the
target or, only inside an expansion of that target, by its stub.  No expansion that is kept has a
stub outside an expansion of its target either. -/
theorem cut_only_inside {r : Registry} (fresh : r.anchors = []) (anchorless : r.Anchorless)
    (distinct : r.Unambiguous) (calls : List (Nat × Address)) (limit : Nat) (a : Address)
    {m : Node} {s' : Resolver}
    (h : outcome (document limit a) (Resolver.afterDocuments r calls) = (.ok m, s')) :
    r.Expansion [] a.withoutFragment m.forget ∧
      ∀ p n, OrderedMap.get? s'.expansions p = some n → r.Expansion [] p n.forget := by
  have hsound := document_expansion fresh anchorless.tidyAnchors distinct calls limit a
  exact hsound.of_ok h

/-- The document that refers to itself resolves, after another one, to an expansion of itself. -/
theorem cut_only_inside_ring :
    ∃ m s', outcome (document 3 (.inMemory "ring"))
        (.afterDocuments .threeDocuments [(3, .inMemory "list")]) = (.ok m, s') ∧
      Registry.threeDocuments.Expansion [] (.inMemory "ring") m.forget ∧
      ∀ p n, OrderedMap.get? s'.expansions p = some n →
        Registry.threeDocuments.Expansion [] p n.forget := by
  obtain ⟨m, s', h⟩ : ∃ m s', outcome (document 3 (.inMemory "ring"))
      (.afterDocuments .threeDocuments [(3, .inMemory "list")]) = (.ok m, s') :=
    exists_of_isOk (by decide +kernel)
  exact ⟨m, s', h, cut_only_inside rfl Registry.threeDocuments_anchorless
    Registry.threeDocuments_unambiguous [(3, .inMemory "list")] 3 (.inMemory "ring") h⟩

end Resolution

end SchemaCatalog
