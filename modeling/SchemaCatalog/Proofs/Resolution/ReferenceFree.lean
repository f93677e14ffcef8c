import SchemaCatalog.Proofs.Resolution.Discipline
import SchemaCatalog.Proofs.Resolution.Session

/-!
# Resolution leaves no reference

What a resolution returns is put together from nodes that were rebuilt, from expansions that were
kept from earlier calls, from stubs of targets in progress and from keywords merged with those of
a target.  No reference is left in any of them: the kept expansions have none, which is the
invariant, a stub has facets alone, and a tree whose targets bring no reference has none after
its own are replaced.

The same discipline shows that every call, be it successful or not, leaves as many targets in
progress as there were before it, so that there are none between two calls.
-/

namespace SchemaCatalog

/-- No expansion that a resolver keeps has a reference. -/
def Resolver.ReferenceFree (s : Resolver) : Prop := ∀ e ∈ s.expansions, e.2.hasReferences = false

lemma Resolver.ReferenceFree.keep {s : Resolver} (h : s.ReferenceFree) {place : Address}
    {fragment : String} {m : Node} (hm : m.hasReferences = false) :
    (s.keep place fragment m).ReferenceFree := by
  intro e he
  rcases OrderedMap.eq_or_mem_of_mem_insert he with rfl | he
  · exact hm
  · exact h e he

lemma Node.hasReferences_cycleStub (n : Node) (base : Option Address) :
    ({ n.cycleStub with base } : Node).hasReferences = false := by
  apply hasReferences_of_isLeaf
  simp [isLeaf, cycleStub]

namespace Resolution

/-- The discipline of resolvers whose kept expansions have no reference, which end with the
targets in progress that they began with. -/
def referenceFree : Discipline := .steady Resolver.ReferenceFree

variable {limit : Nat} {s : Resolver}

/-- The expansion of a tree is free of references if the expansions of targets are. -/
lemma expandNode_referenceFree {expand : Address → Resolution Node}
    (h : ∀ t s, Keeps referenceFree (expand t) s (fun m _ => m.hasReferences = false)
      fun _ => True)
    (current : Address) (n : Node) (s : Resolver) :
    Keeps referenceFree (expandNode expand current n) s (fun m _ => m.hasReferences = false)
      fun _ => True := by
  have hserves : Serves referenceFree (fun _ _ m => m.hasReferences = false) (fun _ => True)
      expand current n :=
    { stable := fun _ _ _ _ _ hm => hm
      fresh := fun _ hs _ => ⟨hs, rfl⟩
      anchors := fun _ _ _ hs => ⟨hs, rfl⟩
      expand := fun _ _ _ _ t _ s => h t s
      malformed := fun _ _ _ _ _ _ => trivial
      several := fun _ _ _ => trivial }
  refine (expandNode_keeps hserves s).mono (fun m s' hm => ?_) fun _ _ => trivial
  exact hm.hasReferences_eq_false fun _ _ hm => hm

lemma expandTarget_referenceFree (limit : Nat) (target : Address) (s : Resolver) :
    Keeps referenceFree (expandTarget limit target) s (fun m _ => m.hasReferences = false)
      fun _ => True := by
  induction limit generalizing target s with
  | zero => exact Keeps.throw trivial
  | succ limit ih =>
    intro hs
    apply expandTarget_ensures
    case kept =>
      intro n hn
      exact ⟨hs, rfl, hs _ (OrderedMap.mem_of_get?_eq_some hn)⟩
    case missing => exact fun _ e r _ _ => ⟨hs, rfl, trivial⟩
    case cycle =>
      intro _ n raw r _ _ _ depth _
      refine closeCycle_ensures_of_alike (fun p _ _ => ?_) fun _ _ _ => ⟨hs, rfl, trivial⟩
      exact ⟨hs, rfl, Node.hasReferences_cycleStub p.1 (some p.2)⟩
    case opened =>
      intro _ n raw r _ _ _ _ fragment _
      have hleave : ∀ {s' : Resolver}, s'.active = s.active ++ [target.place] →
          (s'.leave (s.withRegistry r)).active = s.active :=
        fun h => Resolver.active_leave_of_enter h
      refine (expandNode_referenceFree ih target.withoutFragment raw
        ((s.withRegistry r).enter target.place) hs).mono ?_ ?_
      · rintro m s' ⟨hs', h, hm⟩
        have hleft : (s'.leave (s.withRegistry r)).ReferenceFree := hs'
        exact ⟨fun _ => ⟨hleft.keep hm, hleave h, hm⟩, fun _ => ⟨hleft, hleave h, hm⟩⟩
      · rintro e s' ⟨hs', h, -⟩
        exact ⟨hs', hleave h, trivial⟩

lemma document_referenceFree (limit : Nat) (address : Address) (s : Resolver) :
    Keeps referenceFree (document limit address) s (fun m _ => m.hasReferences = false)
      fun _ => True :=
  expandTarget_referenceFree limit address.withoutFragment s

lemma node_referenceFree (limit : Nat) (n : Node) (current : Address) (s : Resolver) :
    Keeps referenceFree (node limit n current) s (fun m _ => m.hasReferences = false)
      fun _ => True := by
  intro hs
  rw [node, ensures_bind, ensures_onRegistry]
  exact expandNode_referenceFree (expandTarget_referenceFree limit) current _ _ hs

end Resolution

namespace Resolver

open Resolution

lemma Reachable.idle {s : Resolver} (h : s.Reachable) : s.ReferenceFree ∧ s.active = [] := by
  have after {s : Resolver} {x : Resolution Node} (hs : s.ReferenceFree ∧ s.active = [])
      (hx : Keeps referenceFree x s (fun m _ => m.hasReferences = false) fun _ => True) :
      (outcome x s).2.ReferenceFree ∧ (outcome x s).2.active = [] := by
    have hx := hx hs.1
    rcases ho : outcome x s with ⟨e | m, s'⟩
    · obtain ⟨hinv, hlater, -⟩ := hx.of_error ho
      exact ⟨hinv, hlater.trans hs.2⟩
    · obtain ⟨hinv, hlater, -⟩ := hx.of_ok ho
      exact ⟨hinv, hlater.trans hs.2⟩
  induction h with
  | start r => exact ⟨fun e he => absurd he (List.not_mem_nil), rfl⟩
  | registry r _ ih => exact ih
  | document limit address _ ih => exact after ih (document_referenceFree limit address _)
  | node limit n current _ ih => exact after ih (node_referenceFree limit n current _)

/-- The kept expansions of a session never have a reference. -/
theorem Reachable.referenceFree {s : Resolver} (h : s.Reachable) : s.ReferenceFree := h.idle.1

theorem Reachable.active_eq_nil {s : Resolver} (h : s.Reachable) : s.active = [] := h.idle.2

end Resolver

namespace Resolution

/-- **Resolution leaves no reference.**  At every point of every session, whatever a node or a
document resolves to has no reference anywhere in its tree, and neither has any expansion that
is kept, before and after. -/
theorem no_reference_left {s : Resolver} (h : s.Reachable) (limit : Nat) :
    s.ReferenceFree ∧
      (∀ n current m s', outcome (node limit n current) s = (.ok m, s') →
        m.hasReferences = false ∧ s'.ReferenceFree) ∧
      ∀ address m s', outcome (document limit address) s = (.ok m, s') →
        m.hasReferences = false ∧ s'.ReferenceFree := by
  refine ⟨h.referenceFree, ?_, ?_⟩
  · intro n current m s' hrun
    obtain ⟨hs', -, hm⟩ := (node_referenceFree limit n current s h.referenceFree).of_ok hrun
    exact ⟨hm, hs'⟩
  · intro address m s' hrun
    obtain ⟨hs', -, hm⟩ := (document_referenceFree limit address s h.referenceFree).of_ok hrun
    exact ⟨hm, hs'⟩

/-- The document that refers to itself resolves, and no reference is left in what it resolves
to. -/
theorem no_reference_left_in_ring :
    ∃ m s', outcome (document 3 (.inMemory "ring")) (.ofRegistry .threeDocuments) = (.ok m, s') ∧
      m.hasReferences = false ∧ s'.ReferenceFree := by
  obtain ⟨m, s', h⟩ : ∃ m s',
      outcome (document 3 (.inMemory "ring")) (.ofRegistry .threeDocuments) = (.ok m, s') :=
    exists_of_isOk (by decide +kernel)
  have hfree := (no_reference_left (.start .threeDocuments) 3).2.2 (.inMemory "ring")
  exact ⟨m, s', h, hfree m s' h⟩

end Resolution

end SchemaCatalog
