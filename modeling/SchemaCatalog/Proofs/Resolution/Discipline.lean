import SchemaCatalog.Proofs.Resolution.Logic
import SchemaCatalog.Proofs.Resolution.Outcome

/-!
# Disciplines of a resolution

A `Discipline` is an invariant of resolvers together with an order on them that every step
follows.  `Keeps` says that a program keeps a discipline and what it ensures beside it.

Two statements carry everything that is proved about resolution.  `expandNode_keeps` is about a
tree: if the expansion of targets keeps a discipline, so does the expansion of the tree, and its
result is the tree with the references replaced (`Replaced`).  `expandTarget_ensures` is about a
target, and lists the four ways in which its expansion can go.
-/

namespace SchemaCatalog

namespace Resolution

/-- An invariant of resolvers with an order on them that every step follows. -/
structure Discipline where
  /-- What holds of a resolver between two steps. -/
  inv : Resolver → Prop
  /-- How a resolver may be related to an earlier one. -/
  later : Resolver → Resolver → Prop
  refl : ∀ s, later s s
  trans : ∀ {s t u}, later s t → later t u → later s u

/-- The discipline that keeps an invariant and ends with the targets in progress that it began
with. -/
def Discipline.steady (inv : Resolver → Prop) : Discipline where
  inv := inv
  later s s' := s'.active = s.active
  refl _ := rfl
  trans h h' := h'.trans h

variable {D : Discipline} {α : Type} {x : Resolution α} {s : Resolver}

/-- From a resolver that satisfies the invariant, the program leads to a later one that does, and
its outcome satisfies `ok` or `fail`. -/
def Keeps (D : Discipline) (x : Resolution α) (s : Resolver) (ok : α → Resolver → Prop)
    (fail : ResolveError → Prop) : Prop :=
  D.inv s → Ensures x s (fun a s' => D.inv s' ∧ D.later s s' ∧ ok a s')
    (fun e s' => D.inv s' ∧ D.later s s' ∧ fail e)

namespace Keeps

variable {ok ok' : α → Resolver → Prop} {fail fail' : ResolveError → Prop}

lemma mono (h : Keeps D x s ok fail) (hok : ∀ a s', ok a s' → ok' a s')
    (hfail : ∀ e, fail e → fail' e) : Keeps D x s ok' fail' := fun hs =>
  (h hs).mono (fun a s' h => ⟨h.1, h.2.1, hok a s' h.2.2⟩)
    (fun e _ h => ⟨h.1, h.2.1, hfail e h.2.2⟩)

lemma throw {e : ResolveError} (h : fail e) : Keeps D (MonadExcept.throw e) s ok fail := fun hs =>
  ⟨hs, D.refl s, h⟩

end Keeps

/-! ## Trees -/

/-- The logic of a discipline. -/
def Discipline.logic (D : Discipline) : Logic Resolution where
  later := D.later
  ensures := Keeps D
  mono h hok hs := (h hs).mono
    (fun a s' h => ⟨h.1, h.2.1, hok a s' h.2.1 h.2.2⟩) (fun _ _ h => h)
  pure h hs := ⟨hs, D.refl _, h⟩
  throw := Keeps.throw
  bind hx hf hs := by
    rw [ensures_bind]
    refine (hx hs).mono ?_ fun _ _ h => h
    rintro a s' ⟨hs', hlater, ha⟩
    refine (hf a s' hlater ha hs').mono ?_ ?_
    · rintro b s'' ⟨hs'', hlater', hb⟩
      exact ⟨hs'', D.trans hlater hlater', hb⟩
    · rintro e s'' ⟨hs'', hlater', he⟩
      exact ⟨hs'', D.trans hlater hlater', he⟩

/-- What the expansion of a tree asks for: naming nodes by their anchors and taking identities
keeps the discipline, targets are expanded to nodes that `F` allows, and each fault of the tree
itself is an error that `fail` allows. -/
structure Serves (D : Discipline) (F : Resolver → Address → Node → Prop)
    (fail : ResolveError → Prop) (expand : Address → Resolution Node) (current : Address)
    (n : Node) : Prop where
  stable : ∀ s s' t m, D.later s s' → F s t m → F s' t m
  fresh : ∀ s, D.inv s → ∀ m, D.inv (s.withRegistry (s.registry.renew m).2) ∧
    D.later s (s.withRegistry (s.registry.renew m).2)
  anchors : ∀ m ∈ n.nodes, ∀ s, D.inv s →
    D.inv (s.withRegistry (s.registry.setAnchors current m)) ∧
      D.later s (s.withRegistry (s.registry.setAnchors current m))
  expand : ∀ m ∈ n.nodes, ∀ reference, m.references = [reference] →
    ∀ t, current.target reference = .ok t → ∀ s, Keeps D (expand t) s (fun m s' => F s' t m) fail
  malformed : ∀ m ∈ n.nodes, ∀ reference, m.references = [reference] →
    ∀ e, current.target reference = .error e → fail e
  several : ∀ m ∈ n.nodes, 1 < m.references.length →
    fail (.malformed (", ".intercalate m.references) .several)

/-- **The expansion of a tree keeps every discipline that its targets keep, and its result is the
tree with the references replaced.** -/
theorem expandNode_keeps {F : Resolver → Address → Node → Prop} {fail : ResolveError → Prop}
    {expand : Address → Resolution Node} {current : Address} {n : Node}
    (h : Serves D F fail expand current n) (s : Resolver) :
    Keeps D (expandNode expand current n) s (fun r s' => Replaced (F s') current n r) fail := by
  refine Logic.expandNode (L := D.logic) ?_ s
  exact {
    stable := h.stable
    expand := h.expand
    malformed := h.malformed
    several := h.several
    fresh := fun s n hs => by
      rw [ensures_fresh]
      obtain ⟨hinv, hlater⟩ := h.fresh s hs n
      exact ⟨hinv, hlater, rfl, rfl⟩
    anchors := fun m hm s hs => by
      rw [ensures_setAnchors]
      obtain ⟨hinv, hlater⟩ := h.anchors m hm s hs
      exact ⟨hinv, hlater, trivial⟩ }

/-! ## Targets -/

/-- The four ways in which the expansion of a target can go: it is kept already; there is no such
place; the target is being expanded, and a cycle is closed; or it is expanded inside those that
are, and kept if no cycle was cut further out. -/
theorem expandTarget_ensures {limit : Nat} {target : Address} {s : Resolver}
    {ok : Node → Resolver → Prop} {fail : ResolveError → Resolver → Prop}
    (kept : ∀ n, OrderedMap.get? s.expansions target.place = some n → ok n s)
    (missing : OrderedMap.get? s.expansions target.place = none → ∀ e r, s.registry.Alike r →
      s.registry.raw target.place = .error e → fail e (s.withRegistry r))
    (cycle : OrderedMap.get? s.expansions target.place = none → ∀ n raw r, s.registry.Alike r →
      s.registry.raw target.place = .ok n → raw.forget = n.forget → ∀ depth,
      s.active.idxOf? target.place = some depth →
      Ensures (closeCycle limit depth raw target.withoutFragment) (s.withRegistry r) ok fail)
    (opened : OrderedMap.get? s.expansions target.place = none → ∀ n raw r, s.registry.Alike r →
      s.registry.raw target.place = .ok n → raw.forget = n.forget →
      target.place ∉ s.active → ∀ fragment, target.place.fragmentText = .ok fragment →
      Ensures (expandNode (expandTarget limit) target.withoutFragment raw)
        ((s.withRegistry r).enter target.place)
        (fun m s' =>
          (s'.openCut s.active.length = none →
            ok m ((s'.leave (s.withRegistry r)).keep target.place fragment m)) ∧
          (s'.openCut s.active.length ≠ none → ok m (s'.leave (s.withRegistry r))))
        (fun e s' => fail e (s'.leave (s.withRegistry r)))) :
    Ensures (expandTarget (limit + 1) target) s ok fail := by
  rw [expandTarget]
  simp only [ensures_bind, ensures_get]
  cases hkept : OrderedMap.get? s.expansions target.place with
  | some n => exact kept n hkept
  | none =>
    simp only [ensures_bind, ensures_ofExcept]
    constructor
    case right =>
      intro e he
      exact missing hkept e s.registry (.refl _) (Registry.raw_of_fragmentText_error he)
    intro fragment hfragment
    apply ensures_rawAt
    case missing => exact missing hkept
    case found =>
      intro n raw r halike hn hraw
      rw [Address.withoutFragment_place, ensures_get]
      cases hactive : (s.withRegistry r).active.idxOf? target.place with
      | some depth => exact cycle hkept n raw r halike hn hraw depth hactive
      | none =>
        have hnot : target.place ∉ s.active := List.idxOf?_eq_none_iff.1 hactive
        simp only [ensures_bind, ensures_inside]
        refine (opened hkept n raw r halike hn hraw hnot fragment hfragment).mono ?_
          fun _ _ h => h
        rintro m s' ⟨hclosed, hopen⟩
        cases hcut : s'.openCut (s.withRegistry r).active.length with
        | none =>
          rw [if_pos Option.isNone_none, ensures_bind, ensures_modify]
          exact hclosed hcut
        | some depth =>
          rw [if_neg (by simp)]
          refine hopen ?_
          rw [← Resolver.active_withRegistry s r, hcut]
          exact Option.some_ne_none depth

end Resolution

end SchemaCatalog
