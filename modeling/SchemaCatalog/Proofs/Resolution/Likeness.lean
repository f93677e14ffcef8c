import SchemaCatalog.Proofs.Registry.Identities
import SchemaCatalog.Proofs.Resolution.Outcome

/-!
# Resolvers that hold the same trees

Two resolvers may hold the same trees, kept at different times and therefore under different
identities.  `Like W s t` is that relation of resolvers.  It says more of the first resolver than
of the second, namely that it is coherent: the roster `W` covers all that it has.

A tree of the first resolver and one of the second may stand in the same place if the one is
listed and they are the same but for identities and base addresses (`Node.Matches`).  Every step
of a resolver keeps the relation, with trees that match on both sides and a roster that may grow;
and a place may be looked up on one side alone (`Resolver.Like.lookup`).
-/

namespace SchemaCatalog

variable {W W' : Roster}

/-! ## Trees that match -/

namespace Node

variable {n m : Node}

/-- A listed tree and one that is the same but for identities and base addresses. -/
structure Matches (W : Roster) (n m : Node) : Prop where
  listed : n.Listed W
  forget : n.forget = m.forget

namespace Matches

lemma mono (grows : W.Grows W') (h : n.Matches W m) : n.Matches W' m :=
  ⟨h.listed.mono grows, h.forget⟩

lemma truth (h : n.Matches W m) : n.truth = m.truth := by
  rw [← truth_forget, h.forget, truth_forget]

/-- The schemas in the keywords of trees that match do. -/
lemma keywords (h : n.Matches W m) :
    List.Forall₂ (Keyword.Related (Matches W)) n.keywords m.keywords :=
  forall₂_imp_of_mem (related_of_forget h.forget) fun _ hk _ _ hrel =>
    hrel.mono fun _ hc _ hforget => ⟨h.listed.nested hk hc, hforget⟩

end Matches

/-- Keywords that match make nodes that differ in identities and base addresses. -/
lemma forget_of_matches (htruth : n.truth = m.truth)
    (h : List.Forall₂ (Keyword.Related (Matches W)) n.keywords m.keywords) :
    n.forget = m.forget :=
  forget_eq_forget_iff.2 ⟨htruth, h.imp fun _ _ hkl => hkl.mono fun _ _ _ hab => hab.forget⟩

end Node

/-! ## Registries with the same trees -/

namespace Registry

variable {r r' r₁ r₁' : Registry}

/-- Registries that have the same trees at addresses and under names. -/
structure Same (r r' : Registry) : Prop where
  content : ∀ a, (r'.content a).map Node.forget = (r.content a).map Node.forget
  anchor? : ∀ a name, (r'.anchor? a name).map Node.forget = (r.anchor? a name).map Node.forget

namespace Same

lemma refl (r : Registry) : Same r r := ⟨fun _ => rfl, fun _ _ => rfl⟩

lemma alike (h : Same r r') (halike : Alike r r₁) (halike' : Alike r' r₁') : Same r₁ r₁' where
  content a := by rw [halike'.content, halike.content, h.content]
  anchor? a name := by rw [halike'.anchor?, halike.anchor?, h.anchor?]

/-- Registries with the same trees find the same trees. -/
lemma found (h : Same r r') (address : Address) (fragment : String) :
    (r'.found address fragment).map Node.forget = (r.found address fragment).map Node.forget :=
  bind_forget (h.content address) fun _ _ hdoc => placed_forget (h.anchor? address fragment) hdoc

lemma setAnchor (h : Same r r') (address : Address) (name : String) {n m : Node}
    (hforget : n.forget = m.forget) :
    Same (r.setAnchor address name n) (r'.setAnchor address name m) where
  content := h.content
  anchor? a other := by
    rw [anchor?_setAnchor, anchor?_setAnchor]
    split
    · rw [Option.map_some, Option.map_some, hforget]
    · exact h.anchor? a other

lemma setAnchors (h : Same r r') (address : Address) {n m : Node}
    (hforget : n.forget = m.forget) :
    Same (r.setAnchors address n) (r'.setAnchors address m) where
  content a := by rw [content_setAnchors, content_setAnchors, h.content]
  anchor? a name := by
    rw [anchor?_setAnchors, anchor?_setAnchors, Node.anchors_congr hforget]
    split
    · rw [Option.map_some, Option.map_some, hforget]
    · exact h.anchor? a name

end Same

end Registry

/-! ## Resolvers that are like one another -/

/-- Resolvers that hold the same trees and are in the same progress, the first one coherent in
a roster. -/
structure Resolver.Like (W : Roster) (s t : Resolver) : Prop where
  coherent : s.registry.CoherentIn W
  same : s.registry.Same t.registry
  listed : ∀ p n, OrderedMap.get? s.expansions p = some n → n.Listed W
  expansions : ∀ p, (OrderedMap.get? t.expansions p).map Node.forget =
    (OrderedMap.get? s.expansions p).map Node.forget
  active : t.active = s.active
  cut : t.cut = s.cut

namespace Resolver.Like

variable {s t s' t' : Resolver}

/-- A resolver over a coherent registry that has nothing in progress is like itself. -/
lemma ofRegistry {r : Registry} (h : r.CoherentIn W) :
    Like W (.ofRegistry r) (.ofRegistry r) where
  coherent := h
  same := .refl r
  listed p n hn := by cases hn
  expansions p := rfl
  active := rfl
  cut := rfl

lemma withRegistry (h : Like W s t) (grows : W.Grows W') {r r' : Registry}
    (coherent : r.CoherentIn W') (same : r.Same r') :
    Like W' (s.withRegistry r) (t.withRegistry r') where
  coherent := coherent
  same := same
  listed p n hn := (h.listed p n hn).mono grows
  expansions := h.expansions
  active := h.active
  cut := h.cut

lemma cutAt (h : Like W s t) (depth : Nat) : Like W (s.cutAt depth) (t.cutAt depth) where
  coherent := h.coherent
  same := h.same
  listed := h.listed
  expansions := h.expansions
  active := h.active
  cut := by rw [Resolver.cutAt, Resolver.cutAt, h.cut]

lemma enter (h : Like W s t) (place : Address) : Like W (s.enter place) (t.enter place) where
  coherent := h.coherent
  same := h.same
  listed := h.listed
  expansions := h.expansions
  active := by rw [active_enter, active_enter, h.active]
  cut := rfl

lemma openCut (h : Like W s t) (depth : Nat) : t.openCut depth = s.openCut depth := by
  rw [Resolver.openCut, Resolver.openCut, h.cut]

lemma leave (h : Like W' s' t') (before : Like W s t) : Like W' (s'.leave s) (t'.leave t) where
  coherent := h.coherent
  same := h.same
  listed := h.listed
  expansions := h.expansions
  active := by rw [active_leave, active_leave, h.active]
  cut := by rw [Resolver.leave, Resolver.leave, h.openCut, before.cut, before.active]

lemma keep (h : Like W s t) (place : Address) (fragment : String) {n m : Node}
    (hnm : n.Matches W m) : Like W (s.keep place fragment n) (t.keep place fragment m) where
  coherent := by
    unfold Resolver.keep
    dsimp only
    split
    · exact h.coherent
    · exact h.coherent.setAnchor _ _ hnm.listed
  same := by
    unfold Resolver.keep
    dsimp only
    split
    · exact h.same
    · exact h.same.setAnchor _ _ hnm.forget
  listed p l hl := by
    rw [expansions_keep] at hl
    by_cases hp : place = p
    · rw [hp, OrderedMap.get?_insert_self] at hl
      exact Option.some.inj hl ▸ hnm.listed
    · rw [OrderedMap.get?_insert_of_ne _ _ hp] at hl
      exact h.listed p l hl
  expansions p := by
    rw [expansions_keep, expansions_keep]
    by_cases hp : place = p
    · rw [hp, OrderedMap.get?_insert_self, OrderedMap.get?_insert_self, Option.map_some,
        Option.map_some, hnm.forget]
    · rw [OrderedMap.get?_insert_of_ne _ _ hp, OrderedMap.get?_insert_of_ne _ _ hp, h.expansions]
  active := h.active
  cut := h.cut

/-- A place may be looked up on the one side alone. -/
lemma lookup (h : Like W s t) (address : Address) (fragment : String) : ∃ W', W.Grows W' ∧
    Like W' (s.withRegistry ((Registry.lookup address fragment).run.run s.registry).2) t := by
  obtain ⟨W', grows, coherent, -⟩ := h.coherent.lookup address fragment
  have halike := (s.registry.lookup_found address fragment).2
  exact ⟨W', grows, h.withRegistry grows coherent (h.same.alike halike (.refl t.registry))⟩

end Resolver.Like

end SchemaCatalog
