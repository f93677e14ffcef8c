import SchemaCatalog.Proofs.Resolution.Discipline
import SchemaCatalog.Proofs.Resolution.Expansion
import SchemaCatalog.Proofs.Resolution.Session

/-!
# Sessions are faithful to their documents

A session that resolves documents over a fresh registry changes much of it: documents are read,
nodes are named by anchors, and the anchors of targets that are done with lead to expansions
instead of raw nodes.  `Faithful r s` is what stays true of its resolver `s` to the fresh registry
`r` all the same.  The documents are those of `r`; what an anchor leads to is what stands there in
`r`, or else the anchor is that of a target that is kept; and what is kept for a target is an
expansion of it inside no other, which holds good everywhere.

A target in progress is never kept, so what is looked up for it is raw.  That is why cutting a
cycle gives the stub of the target: aliases lead from targets in progress to targets in progress.

What has been expanded so far may hold stubs of the targets from the cut inwards, the `exposed`
ones, and of no others.  The cut only moves outwards while a target is in progress, and a target
is kept if nothing further out is exposed.
-/

namespace SchemaCatalog

open Relation Resolution

namespace Resolver

/-! ## Exposed targets -/

/-- The targets in progress of which there may be stubs. -/
def exposed (s : Resolver) : List Address := s.active.drop (s.cut.getD s.active.length)

variable {s s' : Resolver} {place p : Address} {depth : Nat}

lemma exposed_cutAt (hp : p ∈ s.exposed) : p ∈ (s.cutAt depth).exposed := by
  unfold exposed at hp ⊢
  unfold cutAt
  cases hcut : s.cut with
  | none =>
    rw [hcut, Option.getD_none, List.drop_length] at hp
    exact absurd hp List.not_mem_nil
  | some c =>
    rw [hcut] at hp
    exact List.drop_subset_drop_left _ (Nat.min_le_left c depth) hp

lemma mem_exposed_cutAt (h : s.active.idxOf? p = some depth) : p ∈ (s.cutAt depth).exposed := by
  obtain ⟨hdepth, hget, -⟩ := List.idxOf?_eq_some_iff.1 h
  have hle : (s.cutAt depth).cut.getD s.active.length ≤ depth := by
    unfold cutAt
    cases s.cut with
    | none => exact Nat.le_refl depth
    | some c => exact Nat.min_le_right c depth
  have hmem : p ∈ s.active.drop depth := by
    rw [List.drop_eq_getElem_cons hdepth]
    exact List.mem_cons.2 (.inl (by simpa using hget.symm))
  exact List.drop_subset_drop_left _ hle hmem

lemma exposed_leave (hactive : s'.active = s.active ++ [place]) (hp : p ∈ s.exposed) :
    p ∈ (s'.leave s).exposed := by
  unfold exposed at hp ⊢
  rw [active_leave_of_enter hactive]
  cases hcut : s.cut with
  | none =>
    rw [hcut, Option.getD_none, List.drop_length] at hp
    exact absurd hp List.not_mem_nil
  | some c =>
    rw [hcut] at hp
    have hle : (s'.leave s).cut.getD s.active.length ≤ c := by
      unfold leave
      rw [hcut]
      cases s'.openCut s.active.length with
      | none => exact Nat.le_refl c
      | some b => exact Nat.min_le_left c b
    exact List.drop_subset_drop_left _ hle hp

/-- What is exposed inside a target is the target itself or is exposed when it is left, and then
a cut lies further out. -/
lemma exposed_of_leave (hactive : s'.active = s.active ++ [place]) (hp : p ∈ s'.exposed) :
    p = place ∨ p ∈ (s'.leave s).exposed ∧ s'.openCut s.active.length ≠ none := by
  unfold exposed at hp ⊢
  rw [active_leave_of_enter hactive]
  rw [hactive] at hp
  cases hcut : s'.cut with
  | none =>
    rw [hcut, Option.getD_none, List.drop_length] at hp
    exact absurd hp List.not_mem_nil
  | some c =>
    rw [hcut, Option.getD_some] at hp
    by_cases hc : c < s.active.length
    · have hopen : s'.openCut s.active.length = some c := by
        unfold openCut
        rw [hcut]
        simp [hc]
      rw [List.drop_append_of_le_length (Nat.le_of_lt hc), List.mem_append,
        List.mem_singleton] at hp
      rcases hp with hp | hp
      · right
        have hle : (s'.leave s).cut.getD s.active.length ≤ c := by
          unfold leave
          rw [hopen]
          cases s.cut with
          | none => exact Nat.le_refl c
          | some a => exact Nat.min_le_right a c
        refine ⟨List.drop_subset_drop_left _ hle hp, ?_⟩
        rw [hopen]
        exact Option.some_ne_none c
      · exact .inl hp
    · left
      have hsub := List.drop_subset_drop_left (s.active ++ [place]) (Nat.le_of_not_lt hc) hp
      rw [List.drop_left] at hsub
      exact List.mem_singleton.1 hsub

end Resolver

/-! ## Faithful resolvers -/

/-- What stays true of the resolver of a session to the fresh registry it began with. -/
structure Faithful (r : Registry) (s : Resolver) : Prop where
  content : ∀ a, (s.registry.content a).map Node.forget = (r.content a).map Node.forget
  anchor : ∀ a fragment m, s.registry.anchor? a fragment = some m →
    (∃ p n, OrderedMap.get? s.expansions p = some n ∧ p.withoutFragment = a.withoutFragment ∧
      p.fragmentText = .ok fragment) ∨ ∃ n, r.found a fragment = .ok n ∧ m.forget = n.forget
  kept : ∀ p n, OrderedMap.get? s.expansions p = some n →
    r.Target p ∧ r.Expansion [] p n.forget

namespace Faithful

variable {r : Registry} {s : Resolver} {p : Address}

lemma ofRegistry (fresh : r.anchors = []) : Faithful r (.ofRegistry r) where
  content a := rfl
  anchor a fragment m h := by
    have hnone : r.anchor? a fragment = none := Registry.anchor?_eq_none fresh a fragment
    rw [show (Resolver.ofRegistry r).registry = r from rfl, hnone] at h
    cases h
  kept p n h := by cases h

lemma alike (h : Faithful r s) {r' : Registry} (halike : s.registry.Alike r') :
    Faithful r (s.withRegistry r') where
  content a := (halike.content a).trans (h.content a)
  anchor a fragment m hm := by
    rw [Resolver.registry_withRegistry, halike.anchor?] at hm
    exact h.anchor a fragment m hm
  kept := h.kept

/-- What is raw for a target that is not kept is what was raw in the beginning. -/
lemma raw_forget (h : Faithful r s) (fresh : r.anchors = []) (distinct : r.Unambiguous)
    (hp : r.Target p) (hnot : OrderedMap.get? s.expansions p = none) :
    (s.registry.raw p).map Node.forget = (r.raw p).map Node.forget := by
  cases hfragment : p.fragmentText with
  | error e =>
    rw [Registry.raw_of_fragmentText_error hfragment, Registry.raw_of_fragmentText_error hfragment]
  | ok fragment =>
    rw [Registry.raw_of_fragmentText hfragment, Registry.raw_of_fragmentText hfragment]
    have hnone := Registry.anchor?_eq_none fresh p fragment
    cases hanchor : s.registry.anchor? p fragment with
    | none =>
      refine Registry.bind_forget (h.content _) fun _ _ hdoc => Registry.placed_forget ?_ hdoc
      rw [hanchor, hnone]
    | some m =>
      rcases h.anchor _ _ _ hanchor with ⟨q, n, hq, hdocument, hqfragment⟩ | ⟨n, hn, hforget⟩
      · -- The entry is that of a kept target, and there is no other target with this fragment.
        obtain rfl := distinct q p (h.kept q n hq).1 hp hdocument fragment hqfragment hfragment
        rw [hnot] at hq
        cases hq
      · obtain ⟨doc, hdoc, -⟩ := Registry.found_cases hn
        obtain ⟨doc', hdoc', -⟩ := Registry.ok_of_map_forget (h.content _).symm hdoc
        rw [Registry.found_of_anchor? hanchor, hdoc', hn]
        exact congrArg Except.ok hforget

/-- Naming the nodes of a raw tree by their anchors is faithful. -/
lemma setAnchors (h : Faithful r s) (fresh : r.anchors = []) (tidy : r.TidyAnchors)
    {raw n m : Node} (hn : r.raw p = .ok n) (hforget : raw.forget = n.forget)
    (hm : m ∈ raw.nodes) :
    Faithful r (s.withRegistry (s.registry.setAnchors p.withoutFragment m)) where
  content a := by
    rw [Resolver.registry_withRegistry, Registry.content_setAnchors]
    exact h.content a
  anchor a fragment l hl := by
    rw [Resolver.registry_withRegistry, Registry.anchor?_setAnchors] at hl
    split at hl
    case isFalse => exact h.anchor a fragment l hl
    case isTrue hname =>
      obtain rfl : m = l := Option.some.inj hl
      obtain ⟨hdocument, hname⟩ := hname
      obtain ⟨m', hm', hforget'⟩ := Node.exists_mem_nodes hforget hm
      rw [← Node.anchors_congr hforget'] at hname
      refine .inr ⟨m', ?_, hforget'.symm⟩
      rw [Address.withoutFragment_idem] at hdocument
      rw [← tidy.found_eq fresh hn hm' hname]
      exact Registry.found_congr_address hdocument.symm fragment
  kept := h.kept

/-- Keeping an expansion that holds good everywhere is faithful. -/
lemma keep (h : Faithful r s) {fragment : String} {m : Node} (hp : r.Target p)
    (hfragment : p.fragmentText = .ok fragment) (hm : r.Expansion [] p m.forget) :
    Faithful r (s.keep p fragment m) where
  content a := by
    unfold Resolver.keep
    split
    · exact h.content a
    · exact h.content a
  anchor a name l hl := by
    have hold : s.registry.anchor? a name = some l →
        (∃ q n, OrderedMap.get? (s.keep p fragment m).expansions q = some n ∧
          q.withoutFragment = a.withoutFragment ∧ q.fragmentText = .ok name) ∨
        ∃ n, r.found a name = .ok n ∧ l.forget = n.forget := by
      intro hl
      refine (h.anchor a name l hl).imp_left ?_
      rintro ⟨q, n, hq, hplace⟩
      by_cases hpq : p = q
      · subst hpq
        exact ⟨p, m, OrderedMap.get?_insert_self _ _ _, hplace⟩
      · refine ⟨q, n, ?_, hplace⟩
        rw [Resolver.expansions_keep, OrderedMap.get?_insert_of_ne _ _ hpq]
        exact hq
    unfold Resolver.keep at hl
    by_cases hempty : fragment = ""
    · rw [if_pos hempty] at hl
      exact hold hl
    · rw [if_neg hempty] at hl
      dsimp only at hl
      rw [Registry.anchor?_setAnchor, Address.withoutFragment_idem] at hl
      split at hl
      case isFalse => exact hold hl
      case isTrue hname =>
        obtain ⟨hdocument, rfl⟩ := hname
        exact .inl ⟨p, m, OrderedMap.get?_insert_self _ _ _, hdocument, hfragment⟩
  kept q n hq := by
    by_cases hpq : p = q
    · subst hpq
      rw [Resolver.expansions_keep, OrderedMap.get?_insert_self] at hq
      obtain rfl := Option.some.inj hq
      exact ⟨hp, hm⟩
    · rw [Resolver.expansions_keep, OrderedMap.get?_insert_of_ne _ _ hpq] at hq
      exact h.kept q n hq

end Faithful

end SchemaCatalog
