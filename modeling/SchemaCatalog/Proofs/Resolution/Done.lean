import SchemaCatalog.Proofs.Resolution.Facets
import SchemaCatalog.Proofs.Resolution.Produced

/-!
# Targets that are done with

A target is done with once an expansion of it is kept.  The expansion is then found wherever the
place is looked up, and so every other way to write the same place is done with too
(`Resolver.Done`), even if it is in progress.

Is what is looked up for a target in progress still raw?  It is if no reference leads to the target
any more once it is done with, and that is a matter of cuts.  From a target that is not done with,
references lead on by way of others that are not (`Resolver.Steps`).  If they lead to a target in
progress, the cut lies there or further out (`Resolver.Marked`), and the expansion is not kept.  So
nothing that is kept leads to what is in progress, and this is what remains true of a resolver
(`Orderly`).
-/

namespace SchemaCatalog

open Relation Resolution

/-! ## Ways -/

section Ways

variable {α : Type} {R S : α → α → Prop} {places : List α} {p q z : α}

/-- The steps that do not begin in some places. -/
def Avoiding (R : α → α → Prop) (places : List α) (p q : α) : Prop := p ∉ places ∧ R p q

lemma reflTransGen_avoiding_mono (sub : ∀ a b, R a b → S a b)
    (way : ReflTransGen (Avoiding R places) p q) : ReflTransGen (Avoiding S places) p q :=
  way.lift id fun a b hab => ⟨hab.1, sub a b hab.2⟩

lemma exists_first (way : ReflTransGen R q z) (hz : z ∈ places) :
    ∃ w ∈ places, ReflTransGen (Avoiding R places) q w ∧ ReflTransGen R w z := by
  induction way using ReflTransGen.head_induction_on with
  | refl => exact ⟨z, hz, .refl, .refl⟩
  | @head a c hstep way ih =>
    by_cases ha : a ∈ places
    · exact ⟨a, ha, .refl, .head hstep way⟩
    · obtain ⟨w, hw, hfirst, hrest⟩ := ih
      exact ⟨w, hw, .head ⟨ha, hstep⟩ hfirst, hrest⟩

/-- A way does not pass a place, or there is a last time that it does. -/
lemma avoids_or_exists_last (way : ReflTransGen (Avoiding R places) q z) (p : α) :
    ReflTransGen (Avoiding R (places ++ [p])) q z ∨
      ∃ x, R p x ∧ ReflTransGen (Avoiding R (places ++ [p])) x z := by
  induction way using ReflTransGen.head_induction_on with
  | refl => exact .inl .refl
  | @head a c hstep way ih =>
    rcases ih with ih | ih
    · by_cases ha : a = p
      · exact .inr ⟨c, ha ▸ hstep.2, ih⟩
      · exact .inl (.head ⟨by simp [hstep.1, ha], hstep.2⟩ ih)
    · exact .inr ih

end Ways

/-! ## Trees without anchors -/

/-- Whether a keyword gives no name to its schema. -/
def Keyword.Nameless (k : Keyword) : Prop := ∀ name, k ≠ .facet (.label .anchor name)

lemma Keyword.lasting_nameless : Lasting Nameless := by
  intro R _ j k hrel hj name hk
  subst hk
  cases hrel
  exact hj name rfl

lemma Node.anchors_eq_nil {n : Node} (h : n.Throughout (Carries Keyword.Nameless)) :
    n.anchors = [] := by
  refine List.filterMap_eq_nil_iff.2 fun a ha => ?_
  obtain ⟨k, hk, hka⟩ := List.mem_filterMap.1 ha
  have hnameless := h.self.keywords k hk
  cases k with
  | facet b =>
    obtain rfl := Option.some.inj hka
    split
    case h_1 name => exact absurd rfl (hnameless name)
    case h_2 => rfl
  | _ => cases hka

namespace Resolver

variable {r r' : Registry} {s s' : Resolver} {p q x : Address} {fragment : String} {m n : Node}

/-! ## Done -/

/-- Whether an expansion of a target is kept, be it under another spelling of the place. -/
def Done (s : Resolver) (p : Address) : Prop :=
  (∃ n, OrderedMap.get? s.expansions p = some n) ∨
    ∃ fragment n, p.fragmentText = .ok fragment ∧ s.registry.anchor? p fragment = some n

lemma done_withRegistry (h : s.registry.Alike r') : (s.withRegistry r').Done p ↔ s.Done p := by
  unfold Done
  rw [registry_withRegistry, expansions_withRegistry]
  simp only [h.anchor?]

lemma anchor?_keep (fragment : String) (a : Address) (name : String) :
    (s.keep p fragment n).registry.anchor? a name =
      if fragment ≠ "" ∧ p.withoutFragment = a.withoutFragment ∧ fragment = name then some n
      else s.registry.anchor? a name := by
  unfold keep
  by_cases hempty : fragment = ""
  · simp [hempty]
  · simp only [hempty, if_false, ne_eq, not_false_eq_true, true_and]
    rw [Registry.anchor?_setAnchor, Address.withoutFragment_idem]

lemma Done.keep (h : s.Done x) (p : Address) (fragment : String) (n : Node) :
    (s.keep p fragment n).Done x := by
  rcases h with ⟨m, hm⟩ | ⟨name, m, hname, hm⟩
  · left
    rw [expansions_keep]
    by_cases hpx : p = x
    · exact ⟨n, hpx ▸ OrderedMap.get?_insert_self _ _ _⟩
    · exact ⟨m, by rw [OrderedMap.get?_insert_of_ne _ _ hpx, hm]⟩
  · right
    by_cases hhere : fragment ≠ "" ∧ p.withoutFragment = x.withoutFragment ∧ fragment = name
    · exact ⟨name, n, hname, by rw [anchor?_keep, if_pos hhere]⟩
    · exact ⟨name, m, hname, by rw [anchor?_keep, if_neg hhere, hm]⟩

lemma done_keep_self : (s.keep p fragment n).Done p :=
  .inl ⟨n, OrderedMap.get?_insert_self _ _ _⟩

/-- What is done with is other spellings of the target that is kept, and what was so before. -/
lemma done_of_keep (hfragment : p.fragmentText = .ok fragment)
    (h : (s.keep p fragment n).Done x) : s.Done x ∨ x.Spells p := by
  rcases h with ⟨m, hm⟩ | ⟨name, m, hname, hm⟩
  · rw [expansions_keep] at hm
    by_cases hpx : p = x
    · exact .inr ⟨hpx ▸ rfl, hpx ▸ rfl⟩
    · rw [OrderedMap.get?_insert_of_ne _ _ hpx] at hm
      exact .inl (.inl ⟨m, hm⟩)
  · rw [anchor?_keep] at hm
    split at hm
    case isTrue hhere => exact .inr ⟨hhere.2.1.symm, by rw [hname, hfragment, hhere.2.2]⟩
    case isFalse => exact .inl (.inr ⟨name, m, hname, hm⟩)

/-- A place that is named is done with in every spelling. -/
lemma Done.of_spells (h : s.Done p) (hnone : OrderedMap.get? s.expansions p = none)
    (hx : x.Spells p) : s.Done x := by
  rcases h with ⟨m, hm⟩ | ⟨name, m, hname, hm⟩
  · rw [hnone] at hm
    cases hm
  · refine .inr ⟨name, m, hx.2.trans hname, ?_⟩
    unfold Registry.anchor? at hm ⊢
    rwa [hx.1]

/-! ## Steps -/

/-- From a target that is not done with a reference leads to another one. -/
def Steps (r : Registry) (s : Resolver) (p q : Address) : Prop := ¬ s.Done p ∧ r.Refers p q

/-- How a resolver may be related to an earlier one: the same targets are in progress, what was
done with is done with, and what was cut is cut there or further out. -/
structure Onward (s s' : Resolver) : Prop where
  active : s'.active = s.active
  done : ∀ p, s.Done p → s'.Done p
  cut : ∀ c, s.cut = some c → ∃ c' ≤ c, s'.cut = some c'

namespace Onward

lemma refl (s : Resolver) : s.Onward s := ⟨rfl, fun _ h => h, fun c h => ⟨c, le_rfl, h⟩⟩

lemma trans {s'' : Resolver} (h : s.Onward s') (h' : s'.Onward s'') : s.Onward s'' where
  active := h'.active.trans h.active
  done p hp := h'.done p (h.done p hp)
  cut c hc := by
    obtain ⟨c₁, hle₁, hc₁⟩ := h.cut c hc
    obtain ⟨c₂, hle₂, hc₂⟩ := h'.cut c₁ hc₁
    exact ⟨c₂, hle₂.trans hle₁, hc₂⟩

lemma alike (h : s.registry.Alike r') : s.Onward (s.withRegistry r') where
  active := rfl
  done _ hp := (done_withRegistry h).2 hp
  cut c hc := ⟨c, le_rfl, hc⟩

lemma cutAt (s : Resolver) (depth : Nat) : s.Onward (s.cutAt depth) where
  active := rfl
  done _ hp := hp
  cut c hc := by
    refine ⟨min c depth, min_le_left _ _, ?_⟩
    show shallower s.cut (some depth) = _
    rw [hc]
    rfl

lemma keep (h : s.Onward s') (p : Address) (fragment : String) (n : Node) :
    s.Onward (s'.keep p fragment n) where
  active := h.active
  done x hx := (h.done x hx).keep p fragment n
  cut := h.cut

lemma leave (h : (s.enter p).Onward s') : s.Onward (s'.leave s) where
  active := active_leave_of_enter h.active
  done x hx := h.done x hx
  cut c hc := by
    show ∃ c' ≤ c, shallower s.cut (s'.openCut s.active.length) = some c'
    rw [hc]
    cases s'.openCut s.active.length with
    | none => exact ⟨c, le_rfl, rfl⟩
    | some b => exact ⟨min c b, min_le_left _ _, rfl⟩

lemma steps (h : s.Onward s') (hstep : s'.Steps r p q) : s.Steps r p q :=
  ⟨fun hp => hstep.1 (h.done p hp), hstep.2⟩

end Onward

/-! ## Cuts -/

/-- Whether the cut tells of all targets in progress to which references lead from a target without
passing one of them. -/
def Marked (r : Registry) (s : Resolver) (p : Address) : Prop :=
  ∀ outer z inner, s.active = outer ++ z :: inner →
    ReflTransGen (Avoiding (s.Steps r) s.active) p z → ∃ c ≤ outer.length, s.cut = some c

namespace Marked

lemma onward (h : s.Marked r p) (hlater : s.Onward s') : s'.Marked r p := by
  intro outer z inner hactive way
  rw [hlater.active] at hactive way
  obtain ⟨c, hle, hc⟩ :=
    h outer z inner hactive (reflTransGen_avoiding_mono (fun _ _ => hlater.steps) way)
  obtain ⟨c', hle', hc'⟩ := hlater.cut c hc
  exact ⟨c', hle'.trans hle, hc'⟩

/-- From what is done with no references are followed. -/
lemma of_done (h : s.Done p) (hp : p ∉ s.active) : s.Marked r p := by
  intro outer z inner hactive way
  rcases way.cases_head with rfl | ⟨x, hx, -⟩
  · exact absurd (by simp [hactive]) hp
  · exact absurd h hx.2.1

lemma cutAt {depth : Nat} (h : s.active.idxOf? p = some depth) : (s.cutAt depth).Marked r p := by
  intro outer z inner hactive way
  obtain ⟨hlt, hget, hfirst⟩ := List.idxOf?_eq_some_iff.1 h
  rcases way.cases_head with rfl | ⟨x, hx, -⟩
  · have hle : depth ≤ outer.length := by
      by_contra hgt
      refine hfirst outer.length (not_le.1 hgt) ?_
      rw [active_cutAt] at hactive
      simp [hactive]
    obtain ⟨c, hc, hcut⟩ : ∃ c ≤ depth, shallower s.cut (some depth) = some c := by
      cases s.cut with
      | none => exact ⟨depth, le_rfl, rfl⟩
      | some c => exact ⟨min c depth, min_le_right _ _, rfl⟩
    exact ⟨c, hc.trans hle, hcut⟩
  · exact absurd (hget ▸ List.getElem_mem hlt) hx.1

/-- If the cut tells of all that the references at a target lead to, it still does when the target
is left. -/
lemma leave (hactive : s'.active = s.active ++ [p]) (hp : p ∉ s.active)
    (h : ∀ q, r.Refers p q → s'.Marked r q) : (s'.leave s).Marked r p := by
  have hleft : (s'.leave s).active = s.active := active_leave_of_enter hactive
  intro outer z inner hsplit way
  rw [hleft] at hsplit way
  have hz : z ∈ s.active := by simp [hsplit]
  -- behind the last time that it passes `p`, the way is one of those inside
  rcases avoids_or_exists_last way p with hway | ⟨q, hpq, hway⟩
  · exfalso
    rcases hway.cases_head with rfl | ⟨x, hx, -⟩
    · exact hp hz
    · exact hx.1 (List.mem_append_right _ (List.mem_singleton_self p))
  · rw [← hactive] at hway
    obtain ⟨c, hle, hc⟩ := h q hpq.2 outer z (inner ++ [p]) (by simp [hactive, hsplit]) hway
    have hopen : s'.openCut s.active.length = some c := by
      have hlt : c < s.active.length := by
        rw [hsplit, List.length_append, List.length_cons]
        omega
      rw [openCut, hc, Option.filter_some, if_pos (by simpa using hlt)]
    show ∃ c ≤ outer.length, shallower s.cut (s'.openCut s.active.length) = some c
    rw [hopen]
    cases s.cut with
    | none => exact ⟨c, hle, rfl⟩
    | some b => exact ⟨min b c, (min_le_right _ _).trans hle, rfl⟩

end Marked

/-- If no cycle was cut further out than a target, nothing leads from it to those in progress once
its expansion is kept. -/
lemma not_reaches_of_openCut (hactive : s'.active = s.active ++ [p]) (hp : p ∉ s.active)
    (hcut : s'.openCut s.active.length = none) (h : ∀ q, r.Refers p q → s'.Marked r q)
    (hpq : r.Refers p q) {z : Address} (hz : z ∈ s.active) :
    ¬ ReflTransGen (((s'.leave s).keep p fragment n).Steps r) q z := by
  intro way
  have hin : z ∈ s'.active := by simp [hactive, hz]
  obtain ⟨w, hw, hfirst, hrest⟩ := exists_first way hin
  have hfirst : ReflTransGen (Avoiding (s'.Steps r) s'.active) q w :=
    reflTransGen_avoiding_mono
      (fun _ _ hab => ⟨fun ha => hab.1 (Done.keep ha p fragment n), hab.2⟩) hfirst
  rw [hactive, List.mem_append, List.mem_singleton] at hw
  rcases hw with hw | rfl
  · -- the first target in progress on the way is one of which the cut tells
    obtain ⟨outer, inner, hsplit⟩ := List.append_of_mem hw
    obtain ⟨c, hle, hc⟩ := h q hpq outer w (inner ++ [p]) (by simp [hactive, hsplit]) hfirst
    rw [openCut, hc, Option.filter_eq_none_iff] at hcut
    refine hcut c rfl (decide_eq_true ?_)
    rw [hsplit, List.length_append, List.length_cons]
    omega
  · rcases hrest.cases_head with rfl | ⟨x, hx, -⟩
    · exact hp hz
    · exact hx.1 done_keep_self

/-! ## Order -/

/-- What remains true of the resolver of a session over a fresh registry `r`.  The documents are
those of `r`.  A place is named only by an expansion that is kept, and what is kept has no
references and has the facets that it has to.  No target in progress is kept.  If one is done with
all the same, in another spelling, nothing that it refers to leads back to it or further out. -/
structure Orderly (r : Registry) (s : Resolver) : Prop where
  content : ∀ a, (s.registry.content a).map Node.forget = (r.content a).map Node.forget
  offers : s.Offers (Node.Throughout (Node.Carries Keyword.Nameless))
  named : ∀ p fragment n, p.fragmentText = .ok fragment →
    s.registry.anchor? p fragment = some n →
      ∃ q, p.Spells q ∧ OrderedMap.get? s.expansions q = some n
  kept : ∀ p n, OrderedMap.get? s.expansions p = some n → n.hasReferences = false ∧ r.Bears p n
  unkept : ∀ p ∈ s.active, OrderedMap.get? s.expansions p = none
  apart : ∀ outer p inner, s.active = outer ++ p :: inner → s.Done p → ∀ q, r.Refers p q →
    ∀ z ∈ outer ++ [p], ¬ ReflTransGen (s.Steps r) q z

namespace Orderly

lemma ofRegistry (fresh : r.anchors = [])
    (offers : r.Offers (Node.Throughout (Node.Carries Keyword.Nameless))) :
    Orderly r (.ofRegistry r) where
  content _ := rfl
  offers := ⟨offers, fun _ he => absurd he List.not_mem_nil⟩
  named p fragment n _ hn := by
    rw [show (Resolver.ofRegistry r).registry = r from rfl,
      Registry.anchor?_eq_none fresh] at hn
    cases hn
  kept _ _ hn := by cases hn
  unkept _ hp := absurd hp List.not_mem_nil
  apart outer p inner hactive := by
    rw [show (Resolver.ofRegistry r).active = [] from rfl] at hactive
    simp at hactive

lemma alike (h : Orderly r s) (halike : s.registry.Alike r') : Orderly r (s.withRegistry r') where
  content a := (halike.content a).trans (h.content a)
  offers := ⟨h.offers.registry.alike Keyword.lasting_nameless halike, h.offers.expansions⟩
  named p fragment n hfragment hn := by
    rw [registry_withRegistry, halike.anchor?] at hn
    exact h.named p fragment n hfragment hn
  kept := h.kept
  unkept := h.unkept
  apart outer p inner hactive hdone q hpq z hz way :=
    h.apart outer p inner hactive ((done_withRegistry halike).1 hdone) q hpq z hz
      (way.lift id fun _ _ => (Onward.alike halike).steps)

lemma cutAt (h : Orderly r s) (depth : Nat) : Orderly r (s.cutAt depth) :=
  ⟨h.content, ⟨h.offers.registry, h.offers.expansions⟩, h.named, h.kept, h.unkept, h.apart⟩

lemma enter (h : Orderly r s) (hp : ¬ s.Done p) : Orderly r (s.enter p) where
  content := h.content
  offers := ⟨h.offers.registry, h.offers.expansions⟩
  named := h.named
  kept := h.kept
  unkept q hq := by
    rcases List.mem_append.1 hq with hq | hq
    · exact h.unkept q hq
    · rw [List.mem_singleton.1 hq]
      exact Option.eq_none_iff_forall_ne_some.2 fun n hn => hp (.inl ⟨n, hn⟩)
  apart outer x inner hactive hdone := by
    rw [active_enter] at hactive
    rcases List.eq_nil_or_concat inner with rfl | ⟨inner, y, rfl⟩
    · obtain ⟨-, hx⟩ := List.append_inj' hactive rfl
      obtain rfl := (List.cons.inj hx).1
      exact absurd hdone hp
    · refine h.apart outer x inner ?_ hdone
      rw [List.concat_eq_append, ← List.cons_append, ← List.append_assoc] at hactive
      exact (List.append_inj' hactive rfl).1

lemma leave (h : Orderly r s') (hactive : s'.active = s.active ++ [p]) :
    Orderly r (s'.leave s) where
  content := h.content
  offers := ⟨h.offers.registry, h.offers.expansions⟩
  named := h.named
  kept := h.kept
  unkept q hq := by
    rw [active_leave_of_enter hactive] at hq
    exact h.unkept q (hactive ▸ List.mem_append_left _ hq)
  apart outer x inner hsplit := by
    rw [active_leave_of_enter hactive] at hsplit
    exact h.apart outer x (inner ++ [p]) (by simp [hactive, hsplit])

/-- An expansion may be kept if nothing leads from its target to those in progress any more. -/
lemma keep (h : Orderly r s) (hp : p ∉ s.active) (hnone : OrderedMap.get? s.expansions p = none)
    (hfragment : p.fragmentText = .ok fragment) (free : n.hasReferences = false)
    (lasts : n.Throughout (Node.Carries Keyword.Nameless)) (bears : r.Bears p n)
    (hapart : s.Done p ∨ ∀ q, r.Refers p q → ∀ z ∈ s.active,
      ¬ ReflTransGen ((s.keep p fragment n).Steps r) q z) :
    Orderly r (s.keep p fragment n) where
  content a := by
    unfold Resolver.keep
    split
    · exact h.content a
    · exact h.content a
  offers := h.offers.keep p fragment lasts
  named x name m hname hm := by
    rw [anchor?_keep] at hm
    split at hm
    case isTrue hhere =>
      obtain rfl := Option.some.inj hm
      exact ⟨p, ⟨hhere.2.1.symm, by rw [hname, hfragment, hhere.2.2]⟩,
        OrderedMap.get?_insert_self _ _ _⟩
    case isFalse =>
      obtain ⟨q, hq, hkept⟩ := h.named x name m hname hm
      have hne : p ≠ q := by
        rintro rfl
        rw [hnone] at hkept
        cases hkept
      exact ⟨q, hq, by rw [expansions_keep, OrderedMap.get?_insert_of_ne _ _ hne, hkept]⟩
  kept q m hm := by
    rw [expansions_keep] at hm
    by_cases hpq : p = q
    · subst hpq
      rw [OrderedMap.get?_insert_self] at hm
      exact Option.some.inj hm ▸ ⟨free, bears⟩
    · rw [OrderedMap.get?_insert_of_ne _ _ hpq] at hm
      exact h.kept q m hm
  unkept q hq := by
    have hpq : p ≠ q := fun hpq => hp (hpq ▸ hq)
    rw [expansions_keep, OrderedMap.get?_insert_of_ne _ _ hpq]
    exact h.unkept q hq
  apart outer x inner hactive hdone q hxq z hz way := by
    by_cases hold : s.Done x
    · refine h.apart outer x inner hactive hold q hxq z hz (way.lift id fun _ _ => ?_)
      exact ((Onward.refl s).keep p fragment n).steps
    · -- the target is done with only now, and so it is a spelling of `p`
      have hspells := (done_of_keep hfragment hdone).resolve_left hold
      rcases hapart with hdone | hapart
      · exact hold (hdone.of_spells hnone hspells)
      · refine hapart q (hxq.of_spells hspells) z ?_ way
        rw [show s.active = outer ++ x :: inner from hactive]
        rcases List.mem_append.1 hz with hz | hz
        · exact List.mem_append_left _ hz
        · rw [List.mem_singleton.1 hz]
          simp

/-! ## What is raw -/

variable (h : Orderly r s)
include h

/-- What is looked up for a target that is not done with is what was raw in the beginning. -/
lemma raw_forget (fresh : r.anchors = []) (hp : ¬ s.Done p) :
    (s.registry.raw p).map Node.forget = (r.raw p).map Node.forget := by
  cases hfragment : p.fragmentText with
  | error e =>
    rw [Registry.raw_of_fragmentText_error hfragment, Registry.raw_of_fragmentText_error hfragment]
  | ok fragment =>
    rw [Registry.raw_of_fragmentText hfragment, Registry.raw_of_fragmentText hfragment]
    refine Registry.bind_forget (h.content _) fun _ _ hdoc => Registry.placed_forget ?_ hdoc
    rw [Registry.anchor?_eq_none fresh]
    cases hanchor : s.registry.anchor? p fragment with
    | none => rfl
    | some n => exact absurd (.inr ⟨fragment, n, hfragment, hanchor⟩) hp

/-- What is looked up for a target that is done with is an expansion. -/
lemma raw_of_done (hp : s.Done p) (hnone : OrderedMap.get? s.expansions p = none)
    (hn : s.registry.raw p = .ok n) : n.hasReferences = false ∧ r.Bears p n := by
  rcases hp with ⟨m, hm⟩ | ⟨fragment, m, hfragment, hm⟩
  · rw [hnone] at hm
    cases hm
  · obtain ⟨q, hq, hkept⟩ := h.named p fragment m hfragment hm
    have hnm : n = m := by
      rw [Registry.raw_of_fragmentText hfragment, Registry.found_of_anchor? hm] at hn
      obtain ⟨-, -, hn⟩ := map_eq_ok_iff.1 hn
      exact hn.symm
    obtain ⟨hfree, hbears⟩ := h.kept q m hkept
    exact hnm ▸ ⟨hfree, hbears.of_spells ⟨hq.1.symm, hq.2.symm⟩⟩

/-- While references lead from a target back to it, it is not done with, and neither is any target
in progress inside it. -/
lemma not_done_of_isChain {outer inner : List Address} (hactive : s.active = outer ++ inner)
    (hchain : List.IsChain r.Refers (inner ++ [p])) (hp : p ∈ outer ++ inner.take 1) :
    (∀ x ∈ inner, ¬ s.Done x) ∧ ∀ y ∈ (inner ++ [p]).head?, ReflTransGen (s.Steps r) y p := by
  induction inner generalizing outer with
  | nil =>
    refine ⟨fun _ hx => absurd hx List.not_mem_nil, fun y hy => ?_⟩
    obtain rfl := Option.some.inj hy
    exact .refl
  | cons x inner ih =>
    have hp' : p ∈ outer ++ [x] := hp
    obtain ⟨hhead, htail⟩ := List.isChain_cons.1 hchain
    have hactive' : s.active = (outer ++ [x]) ++ inner := by simp [hactive]
    obtain ⟨hrest, hreach⟩ := ih hactive' htail (List.mem_append_left _ hp')
    obtain ⟨y, hy⟩ : ∃ y, (inner ++ [p]).head? = some y := by
      cases inner with
      | nil => exact ⟨p, rfl⟩
      | cons y inner => exact ⟨y, rfl⟩
    have hxy : r.Refers x y := hhead y hy
    have hx : ¬ s.Done x := fun hdone =>
      h.apart outer x inner hactive hdone y hxy p hp' (hreach y hy)
    refine ⟨List.forall_mem_cons.2 ⟨hx, hrest⟩, fun z hz => ?_⟩
    obtain rfl := Option.some.inj hz
    exact .head ⟨hx, hxy⟩ (hreach y hy)

end Orderly

end Resolver

end SchemaCatalog
