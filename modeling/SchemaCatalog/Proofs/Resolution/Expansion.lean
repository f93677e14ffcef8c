import SchemaCatalog.Proofs.Resolution.Documents
import SchemaCatalog.Proofs.Resolution.Replacement
import SchemaCatalog.Proofs.Resolution.Termination

/-!
# What a target expands to

This file says, over a fresh registry and without any state, what the expansion of a target may
be and how it may fail.

`Expansion r opened p m` holds if the tree `m` is an expansion of the target at `p` inside the
expansions of the targets `opened`: it is the tree at `p` with every reference replaced by an
expansion of its target inside one more, or, only if `p` is itself among `opened`, it is the stub
of `p`.  The stub has the facets of the first node on the chain of aliases from `p` that is more
than a bare reference, and nothing where the chain loops (`Stub`).

`Fault r p e` lists the ways to fail at `p` with the error `e`.  One of them is kept vague: where
references from `p` lead back to `p`, any error counts.
-/

namespace SchemaCatalog

open Relation

/-! ## Chains -/

lemma exists_rel_of_isChain {α : Type} {R : α → α → Prop} {l : List α} {a o : α}
    (h : List.IsChain R (l ++ [a])) (ho : o ∈ l) : ∃ b ∈ l ++ [a], R o b := by
  obtain ⟨before, after, rfl⟩ := List.append_of_mem ho
  obtain ⟨b, rest, hrest⟩ : ∃ b rest, after ++ [a] = b :: rest := by
    cases after with
    | nil => exact ⟨a, [], rfl⟩
    | cons b after => exact ⟨b, after ++ [a], rfl⟩
  have hchain : List.IsChain R (before ++ o :: b :: rest) := by
    rw [← hrest]
    simpa using h
  refine ⟨b, ?_, (List.isChain_append_cons_cons.1 hchain).2.1⟩
  have hmem : b ∈ after ++ [a] := by
    rw [hrest]
    exact List.mem_cons_self
  rw [List.append_assoc, List.cons_append]
  exact List.mem_append_right _ (List.mem_cons_of_mem _ hmem)

/-- From every member of a chain but the last steps lead to the last. -/
lemma transGen_of_isChain {α : Type} {R : α → α → Prop} {l : List α} {a o : α}
    (h : List.IsChain R (l ++ [a])) (ho : o ∈ l) : TransGen R o a := by
  induction l generalizing o with
  | nil => exact absurd ho List.not_mem_nil
  | cons b l ih =>
    cases l with
    | nil =>
      rw [List.mem_singleton.1 ho]
      exact .single (List.isChain_cons_cons.1 h).1
    | cons c l =>
      obtain ⟨hbc, hrest⟩ := List.isChain_cons_cons.1 h
      rcases List.mem_cons.1 ho with rfl | ho
      · exact .head hbc (ih hrest List.mem_cons_self)
      · exact ih hrest ho

/-! ## Stubs -/

namespace Node

lemma cycleStub_forget (n : Node) : n.forget.cycleStub = n.cycleStub.forget := by
  rw [forget_eq n.cycleStub, forget_eq n]
  unfold cycleStub
  dsimp only
  rw [List.filter_map]
  simp only [Function.comp_def, Keyword.isFacet_map]

lemma cycleStub_of_bare {n : Node} {reference : String} (h : n.keywords = [.ref reference]) :
    n.cycleStub.forget = { truth := n.truth } := by
  rw [forget_eq]
  unfold cycleStub
  rw [h]
  rfl

lemma targets_of_bare {n : Node} {current t : Address} {reference : String}
    (hbare : n.keywords = [.ref reference]) (ht : current.target reference = .ok t) :
    n.targets current = [t.place] := by
  have hnodes : n.nodes = [n] := by
    rw [nodes_eq, hbare]
    rfl
  unfold targets
  rw [hnodes, List.flatMap_singleton, references_of_bare hbare, List.filterMap_cons, ht]
  rfl

end Node

namespace Registry

/-- A bare reference at one place names the other. -/
def AliasTo (r : Registry) (p q : Address) : Prop :=
  ∃ n reference t, r.raw p = .ok n ∧ n.keywords = [.ref reference] ∧
    p.target reference = .ok t ∧ t.place = q

/-- The stub of a target: the facets of the first node on its chain of aliases that is more than
a bare reference, and no keyword if the chain loops. -/
inductive Stub (r : Registry) (p : Address) : Node → Prop where
  | own {q : Address} {n : Node} (way : ReflTransGen r.AliasTo p q) (raw : r.raw q = .ok n)
      (more : ∀ reference, n.keywords ≠ [.ref reference]) : Stub r p n.cycleStub.forget
  | loop {q : Address} {n : Node} (way : ReflTransGen r.AliasTo p q)
      (cycle : TransGen r.AliasTo q q) (raw : r.raw q = .ok n) : Stub r p { truth := n.truth }

/-! ## Expansions -/

/-- The expansions of the target at `p` inside those of the targets `opened`.  The relation `P` is
any that holds of expansions one target further inside. -/
inductive Expansion (r : Registry) : List Address → Address → Node → Prop where
  /-- Inside an expansion of the target, its stub may stand in its place. -/
  | cut {opened : List Address} {p : Address} {m : Node} (inside : p ∈ opened)
      (stub : r.Stub p m) : Expansion r opened p m
  /-- The tree at the place, every reference replaced by an expansion of its target. -/
  | expand {opened : List Address} {p : Address} {n m : Node} {P : Address → Node → Prop}
      (raw : r.raw p = .ok n) (sub : ∀ q l, P q l → Expansion r (p :: opened) q l)
      (replaced : Replaced (fun t l => P t.place l) p.withoutFragment n.forget m) :
      Expansion r opened p m

/-- The ways in which the expansion of a target may fail. -/
inductive Fault (r : Registry) : Address → ResolveError → Prop where
  | tooDeep {p : Address} {e : ResolveError} (h : e.IsTooDeep) : Fault r p e
  | missing {p : Address} {e : ResolveError} (raw : r.raw p = .error e) : Fault r p e
  | malformed {p : Address} {n m : Node} {reference : String} {e : ResolveError}
      (raw : r.raw p = .ok n) (mem : m ∈ n.nodes) (one : m.references = [reference])
      (target : p.target reference = .error e) : Fault r p e
  | several {p : Address} {n m : Node} {e : ResolveError} (raw : r.raw p = .ok n)
      (mem : m ∈ n.nodes) (more : 1 < m.references.length) : Fault r p e
  | nested {p q : Address} {e : ResolveError} (refers : r.Refers p q) (fault : Fault r q e) :
      Fault r p e
  | cyclic {p : Address} {e : ResolveError} (cycle : TransGen r.Refers p p) : Fault r p e

variable {r : Registry} {p q : Address}

lemma Expansion.mono {opened opened' : List Address} {m : Node} (h : r.Expansion opened p m)
    (sub : ∀ q ∈ opened, q ∈ opened') : r.Expansion opened' p m := by
  induction h generalizing opened' with
  | cut inside stub => exact .cut (sub _ inside) stub
  | expand raw _ replaced ih =>
    refine .expand raw (fun q l hP => ih q l hP ?_) replaced
    intro t ht
    rcases List.mem_cons.1 ht with rfl | ht
    · exact List.mem_cons_self
    · exact List.mem_cons_of_mem _ (sub t ht)

/-- Where the references of the tree at a place are replaced by expansions inside some targets,
an expansion comes of it inside all of them but the place itself. -/
lemma Expansion.of_replaced {opened exposed : List Address} {raw n m : Node}
    (hn : r.raw p = .ok n) (hforget : raw.forget = n.forget)
    (h : Replaced (fun t l => r.Expansion exposed t.place l.forget) p.withoutFragment raw m)
    (hopened : ∀ q ∈ exposed, q ∈ p :: opened) : r.Expansion opened p m.forget := by
  refine .expand (P := fun q l => r.Expansion exposed q l) hn
    (fun q l h => h.mono hopened) ?_
  rw [← hforget]
  exact h.forget fun t l hl => hl

lemma AliasTo.eq_of_refers {q' : Address} (h : r.AliasTo p q) (h' : r.Refers p q') : q' = q := by
  obtain ⟨n, reference, t, hn, hbare, ht, rfl⟩ := h
  obtain ⟨n', hn', hq'⟩ := h'
  obtain rfl : n = n' := Except.ok.inj (hn.symm.trans hn')
  rw [Node.targets_of_bare hbare ht] at hq'
  exact List.mem_singleton.1 hq'

/-- While a target is expanded that refers back to one in progress, aliases lead from targets in
progress to targets in progress alone. -/
lemma AliasTo.mem_of_isChain {stack : List Address} {t : Address} (h : r.AliasTo p q)
    (hchain : List.IsChain r.Refers (stack ++ [t])) (ht : t ∈ stack) (hp : p ∈ stack) :
    q ∈ stack := by
  obtain ⟨q', hq', hrefers⟩ := exists_rel_of_isChain hchain hp
  obtain rfl := h.eq_of_refers hrefers
  rcases List.mem_append.1 hq' with hq' | hq'
  · exact hq'
  · rw [List.mem_singleton.1 hq']
    exact ht

end Registry

namespace Resolution

/-- Among places that are closed under aliases and raw as they were, the aliases from a place lead
to its stub. -/
lemma followAliases_stub {r : Registry} {s : Resolver} {places seen : List Address} {limit : Nat}
    {raw n : Node} {p q : Address} (closed : ∀ x ∈ places, ∀ y, r.AliasTo x y → y ∈ places)
    (same : ∀ x ∈ places, (s.registry.raw x).map Node.forget = (r.raw x).map Node.forget)
    (hq : q ∈ places) (way : ReflTransGen r.AliasTo p q) (hn : r.raw q = .ok n)
    (hforget : raw.forget = n.forget) (hseen : ∀ x ∈ seen, ReflTransGen r.AliasTo x q) :
    Ensures (followAliases limit seen raw q.withoutFragment) s
      (fun found _ => r.Stub p found.1.cycleStub.forget) (fun _ _ => True) := by
  induction limit generalizing seen raw n q s with
  | zero => exact trivial
  | succ limit ih =>
    rw [followAliases]
    split
    case h_2 hmore =>
      change r.Stub p raw.cycleStub.forget
      rw [← Node.cycleStub_forget, hforget, Node.cycleStub_forget]
      refine .own way hn fun reference hbare => hmore reference ?_
      rwa [Node.bare_congr hforget]
    case h_1 reference hbare =>
      rw [ensures_bind, ensures_ofExcept]
      refine ⟨fun t ht => ?_, fun _ _ => trivial⟩
      rw [Address.target_withoutFragment] at ht
      have hstep : r.AliasTo q t.place := by
        refine ⟨n, reference, t, hn, ?_, ht, rfl⟩
        rwa [← Node.bare_congr hforget]
      by_cases hmem : t.place ∈ seen
      · -- The chain comes back to a place that it has passed.
        rw [if_pos hmem]
        change r.Stub p raw.cycleStub.forget
        have htruth : raw.truth = n.truth := by
          rw [← raw.truth_forget, hforget, n.truth_forget]
        rw [Node.cycleStub_of_bare hbare, htruth]
        exact .loop way (.head' hstep (hseen t.place hmem)) hn
      · rw [if_neg hmem, ensures_bind]
        have ht' : t.place ∈ places := closed q hq t.place hstep
        apply ensures_rawAt
        case missing => exact fun _ _ _ _ => trivial
        case found =>
          intro n₁ raw' r' halike hn₁ hforget'
          obtain ⟨n', hn', hforget₁⟩ := Registry.ok_of_map_forget (same _ ht') hn₁
          refine ih (fun x hx => (halike.raw x).trans (same x hx)) ht' (way.tail hstep) hn'
            (hforget'.trans hforget₁) ?_
          intro x hx
          rcases List.mem_cons.1 hx with rfl | hx
          · exact .refl
          · exact (hseen x hx).tail hstep

end Resolution

end SchemaCatalog
