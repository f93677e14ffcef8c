import SchemaCatalog.Proofs.Resolution.Expansion

/-!
# The facets of a target

Where a cycle closes, a target is given its stub, and elsewhere its expansion, and the two come by
their facets in different ways.  The stub is read off the documents: it has the facets of the node
in which the chain of aliases from the target ends.  The expansion has gathered facets along the
references that were merged into it.

Whatever the run, the two agree as far as they can (`Registry.Bears`).  A chain of aliases comes
to an end or loops.  If the node at its end has no reference, the expansion has the facets of this
node and no others, and so has the stub; if the chain loops, neither has any.  But if the node at
the end has a reference and keywords beside it, the target extends another one: the expansion has
the facets of the node first, and those of the other target behind them, which the stub has not.
-/

namespace SchemaCatalog

open Relation

/-! ## Facets -/

namespace Node

/-- A reference is no facet. -/
lemma facets_own (n : Node) : n.own.filterMap Keyword.facet? = n.facets := by
  unfold own facets
  rw [List.filterMap_filter]
  refine List.filterMap_congr fun k _ => ?_
  cases k <;> rfl

/-- A stub is told by its truth value and its facets. -/
lemma forget_cycleStub (n : Node) :
    n.cycleStub.forget = { truth := n.truth, keywords := n.facets.map .facet } := by
  have hfacets : n.keywords.filter Keyword.isFacet = n.facets.map .facet := by
    unfold facets
    induction n.keywords with
    | nil => rfl
    | cons k ks ih =>
      rw [List.filter_cons, List.filterMap_cons, ih]
      cases k <;> rfl
  rw [forget_eq]
  unfold cycleStub
  dsimp only
  rw [hfacets, List.map_map]
  rfl

lemma facets_cycleStub (n : Node) : n.cycleStub.facets = n.facets := by
  rw [← facets_forget, forget_cycleStub]
  unfold facets
  rw [List.filterMap_map]
  exact List.filterMap_some

lemma truth_of_forget {n m : Node} (h : n.forget = m.forget) : n.truth = m.truth := by
  rw [← truth_forget, h, truth_forget]

lemma facets_of_forget {n m : Node} (h : n.forget = m.forget) : n.facets = m.facets := by
  rw [← facets_forget, h, facets_forget]

end Node

/-! ## Spellings -/

/-- Whether two addresses are the same fragment of the same document once escapes are undone. -/
def Address.Spells (p q : Address) : Prop :=
  p.withoutFragment = q.withoutFragment ∧ p.fragmentText = q.fragmentText

namespace Registry

variable {r : Registry} {p q x : Address} {n m l : Node}

lemma raw_of_spells (h : p.Spells q) : r.raw p = r.raw q := by
  unfold raw
  rw [h.1, h.2]

lemma target_of_spells (h : p.Spells q) (reference : String) :
    p.target reference = q.target reference := by
  rw [← Address.target_withoutFragment, h.1, Address.target_withoutFragment]

lemma Refers.of_spells (h : p.Spells q) (hp : r.Refers p x) : r.Refers q x := by
  obtain ⟨n, hn, hx⟩ := hp
  refine ⟨n, raw_of_spells h ▸ hn, ?_⟩
  rwa [← Node.targets_withoutFragment, ← h.1, Node.targets_withoutFragment]

lemma AliasTo.of_spells (h : p.Spells q) (hp : r.AliasTo p x) : r.AliasTo q x := by
  obtain ⟨n, reference, t, hn, hbare, ht, hx⟩ := hp
  exact ⟨n, reference, t, raw_of_spells h ▸ hn, hbare, target_of_spells h reference ▸ ht, hx⟩

/-! ## Chains of aliases -/

/-- The chain of aliases from a target ends in a node that is more than a bare reference. -/
def Ends (r : Registry) (p : Address) (n : Node) : Prop :=
  ∃ q, ReflTransGen r.AliasTo p q ∧ r.raw q = .ok n ∧ ∀ reference, n.keywords ≠ [.ref reference]

/-- The chain of aliases from a target loops. -/
def Loops (r : Registry) (p : Address) : Prop :=
  ∃ q, ReflTransGen r.AliasTo p q ∧ TransGen r.AliasTo q q

/-- The target extends another one: the node in which its chain of aliases ends has a reference in
company. -/
def Extends (r : Registry) (p : Address) : Prop := ∃ n, r.Ends p n ∧ n.references ≠ []

lemma AliasTo.rightUnique (r : Registry) : Relator.RightUnique r.AliasTo := by
  rintro p q q' ⟨n, reference, t, hn, hbare, ht, rfl⟩ ⟨n', reference', t', hn', hbare', ht', rfl⟩
  obtain rfl := Except.ok.inj (hn.symm.trans hn')
  obtain rfl : reference = reference' := by simpa [hbare] using hbare'
  obtain rfl := Except.ok.inj (ht.symm.trans ht')
  rfl

/-- Where a node is more than a bare reference, no alias leads on. -/
lemma AliasTo.bare (h : r.AliasTo p q) (hn : r.raw p = .ok n) :
    ∃ reference, n.keywords = [.ref reference] := by
  obtain ⟨m, reference, t, hm, hbare, -⟩ := h
  obtain rfl := Except.ok.inj (hn.symm.trans hm)
  exact ⟨reference, hbare⟩

lemma transGen_of_loop (hcycle : TransGen r.AliasTo p p) (way : ReflTransGen r.AliasTo p q) :
    TransGen r.AliasTo q q := by
  induction way with
  | refl => exact hcycle
  | tail _ hstep ih =>
    obtain ⟨y, hy, hback⟩ := TransGen.head'_iff.1 ih
    obtain rfl := AliasTo.rightUnique r hy hstep
    exact TransGen.tail' hback hy

/-- A chain that ends does not go on. -/
lemma reflTransGen_of_ends (hn : r.raw q = .ok n)
    (hmore : ∀ reference, n.keywords ≠ [.ref reference]) (way : ReflTransGen r.AliasTo p q)
    (way' : ReflTransGen r.AliasTo p x) : ReflTransGen r.AliasTo x q := by
  rcases ReflTransGen.total_of_right_unique (AliasTo.rightUnique r) way way' with h | h
  · rcases h.cases_head with rfl | ⟨y, hy, -⟩
    · exact .refl
    · obtain ⟨reference, hbare⟩ := hy.bare hn
      exact absurd hbare (hmore reference)
  · exact h

lemma Ends.unique (h : r.Ends p n) (h' : r.Ends p m) : n = m := by
  obtain ⟨q, way, hn, hmore⟩ := h
  obtain ⟨q', way', hm, hmore'⟩ := h'
  have hback := reflTransGen_of_ends hn hmore way way'
  rcases hback.cases_head with rfl | ⟨y, hy, -⟩
  · exact Except.ok.inj (hn.symm.trans hm)
  · obtain ⟨reference, hbare⟩ := hy.bare hm
    exact absurd hbare (hmore' reference)

lemma Ends.not_loops (h : r.Ends p n) : ¬ r.Loops p := by
  obtain ⟨q, way, hn, hmore⟩ := h
  rintro ⟨x, way', hcycle⟩
  have hback := transGen_of_loop hcycle (reflTransGen_of_ends hn hmore way way')
  obtain ⟨y, hy, -⟩ := TransGen.head'_iff.1 hback
  obtain ⟨reference, hbare⟩ := hy.bare hn
  exact hmore reference hbare

lemma Ends.of_alias (h : r.AliasTo p q) (hq : r.Ends q n) : r.Ends p n := by
  obtain ⟨x, way, hn⟩ := hq
  exact ⟨x, .head h way, hn⟩

lemma Loops.of_alias (h : r.AliasTo p q) (hq : r.Loops q) : r.Loops p := by
  obtain ⟨x, way, hcycle⟩ := hq
  exact ⟨x, .head h way, hcycle⟩

lemma Ends.of_spells (h : p.Spells q) (hp : r.Ends p n) : r.Ends q n := by
  obtain ⟨x, way, hn, hmore⟩ := hp
  rcases way.cases_head with rfl | ⟨y, hy, way⟩
  · exact ⟨q, .refl, raw_of_spells h ▸ hn, hmore⟩
  · exact ⟨x, .head (hy.of_spells h) way, hn, hmore⟩

lemma Loops.of_spells (h : p.Spells q) (hp : r.Loops p) : r.Loops q := by
  obtain ⟨x, way, hcycle⟩ := hp
  rcases way.cases_head with rfl | ⟨y, hy, way⟩
  · obtain ⟨y, hy, hback⟩ := TransGen.head'_iff.1 hcycle
    exact ⟨p, .head (hy.of_spells h) hback, hcycle⟩
  · exact ⟨x, .head (hy.of_spells h) way, hcycle⟩

/-! ## Facets of stubs and of expansions -/

/-- Whether a node has facets as the expansion of the target at `p` has: those of the node at the
end of its chain of aliases, which are all there are if this node has no reference, and none if the
chain loops. -/
inductive Bears (r : Registry) (p : Address) (m : Node) : Prop where
  | plain {n : Node} (ends : r.Ends p n) (references : n.references = [])
      (truth : m.truth = n.truth) (facets : m.facets = n.facets) : Bears r p m
  | extended {n : Node} (ends : r.Ends p n) (references : n.references ≠ [])
      (facets : n.facets <+: m.facets) : Bears r p m
  | loop (loops : r.Loops p) (truth : m.truth = none) (facets : m.facets = []) : Bears r p m

namespace Bears

lemma congr (h : r.Bears p m) (hforget : m.forget = l.forget) : r.Bears p l := by
  have htruth := Node.truth_of_forget hforget
  have hfacets := Node.facets_of_forget hforget
  cases h with
  | plain ends references truth facets =>
    exact .plain ends references (htruth ▸ truth) (hfacets ▸ facets)
  | extended ends references facets => exact .extended ends references (hfacets ▸ facets)
  | loop loops truth facets => exact .loop loops (htruth ▸ truth) (hfacets ▸ facets)

lemma of_alias (h : r.AliasTo p q) (hq : r.Bears q m) : r.Bears p m := by
  cases hq with
  | plain ends references truth facets => exact .plain (ends.of_alias h) references truth facets
  | extended ends references facets => exact .extended (ends.of_alias h) references facets
  | loop loops truth facets => exact .loop (loops.of_alias h) truth facets

lemma of_spells (h : p.Spells q) (hp : r.Bears p m) : r.Bears q m := by
  cases hp with
  | plain ends references truth facets => exact .plain (ends.of_spells h) references truth facets
  | extended ends references facets => exact .extended (ends.of_spells h) references facets
  | loop loops truth facets => exact .loop (loops.of_spells h) truth facets

/-- The tree at a place with its references replaced has the facets that it has to, if the nodes in
the places of references have. -/
theorem of_replaced {raw : Node} (hn : r.raw p = .ok n) (hforget : raw.forget = n.forget)
    (h : Replaced (fun t l => r.Bears t.place l) p.withoutFragment raw m) : r.Bears p m := by
  have hends (hmore : ∀ reference, raw.keywords ≠ [.ref reference]) : r.Ends p n :=
    ⟨p, .refl, hn, fun reference hbare => hmore reference ((Node.bare_congr hforget).2 hbare)⟩
  have hreferences : n.references = raw.references := (Node.references_congr hforget).symm
  have hplain (hnone : raw.references = []) (htruth : m.truth = raw.truth)
      (hfacets : m.facets = raw.facets) : r.Bears p m := by
    refine .plain (hends fun reference hbare => ?_) (hreferences.trans hnone)
      (htruth.trans (Node.truth_of_forget hforget)) (hfacets.trans (Node.facets_of_forget hforget))
    rw [Node.references_of_bare hbare] at hnone
    cases hnone
  cases h with
  | leaf isLeaf =>
    have hfree := Node.hasReferences_eq_false_iff.1 (Node.hasReferences_of_isLeaf isLeaf)
    exact hplain (hfree _ (Node.self_mem_nodes _)) rfl rfl
  | plain _ references truth keywords =>
    exact hplain references truth (Keyword.facets_of_related keywords)
  | bare keywords target found =>
    refine found.of_alias ⟨n, _, _, hn, (Node.bare_congr hforget).1 keywords, ?_, rfl⟩
    rwa [Address.target_withoutFragment] at target
  | merged _ references company _ _ own_replaced _ keywords =>
    refine .extended (hends fun reference hbare => company ?_) ?_ ?_
    · rw [Node.references_of_bare hbare] at references
      rw [hbare, List.cons.inj references |>.1]
    · rw [hreferences, references]
      exact List.cons_ne_nil _ _
    · have hown := Keyword.facets_of_related own_replaced
      rw [Node.facets_own, Node.facets_of_forget hforget] at hown
      unfold Node.facets at hown ⊢
      rw [keywords, List.filterMap_append, hown]
      exact List.prefix_append _ _

end Bears

/-- A truth value has no keywords, wherever a place leads to. -/
def Decoded (r : Registry) : Prop :=
  ∀ p n, r.raw p = .ok n → n.truth ≠ none → n.keywords = []

/-- A stub has the facets of the node at the end of the chain of aliases, or none. -/
lemma Stub.cases (decoded : r.Decoded) (h : r.Stub p m) :
    (∃ n, r.Ends p n ∧ m = n.cycleStub.forget) ∨ r.Loops p ∧ m = {} := by
  cases h with
  | @own q n way raw more => exact .inl ⟨n, ⟨q, way, raw, more⟩, rfl⟩
  | @loop q n way cycle raw =>
    refine .inr ⟨⟨q, way, cycle⟩, ?_⟩
    obtain ⟨y, hy, -⟩ := TransGen.head'_iff.1 cycle
    obtain ⟨reference, hbare⟩ := hy.bare raw
    have htruth : n.truth = none := by
      by_contra hsome
      rw [decoded q n raw hsome] at hbare
      cases hbare
    rw [htruth]

lemma Stub.bears (decoded : r.Decoded) (h : r.Stub p m.forget) : r.Bears p m := by
  rcases h.cases decoded with ⟨n, hends, hm⟩ | ⟨hloops, hm⟩
  · have htruth : m.truth = n.truth := Node.truth_of_forget (m := n.cycleStub) hm
    have hfacets : m.facets = n.facets := (Node.facets_of_forget hm).trans n.facets_cycleStub
    by_cases hnone : n.references = []
    · exact .plain hends hnone htruth hfacets
    · exact .extended hends hnone (hfacets ▸ List.prefix_refl _)
  · refine .loop hloops ?_ ?_
    · rw [← m.truth_forget, hm]
    · rw [← m.facets_forget, hm]
      rfl

/-- **The facets of a stub come first in every expansion of the target, and they are all there are
unless the target extends another one.** -/
theorem Stub.of_bears (decoded : r.Decoded) (h : r.Stub p m) (hn : r.Bears p n) :
    m.facets <+: n.facets ∧ (¬ r.Extends p → m = n.cycleStub.forget) := by
  rcases h.cases decoded with ⟨l, hends, rfl⟩ | ⟨hloops, rfl⟩
  · rw [Node.facets_forget, Node.facets_cycleStub]
    cases hn with
    | plain ends references truth facets =>
      obtain rfl := hends.unique ends
      refine ⟨facets ▸ List.prefix_refl _, fun _ => ?_⟩
      rw [Node.forget_cycleStub, Node.forget_cycleStub, truth, facets]
    | extended ends references facets =>
      obtain rfl := hends.unique ends
      exact ⟨facets, fun hnot => absurd ⟨l, ends, references⟩ hnot⟩
    | loop loops _ _ => exact absurd loops hends.not_loops
  · refine ⟨List.nil_prefix, fun _ => ?_⟩
    cases hn with
    | plain ends _ _ _ => exact absurd hloops ends.not_loops
    | extended ends _ _ => exact absurd hloops ends.not_loops
    | loop _ truth facets =>
      rw [Node.forget_cycleStub, truth, facets]
      rfl

end Registry

end SchemaCatalog
