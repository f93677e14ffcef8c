import SchemaCatalog.Proofs.Resolution.Graph

/-!
# Trees with their references replaced

`Replaced F current n r` says what the expansion of a tree is, whatever the expansions of its
targets are: `r` is the tree `n` with each reference replaced by a node that `F` allows for the
target, a node that has keywords beside its reference being merged with it.  Nothing in it speaks
of rounds, of states or of the order in which targets are met, nor of identities and bases.
-/

namespace SchemaCatalog

namespace Node

/-- The keywords of a node that are no references. -/
def own (n : Node) : List Keyword := n.keywords.filter fun k => k.reference?.isNone

lemma own_forget (n : Node) : n.forget.own = n.own.map (Keyword.map forget) := by
  unfold own
  rw [keywords_forget, List.filter_map]
  simp only [Function.comp_def, Keyword.reference?_map]

lemma references_of_bare {n : Node} {reference : String} (h : n.keywords = [.ref reference]) :
    n.references = [reference] := by
  unfold references
  rw [h]
  rfl

lemma own_of_bare {n : Node} {reference : String} (h : n.keywords = [.ref reference]) :
    n.own = [] := by
  unfold own
  rw [h]
  rfl

lemma own_of_references_eq_nil {n : Node} (h : n.references = []) : n.own = n.keywords := by
  unfold own
  rw [List.filter_eq_self]
  intro k hk
  rw [references_eq_nil_iff.1 h k hk]
  rfl

lemma keywords_of_own_eq_nil {n : Node} {reference : String} (hown : n.own = [])
    (hone : n.references = [reference]) : n.keywords = [.ref reference] := by
  unfold own at hown
  unfold references at hone
  have hall : ∀ k ∈ n.keywords, k.reference?.isSome := by
    simpa [Option.ne_none_iff_isSome] using hown
  match hk : n.keywords with
  | [] =>
    rw [hk] at hone
    cases hone
  | [k] =>
    rw [hk] at hone
    cases k with
    | ref target =>
      obtain rfl : target = reference := (List.cons.inj hone).1
      rfl
    | _ => cases hone
  | k :: l :: ks =>
    exfalso
    rw [hk] at hall hone
    obtain ⟨a, ha⟩ := Option.isSome_iff_exists.1 (hall k (by simp))
    obtain ⟨b, hb⟩ := Option.isSome_iff_exists.1 (hall l (by simp))
    simp [ha, hb] at hone

/-- A bare reference is one whatever is forgotten. -/
lemma keywords_forget_eq_ref {n : Node} {reference : String} :
    n.forget.keywords = [.ref reference] ↔ n.keywords = [.ref reference] := by
  rw [keywords_forget]
  constructor
  · intro h
    obtain ⟨k, hk, hmap⟩ := List.map_eq_singleton_iff.1 h
    rw [hk]
    cases k with
    | ref target => rw [← hmap]; rfl
    | _ => simp [Keyword.map] at hmap
  · intro h
    rw [h]
    rfl

lemma bare_congr {n m : Node} {reference : String} (h : n.forget = m.forget) :
    n.keywords = [.ref reference] ↔ m.keywords = [.ref reference] := by
  rw [← keywords_forget_eq_ref, h, keywords_forget_eq_ref]

lemma hasReferences_of_forget {n m : Node} (hforget : n.forget = m.forget)
    (h : n.hasReferences = false) : m.hasReferences = false := by
  rw [hasReferences_eq_false_iff] at h ⊢
  intro c hc
  obtain ⟨d, hd, hdc⟩ := exists_mem_nodes hforget.symm hc
  rw [← references_congr hdc]
  exact h d hd

/-- The target of the only reference of a node is one of those the tree refers to. -/
lemma place_mem_targets {n : Node} {current t : Address} {reference : String}
    (hone : n.references = [reference]) (ht : current.target reference = .ok t) :
    t.place ∈ n.targets current := by
  refine mem_targets.2 ⟨n, n.self_mem_nodes, reference, ?_, t, ht, rfl⟩
  rw [hone]
  exact List.mem_singleton_self reference

lemma targets_nested {n c : Node} {k : Keyword} {current p : Address} (hk : k ∈ n.keywords)
    (hc : c ∈ k.nested) (hp : p ∈ c.targets current) : p ∈ n.targets current :=
  targets_subset (mem_nodes_of_nested hk hc c.self_mem_nodes) hp

end Node

/-- The tree `r` is the tree `n`, which stands in the document at `current`, with each reference
replaced by a node that `F` allows for its target.  The relation `P` between nested schemas is
any that the relation itself contains. -/
inductive Replaced (F : Address → Node → Prop) (current : Address) : Node → Node → Prop where
  /-- A node without references and nested schemas stays as it is. -/
  | leaf {n : Node} (isLeaf : n.isLeaf = true) : Replaced F current n n
  /-- A node without a reference keeps its keywords, with the nested schemas replaced. -/
  | plain {n r : Node} {P : Node → Node → Prop} (sub : ∀ a b, P a b → Replaced F current a b)
      (references : n.references = []) (truth : r.truth = n.truth)
      (keywords : List.Forall₂ (Keyword.Related P) n.keywords r.keywords) : Replaced F current n r
  /-- A bare reference gives way to the node of its target. -/
  | bare {n m : Node} {reference : String} {t : Address} (keywords : n.keywords = [.ref reference])
      (target : current.target reference = .ok t) (found : F t m) : Replaced F current n m
  /-- A reference in company gives way to the keywords of its target, behind the node's own. -/
  | merged {n r m : Node} {P : Node → Node → Prop} {reference : String} {t : Address}
      {own : List Keyword} (sub : ∀ a b, P a b → Replaced F current a b)
      (references : n.references = [reference]) (company : n.keywords ≠ [.ref reference])
      (target : current.target reference = .ok t) (found : F t m)
      (own_replaced : List.Forall₂ (Keyword.Related P) n.own own)
      (truth : r.truth = none) (keywords : r.keywords = own ++ m.keywords) : Replaced F current n r

namespace Replaced

variable {F G : Address → Node → Prop} {current : Address} {n r : Node}

/-- What is allowed may be widened for the targets that the tree refers to. -/
theorem mono_targets (h : Replaced F current n r)
    (sub : ∀ t m, t.place ∈ n.targets current → F t m → G t m) : Replaced G current n r := by
  induction h with
  | leaf isLeaf => exact .leaf isLeaf
  | @plain n r P _ references truth keywords ih =>
    refine .plain (P := fun a b => P a b ∧ ∀ p ∈ a.targets current, p ∈ n.targets current)
      ?_ references truth ?_
    · rintro a b ⟨hab, htargets⟩
      exact ih a b hab fun t m ht => sub t m (htargets _ ht)
    · exact ((List.forall₂_and_left _ _).2 ⟨fun k hk => hk, keywords⟩).imp fun k k' ⟨hk, hrel⟩ =>
        hrel.mono fun a ha b hab => ⟨hab, fun p hp => Node.targets_nested hk ha hp⟩
  | bare keywords target found =>
    have ht := Node.place_mem_targets (Node.references_of_bare keywords) target
    exact .bare keywords target (sub _ _ ht found)
  | @merged n r m P reference t own _ references company target found own_replaced truth keywords
      ih =>
    have ht := Node.place_mem_targets references target
    refine .merged (P := fun a b => P a b ∧ ∀ p ∈ a.targets current, p ∈ n.targets current)
      ?_ references company target (sub _ _ ht found) ?_ truth keywords
    · rintro a b ⟨hab, htargets⟩
      exact ih a b hab fun t m ht => sub t m (htargets _ ht)
    · exact ((List.forall₂_and_left _ _).2 ⟨fun k hk => (List.mem_filter.1 hk).1, own_replaced⟩).imp
        fun k k' ⟨hk, hrel⟩ =>
          hrel.mono fun a ha b hab => ⟨hab, fun p hp => Node.targets_nested hk ha hp⟩

/-- What is allowed for a target may be widened. -/
theorem mono (h : Replaced F current n r) (sub : ∀ t m, F t m → G t m) :
    Replaced G current n r := h.mono_targets fun t m _ => sub t m

/-- Identities and base addresses do not matter. -/
theorem forget (h : Replaced F current n r) (sub : ∀ t m, F t m → G t m.forget) :
    Replaced G current n.forget r.forget := by
  have keywordsForget {P : Node → Node → Prop} {ks ks' : List Keyword}
      (h : List.Forall₂ (Keyword.Related P) ks ks') :
      List.Forall₂ (Keyword.Related fun a b => ∃ a' b', P a' b' ∧ a = a'.forget ∧ b = b'.forget)
        (ks.map (Keyword.map Node.forget)) (ks'.map (Keyword.map Node.forget)) := by
    rw [List.forall₂_map_left_iff, List.forall₂_map_right_iff]
    exact h.imp fun k k' hrel => hrel.map fun a b hab => ⟨a, b, hab, rfl, rfl⟩
  induction h with
  | leaf isLeaf => exact .leaf (by rw [Node.isLeaf_forget, isLeaf])
  | @plain n r P _ references truth keywords ih =>
    have hkeywords := keywordsForget keywords
    rw [← Node.keywords_forget, ← Node.keywords_forget] at hkeywords
    refine .plain ?_ ?_ ?_ hkeywords
    · rintro _ _ ⟨a, b, hab, rfl, rfl⟩
      exact ih a b hab
    · rw [Node.references_forget, references]
    · rw [Node.truth_forget, Node.truth_forget, truth]
  | bare keywords target found =>
    exact .bare (Node.keywords_forget_eq_ref.2 keywords) target (sub _ _ found)
  | @merged n r m P reference t own _ references company target found own_replaced truth keywords
      ih =>
    have hown := keywordsForget own_replaced
    rw [← Node.own_forget] at hown
    refine .merged ?_ ?_ ?_ target (sub _ _ found) hown ?_ ?_
    · rintro _ _ ⟨a, b, hab, rfl, rfl⟩
      exact ih a b hab
    · rw [Node.references_forget, references]
    · exact fun h => company (Node.keywords_forget_eq_ref.1 h)
    · rw [Node.truth_forget, truth]
    · rw [Node.keywords_forget, keywords, List.map_append, Node.keywords_forget]

/-- A tree whose references can be replaced has at most one in each node, which names a target. -/
theorem references (h : Replaced F current n r) : ∀ m ∈ n.nodes, m.references = [] ∨
    ∃ reference t l, m.references = [reference] ∧ current.target reference = .ok t ∧ F t l := by
  induction h with
  | leaf isLeaf =>
    intro m hm
    exact .inl (Node.hasReferences_eq_false_iff.1 (Node.hasReferences_of_isLeaf isLeaf) m hm)
  | @plain n r P _ references _ keywords ih =>
    intro m hm
    rcases Node.mem_nodes.1 hm with rfl | ⟨k, hk, c, hc, hm⟩
    · exact .inl references
    · obtain ⟨c', hP⟩ := Keyword.exists_rel_of_nested keywords hk hc
      exact ih c c' hP m hm
  | @bare n l reference t keywords target found =>
    intro m hm
    rw [Node.nodes_eq, keywords] at hm
    obtain rfl := List.mem_singleton.1 hm
    exact .inr ⟨reference, t, l, Node.references_of_bare keywords, target, found⟩
  | @merged n r l P reference t own _ references _ target found own_replaced _ _ ih =>
    intro m hm
    rcases Node.mem_nodes.1 hm with rfl | ⟨k, hk, c, hc, hm⟩
    · exact .inr ⟨reference, t, l, references, target, found⟩
    · have hown : k ∈ n.own := by
        refine List.mem_filter.2 ⟨hk, ?_⟩
        cases k <;> first | rfl | exact absurd hc List.not_mem_nil
      obtain ⟨c', hP⟩ := Keyword.exists_rel_of_nested own_replaced hown hc
      exact ih c c' hP m hm

theorem exists_of_mem_targets {p : Address} (h : Replaced F current n r)
    (hp : p ∈ n.targets current) : ∃ t l, t.place = p ∧ F t l := by
  obtain ⟨m, hm, reference, hreference, t, ht, rfl⟩ := Node.mem_targets.1 hp
  rcases h.references m hm with hnone | ⟨reference', t', l, hone, ht', hl⟩
  · rw [hnone] at hreference
    exact absurd hreference List.not_mem_nil
  · rw [hone, List.mem_singleton] at hreference
    obtain rfl := Except.ok.inj (ht.symm.trans (hreference ▸ ht'))
    exact ⟨t, l, rfl, hl⟩

/-- Keywords that replace others have no references if those have none and no nested schema
brings one. -/
lemma keywords_free {P : Node → Node → Prop} {ks ks' : List Keyword}
    (h : List.Forall₂ (Keyword.Related P) ks ks') (hks : ∀ k ∈ ks, k.reference? = none)
    (hP : ∀ a b, P a b → b.hasReferences = false) :
    (∀ k ∈ ks', k.reference? = none) ∧
      ∀ k ∈ ks', ∀ m ∈ k.nested, m.hasReferences = false := by
  constructor
  · intro k' hk'
    obtain ⟨k, hk, hrel⟩ := Keyword.exists_rel_of_mem h.flip hk'
    rw [Keyword.Related.reference?_eq hrel]
    exact hks k hk
  · intro k' hk' m hm
    obtain ⟨c, hc⟩ := Keyword.exists_rel_nested h hk' hm
    exact hP c m hc

/-- If no target brings a reference, none is left in the tree. -/
theorem hasReferences_eq_false (h : Replaced F current n r)
    (free : ∀ t m, F t m → m.hasReferences = false) : r.hasReferences = false := by
  induction h with
  | leaf isLeaf => exact Node.hasReferences_of_isLeaf isLeaf
  | @plain n r P _ references _ keywords ih =>
    rw [Node.hasReferences_eq_false_iff_nested, Node.references_eq_nil_iff]
    rw [Node.references_eq_nil_iff] at references
    exact keywords_free keywords references ih
  | bare _ _ found => exact free _ _ found
  | @merged n r m P _ _ own _ _ _ _ found own_replaced _ keywords ih =>
    have hm := Node.hasReferences_eq_false_iff_nested.1 (free _ _ found)
    have hown := keywords_free own_replaced
      (fun k hk => Option.isNone_iff_eq_none.1 (List.mem_filter.1 hk).2) ih
    rw [Node.references_eq_nil_iff] at hm
    rw [Node.hasReferences_eq_false_iff_nested, Node.references_eq_nil_iff, keywords]
    simp only [List.mem_append]
    constructor
    · rintro k (hk | hk)
      · exact hown.1 k hk
      · exact hm.1 k hk
    · rintro k (hk | hk)
      · exact hown.2 k hk
      · exact hm.2 k hk

end Replaced

end SchemaCatalog
