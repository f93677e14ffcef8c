import Mathlib.Data.List.Forall2
import SchemaCatalog.Proofs.SameElements
import SchemaCatalog.Schema.Basic

/-!
# Schemas by their nested schemas

The functions on schemas are written by mutual recursion over nodes, keywords and the two kinds
of lists under a keyword.  This file gives each of them one equation that speaks of a node, its
keywords and `Keyword.nested` alone, and an induction principle of the same shape
(`Node.induction_nested`).  What is proved about trees goes through these and never opens the
recursion again.

`Node.nodes` lists all nodes of a tree, the root first.  A reference is left in a tree exactly
when one of these nodes carries it (`hasReferences_eq_false_iff`), and `Node.forget` forgets them
one by one (`nodes_forget`).

`Keyword.Related R` relates two keywords that are alike but for their nested schemas, which are
related by `R` in their places.
-/

namespace SchemaCatalog

/-! ## Induction -/

section Induction

variable {P : Node → Prop}

mutual

private theorem holds_node
    (step : ∀ n : Node, (∀ k ∈ n.keywords, ∀ m ∈ k.nested, P m) → P n) : ∀ n, P n
  | ⟨_, _, _, keywords⟩ => step _ (holds_keywords step keywords)

private theorem holds_keywords
    (step : ∀ n : Node, (∀ k ∈ n.keywords, ∀ m ∈ k.nested, P m) → P n) :
    ∀ ks : List Keyword, ∀ k ∈ ks, ∀ m ∈ k.nested, P m
  | [] => by simp
  | k :: ks => List.forall_mem_cons.2 ⟨holds_keyword step k, holds_keywords step ks⟩

private theorem holds_keyword
    (step : ∀ n : Node, (∀ k ∈ n.keywords, ∀ m ∈ k.nested, P m) → P n) :
    ∀ k : Keyword, ∀ m ∈ k.nested, P m
  | .keyed _ members => holds_members step members
  | .ordered _ schemas => holds_schemas step schemas
  | .additionalProperties schema => List.forall_mem_singleton.2 (holds_node step schema)
  | .ref _ => by simp [Keyword.nested]
  | .facet _ => by simp [Keyword.nested]

private theorem holds_members
    (step : ∀ n : Node, (∀ k ∈ n.keywords, ∀ m ∈ k.nested, P m) → P n) :
    ∀ members : List (String × Node), ∀ m ∈ OrderedMap.values members, P m
  | [] => by simp [OrderedMap.values]
  | (_, n) :: members => List.forall_mem_cons.2 ⟨holds_node step n, holds_members step members⟩

private theorem holds_schemas
    (step : ∀ n : Node, (∀ k ∈ n.keywords, ∀ m ∈ k.nested, P m) → P n) :
    ∀ schemas : List Node, ∀ m ∈ schemas, P m
  | [] => by simp
  | n :: schemas => List.forall_mem_cons.2 ⟨holds_node step n, holds_schemas step schemas⟩

end

/-- What holds of a node as soon as it holds of the schemas its keywords hold, holds of every
node. -/
theorem Node.induction_nested
    (step : ∀ n : Node, (∀ k ∈ n.keywords, ∀ m ∈ k.nested, P m) → P n) (n : Node) : P n :=
  holds_node step n

end Induction

/-! ## Keywords that differ in their nested schemas -/

namespace Keyword

/-- The keyword with a function applied to every schema it holds. -/
def map (f : Node → Node) : Keyword → Keyword
  | .keyed kind members => .keyed kind (List.map (fun e => (e.1, f e.2)) members)
  | .ordered kind schemas => .ordered kind (schemas.map f)
  | .additionalProperties schema => .additionalProperties (f schema)
  | .ref target => .ref target
  | .facet a => .facet a

/-- Two keywords alike but for the schemas they hold, which are related one by one. -/
inductive Related (R : Node → Node → Prop) : Keyword → Keyword → Prop where
  | keyed {kind members members'} :
      List.Forall₂ (fun e e' => e.1 = e'.1 ∧ R e.2 e'.2) members members' →
      Related R (.keyed kind members) (.keyed kind members')
  | ordered {kind schemas schemas'} :
      List.Forall₂ R schemas schemas' → Related R (.ordered kind schemas) (.ordered kind schemas')
  | additionalProperties {schema schema'} :
      R schema schema' → Related R (.additionalProperties schema) (.additionalProperties schema')
  | ref {target} : Related R (.ref target) (.ref target)
  | facet {a} : Related R (.facet a) (.facet a)

variable {R S : Node → Node → Prop} {k k' : Keyword}

@[simp] lemma nested_map (f : Node → Node) (k : Keyword) : (k.map f).nested = k.nested.map f := by
  cases k <;> simp [map, nested, OrderedMap.values]

@[simp] lemma name_map (f : Node → Node) (k : Keyword) : (k.map f).name = k.name := by
  cases k <;> rfl

@[simp] lemma reference?_map (f : Node → Node) (k : Keyword) :
    (k.map f).reference? = k.reference? := by
  cases k <;> rfl

@[simp] lemma facet?_map (f : Node → Node) (k : Keyword) : (k.map f).facet? = k.facet? := by
  cases k <;> rfl

@[simp] lemma isFacet_map (f : Node → Node) (k : Keyword) : (k.map f).isFacet = k.isFacet := by
  cases k <;> rfl

lemma map_of_isFacet (f : Node → Node) (h : k.isFacet = true) : k.map f = k := by
  cases k <;> first | rfl | simp [isFacet, facet?] at h

/-- A keyword is related to itself if the schemas in it are. -/
lemma related_self (h : ∀ c ∈ k.nested, R c c) : Related R k k := by
  cases k with
  | keyed kind members =>
    refine .keyed (List.forall₂_same.2 fun e he => ⟨rfl, h e.2 ?_⟩)
    exact List.mem_map_of_mem he
  | ordered kind schemas => exact .ordered (List.forall₂_same.2 h)
  | additionalProperties schema =>
    exact .additionalProperties (h schema (List.mem_singleton_self schema))
  | ref target => exact .ref
  | facet a => exact .facet

/-- The schemas of related keywords are related in their places. -/
lemma Related.nested (h : Related R k k') : List.Forall₂ R k.nested k'.nested := by
  cases h with
  | keyed h =>
    simp only [Keyword.nested, OrderedMap.values, List.forall₂_map_left_iff,
      List.forall₂_map_right_iff]
    exact h.imp fun _ _ h => h.2
  | ordered h => exact h
  | additionalProperties h => exact .cons h .nil
  | ref => exact .nil
  | facet => exact .nil

/-- Related keywords may be given related schemas to hold in the places of their own. -/
lemma Related.withNested {ns ns' : List Node} (h : Related R k k') (hns : List.Forall₂ S ns ns')
    (hlength : ns.length = k.nested.length) : Related S (k.withNested ns) (k'.withNested ns') := by
  cases h with
  | keyed h =>
    refine .keyed ?_
    clear hlength
    induction h generalizing ns ns' with
    | nil => exact .nil
    | cons h _ ih =>
      cases hns with
      | nil => exact .nil
      | cons hn hns => exact .cons ⟨h.1, hn⟩ (ih hns)
  | ordered h => exact .ordered hns
  | additionalProperties h =>
    cases hns with
    | nil => cases hlength
    | cons hn hns => exact .additionalProperties hn
  | ref => exact .ref
  | facet => exact .facet

lemma related_withNested {ns : List Node} (h : List.Forall₂ R k.nested ns) :
    Related R k (k.withNested ns) := by
  have hself : Related (fun _ _ => True) k k := related_self fun _ _ => trivial
  have hrel := hself.withNested h rfl
  rwa [withNested_nested] at hrel

lemma Related.mono (h : Related R k k')
    (sub : ∀ a ∈ k.nested, ∀ b, R a b → S a b) : Related S k k' := by
  have hnested : List.Forall₂ (fun a b => a ∈ k.nested ∧ R a b) k.nested k'.nested :=
    (List.forall₂_and_left _ _).2 ⟨fun _ ha => ha, h.nested⟩
  have hrel := h.withNested (hnested.imp fun a b hab => sub a hab.1 b hab.2) rfl
  rwa [withNested_nested, withNested_nested] at hrel

lemma Related.flip (h : Related R k k') : Related (fun a b => R b a) k' k := by
  cases h with
  | keyed h => exact .keyed (h.flip.imp fun _ _ h => ⟨h.1.symm, h.2⟩)
  | ordered h => exact .ordered h.flip
  | additionalProperties h => exact .additionalProperties h
  | ref => exact .ref
  | facet => exact .facet

/-- Keywords that are related to keywords related to others are related to those. -/
lemma Related.trans {T : Node → Node → Prop} {l : Keyword} (h : Related R k k')
    (h' : Related S k' l) (hT : ∀ a b c, R a b → S b c → T a c) : Related T k l := by
  cases h with
  | keyed members =>
    cases h' with
    | keyed members' =>
      refine .keyed (forall₂_trans members members' fun e _ f _ g _ hef hfg => ?_)
      exact ⟨hef.1.trans hfg.1, hT _ _ _ hef.2 hfg.2⟩
  | ordered schemas =>
    cases h' with
    | ordered schemas' => exact .ordered (forall₂_trans schemas schemas' fun a _ b _ c _ => hT a b c)
  | additionalProperties schema =>
    cases h' with
    | additionalProperties schema' => exact .additionalProperties (hT _ _ _ schema schema')
  | ref =>
    cases h' with
    | ref => exact .ref
  | facet =>
    cases h' with
    | facet => exact .facet

lemma Related.name_eq (h : Related R k k') : k'.name = k.name := by
  cases h <;> rfl

lemma Related.reference?_eq (h : Related R k k') : k'.reference? = k.reference? := by
  cases h <;> rfl

lemma Related.facet?_eq (h : Related R k k') : k'.facet? = k.facet? := by
  cases h <;> rfl

lemma map_eq_withNested (f : Node → Node) (k : Keyword) :
    k.map f = k.withNested (k.nested.map f) := by
  cases k with
  | keyed kind members =>
    simp only [map, withNested, nested, OrderedMap.values, List.map_map, List.zipWith_map_right,
      List.zipWith_self, Function.comp_apply]
  | _ => rfl

/-- Related keywords stay related when both sides are mapped. -/
lemma Related.map {f g : Node → Node} (h : Related R k k')
    (sub : ∀ a b, R a b → S (f a) (g b)) : Related S (k.map f) (k'.map g) := by
  rw [map_eq_withNested, map_eq_withNested]
  refine h.withNested ?_ (List.length_map f)
  rw [List.forall₂_map_left_iff, List.forall₂_map_right_iff]
  exact h.nested.imp sub

@[simp] lemma map_id (k : Keyword) : k.map id = k := by
  cases k <;> simp [map]

/-- Related keywords stay related when the right side is mapped. -/
lemma Related.map_right {g : Node → Node} (h : Related R k k') (sub : ∀ a b, R a b → S a (g b)) :
    Related S k (k'.map g) := by
  have hmap := h.map (f := id) (g := g) sub
  rwa [map_id] at hmap

/-- Mapped keywords are equal if the schemas they hold are mapped to the same ones. -/
lemma map_eq_map_iff {f : Node → Node} :
    k.map f = k'.map f ↔ Related (fun a b => f a = f b) k k' := by
  constructor
  · intro h
    cases k <;> cases k' <;> simp only [map, keyed.injEq, ordered.injEq,
      additionalProperties.injEq, ref.injEq, facet.injEq, reduceCtorEq] at h
    case keyed.keyed =>
      obtain ⟨rfl, h⟩ := h
      rw [← List.forall₂_eq_eq_eq, List.forall₂_map_left_iff, List.forall₂_map_right_iff] at h
      exact .keyed (h.imp fun _ _ h => Prod.mk.inj h)
    case ordered.ordered =>
      obtain ⟨rfl, h⟩ := h
      rw [← List.forall₂_eq_eq_eq, List.forall₂_map_left_iff, List.forall₂_map_right_iff] at h
      exact .ordered h
    case additionalProperties.additionalProperties => exact .additionalProperties h
    case ref.ref => exact h ▸ .ref
    case facet.facet => exact h ▸ .facet
  · intro h
    cases h with
    | keyed h =>
      simp only [map, keyed.injEq, true_and]
      rw [← List.forall₂_eq_eq_eq, List.forall₂_map_left_iff, List.forall₂_map_right_iff]
      exact h.imp fun _ _ h => Prod.ext h.1 h.2
    | ordered h =>
      simp only [map, ordered.injEq, true_and]
      rw [← List.forall₂_eq_eq_eq, List.forall₂_map_left_iff, List.forall₂_map_right_iff]
      exact h
    | additionalProperties h => simp only [map, h]
    | ref => rfl
    | facet => rfl

/-! ## Lists of related keywords -/

/-- Each element of a list is related to one of the other list. -/
lemma exists_rel_of_mem {α β : Type} {T : α → β → Prop} {l : List α} {l' : List β} {a : α}
    (h : List.Forall₂ T l l') (ha : a ∈ l) : ∃ b ∈ l', T a b := by
  induction h with
  | nil => exact absurd ha List.not_mem_nil
  | @cons b b' l l' hb _ ih =>
    rcases List.mem_cons.1 ha with rfl | ha
    · exact ⟨b', List.mem_cons_self, hb⟩
    · obtain ⟨c, hc, hac⟩ := ih ha
      exact ⟨c, List.mem_cons_of_mem _ hc, hac⟩

section Lists

variable {ks ks' : List Keyword} (h : List.Forall₂ (Related R) ks ks')
include h

lemma names_of_related : ks'.map name = ks.map name := by
  induction h with
  | nil => rfl
  | cons hk _ ih => rw [List.map_cons, List.map_cons, hk.name_eq, ih]

lemma references_of_related : ks'.filterMap reference? = ks.filterMap reference? := by
  induction h with
  | nil => rfl
  | cons hk _ ih => rw [List.filterMap_cons, List.filterMap_cons, hk.reference?_eq, ih]

lemma facets_of_related : ks'.filterMap facet? = ks.filterMap facet? := by
  induction h with
  | nil => rfl
  | cons hk _ ih => rw [List.filterMap_cons, List.filterMap_cons, hk.facet?_eq, ih]

lemma filter_of_related : List.Forall₂ (Related R) (ks.filter fun k => k.reference?.isNone)
    (ks'.filter fun k => k.reference?.isNone) := by
  induction h with
  | nil => exact .nil
  | cons hk _ ih =>
    rw [List.filter_cons, List.filter_cons, hk.reference?_eq]
    split
    · exact .cons hk ih
    · exact ih

lemma exists_rel_of_nested {c : Node} (hk : k ∈ ks) (hc : c ∈ k.nested) : ∃ c', R c c' := by
  obtain ⟨k', -, hrel⟩ := exists_rel_of_mem h hk
  obtain ⟨c', -, hc'⟩ := exists_rel_of_mem hrel.nested hc
  exact ⟨c', hc'⟩

lemma exists_rel_nested {c' : Node} (hk : k' ∈ ks') (hc : c' ∈ k'.nested) : ∃ c, R c c' := by
  obtain ⟨k, -, hrel⟩ := exists_rel_of_mem h.flip hk
  obtain ⟨c, -, hc'⟩ := exists_rel_of_mem hrel.nested.flip hc
  exact ⟨c, hc'⟩

end Lists

end Keyword

/-! ## The nodes of a tree -/

namespace Node

mutual

/-- All nodes of a tree, the root first. -/
def nodes : Node → List Node
  | ⟨identity, truth, base, keywords⟩ =>
    ⟨identity, truth, base, keywords⟩ :: keywordsNodes keywords

/-- All nodes under some keywords. -/
def keywordsNodes : List Keyword → List Node
  | [] => []
  | k :: ks => keywordNodes k ++ keywordsNodes ks

/-- All nodes under a keyword. -/
def keywordNodes : Keyword → List Node
  | .keyed _ members => membersNodes members
  | .ordered _ schemas => schemasNodes schemas
  | .additionalProperties schema => schema.nodes
  | .ref _ => []
  | .facet _ => []

/-- All nodes of some named schemas. -/
def membersNodes : List (String × Node) → List Node
  | [] => []
  | (_, n) :: members => n.nodes ++ membersNodes members

/-- All nodes of some schemas. -/
def schemasNodes : List Node → List Node
  | [] => []
  | n :: schemas => n.nodes ++ schemasNodes schemas

end

lemma membersNodes_eq (members : List (String × Node)) :
    membersNodes members = (OrderedMap.values members).flatMap nodes := by
  induction members with
  | nil => rfl
  | cons e members ih => simp [membersNodes, OrderedMap.values, ih]

lemma schemasNodes_eq (schemas : List Node) : schemasNodes schemas = schemas.flatMap nodes := by
  induction schemas with
  | nil => rfl
  | cons n schemas ih => simp [schemasNodes, ih]

lemma keywordNodes_eq (k : Keyword) : keywordNodes k = k.nested.flatMap nodes := by
  cases k <;> simp [keywordNodes, Keyword.nested, membersNodes_eq, schemasNodes_eq]

lemma keywordsNodes_eq (ks : List Keyword) :
    keywordsNodes ks = ks.flatMap fun k => k.nested.flatMap nodes := by
  induction ks with
  | nil => rfl
  | cons k ks ih => simp [keywordsNodes, keywordNodes_eq, ih]

/-- The nodes of a tree are its root and the nodes of the schemas that the root holds. -/
theorem nodes_eq (n : Node) :
    n.nodes = n :: n.keywords.flatMap fun k => k.nested.flatMap nodes := by
  obtain ⟨identity, truth, base, keywords⟩ := n
  simp [nodes, keywordsNodes_eq]

theorem mem_nodes {n m : Node} :
    m ∈ n.nodes ↔ m = n ∨ ∃ k ∈ n.keywords, ∃ c ∈ k.nested, m ∈ c.nodes := by
  rw [nodes_eq]
  simp

@[simp] lemma self_mem_nodes (n : Node) : n ∈ n.nodes := mem_nodes.2 (.inl rfl)

lemma mem_nodes_of_nested {n c m : Node} {k : Keyword} (hk : k ∈ n.keywords) (hc : c ∈ k.nested)
    (hm : m ∈ c.nodes) : m ∈ n.nodes :=
  mem_nodes.2 (.inr ⟨k, hk, c, hc, hm⟩)

/-- A tree holds the trees of its nodes. -/
theorem mem_nodes_trans {n m l : Node} (hm : m ∈ n.nodes) (hl : l ∈ m.nodes) : l ∈ n.nodes := by
  induction n using induction_nested with
  | step n ih =>
    rcases mem_nodes.1 hm with rfl | ⟨k, hk, c, hc, hm⟩
    · exact hl
    · exact mem_nodes_of_nested hk hc (ih k hk c hc hm)

/-! ## References left in a tree -/

lemma membersHaveReferences_eq (members : List (String × Node)) :
    membersHaveReferences members = (OrderedMap.values members).any hasReferences := by
  induction members with
  | nil => rfl
  | cons e members ih => simp [membersHaveReferences, OrderedMap.values, ih]

lemma schemasHaveReferences_eq (schemas : List Node) :
    schemasHaveReferences schemas = schemas.any hasReferences := by
  induction schemas with
  | nil => rfl
  | cons n schemas ih => simp [schemasHaveReferences, ih]

lemma keywordHasReferences_eq (k : Keyword) :
    keywordHasReferences k = (k.reference?.isSome || k.nested.any hasReferences) := by
  cases k <;> simp [keywordHasReferences, Keyword.reference?, Keyword.nested,
    membersHaveReferences_eq, schemasHaveReferences_eq]

lemma keywordsHaveReferences_eq (ks : List Keyword) :
    keywordsHaveReferences ks =
      ks.any fun k => k.reference?.isSome || k.nested.any hasReferences := by
  induction ks with
  | nil => rfl
  | cons k ks ih => simp [keywordsHaveReferences, keywordHasReferences_eq, ih]

lemma references_eq_nil_iff {n : Node} :
    n.references = [] ↔ ∀ k ∈ n.keywords, k.reference? = none := by
  simp [references]

/-- No reference is left in a tree exactly when its root has none and none is left in the schemas
that the root holds. -/
theorem hasReferences_eq_false_iff_nested {n : Node} :
    n.hasReferences = false ↔
      n.references = [] ∧ ∀ k ∈ n.keywords, ∀ m ∈ k.nested, m.hasReferences = false := by
  obtain ⟨identity, truth, base, keywords⟩ := n
  simp [hasReferences, keywordsHaveReferences_eq, references_eq_nil_iff, forall_and]

/-- No reference is left in a tree exactly when none of its nodes carries one. -/
theorem hasReferences_eq_false_iff {n : Node} :
    n.hasReferences = false ↔ ∀ m ∈ n.nodes, m.references = [] := by
  induction n using induction_nested with
  | step n ih =>
    rw [hasReferences_eq_false_iff_nested]
    constructor
    · rintro ⟨hroot, hnested⟩ m hm
      rcases mem_nodes.1 hm with rfl | ⟨k, hk, c, hc, hm⟩
      · exact hroot
      · exact (ih k hk c hc).1 (hnested k hk c hc) m hm
    · intro h
      refine ⟨h n (self_mem_nodes n), fun k hk c hc => (ih k hk c hc).2 fun m hm => ?_⟩
      exact h m (mem_nodes_of_nested hk hc hm)

/-- A node without nested schemas and references is a tree without references. -/
lemma hasReferences_of_isLeaf {n : Node} (h : n.isLeaf = true) : n.hasReferences = false := by
  rw [hasReferences_eq_false_iff_nested, references_eq_nil_iff]
  simp only [isLeaf, List.all_eq_true] at h
  constructor
  · intro k hk
    have := h k hk
    cases k <;> simp_all [Keyword.isFacet, Keyword.facet?, Keyword.reference?]
  · intro k hk
    have := h k hk
    cases k <;> simp_all [Keyword.isFacet, Keyword.facet?, Keyword.nested]

/-! ## Forgetting -/

lemma forgetMembers_eq (members : List (String × Node)) :
    forgetMembers members = List.map (fun e => (e.1, e.2.forget)) members := by
  induction members with
  | nil => rfl
  | cons e members ih => simp [forgetMembers, ih]

lemma forgetSchemas_eq (schemas : List Node) : forgetSchemas schemas = schemas.map forget := by
  induction schemas with
  | nil => rfl
  | cons n schemas ih => simp [forgetSchemas, ih]

lemma forgetKeyword_eq (k : Keyword) : forgetKeyword k = k.map forget := by
  cases k <;> simp [forgetKeyword, Keyword.map, forgetMembers_eq, forgetSchemas_eq]

lemma forgetKeywords_eq (ks : List Keyword) :
    forgetKeywords ks = ks.map (Keyword.map forget) := by
  induction ks with
  | nil => rfl
  | cons k ks ih => simp [forgetKeywords, forgetKeyword_eq, ih]

theorem forget_eq (n : Node) :
    n.forget = ⟨none, n.truth, none, n.keywords.map (Keyword.map forget)⟩ := by
  obtain ⟨identity, truth, base, keywords⟩ := n
  simp [forget, forgetKeywords_eq]

@[simp] lemma truth_forget (n : Node) : n.forget.truth = n.truth := by rw [forget_eq]

@[simp] lemma identity_forget (n : Node) : n.forget.identity = none := by rw [forget_eq]

@[simp] lemma base_forget (n : Node) : n.forget.base = none := by rw [forget_eq]

@[simp] lemma keywords_forget (n : Node) :
    n.forget.keywords = n.keywords.map (Keyword.map forget) := by rw [forget_eq]

@[simp] lemma references_forget (n : Node) : n.forget.references = n.references := by
  simp [references, List.filterMap_map]

@[simp] lemma facets_forget (n : Node) : n.forget.facets = n.facets := by
  simp [facets, List.filterMap_map]

@[simp] lemma anchors_forget (n : Node) : n.forget.anchors = n.anchors := by
  simp [anchors]

@[simp] lemma isLeaf_forget (n : Node) : n.forget.isLeaf = n.isLeaf := by
  simp [isLeaf, List.all_map, Function.comp_def]

/-- The nodes of a forgotten tree are the nodes of the tree, forgotten. -/
theorem nodes_forget (n : Node) : n.forget.nodes = n.nodes.map forget := by
  induction n using induction_nested with
  | step n ih =>
    rw [nodes_eq, nodes_eq n]
    simp only [keywords_forget, List.map_cons, List.flatMap_map, List.map_flatMap,
      Keyword.nested_map, List.cons.injEq, true_and]
    refine List.flatMap_congr fun k hk => List.flatMap_congr fun c hc => ?_
    exact ih k hk c hc

/-- What is left of two trees is equal if they have the same truth value and the same keywords
but for what is forgotten. -/
theorem forget_eq_forget_iff {n m : Node} : n.forget = m.forget ↔ n.truth = m.truth ∧
    List.Forall₂ (Keyword.Related fun a b => a.forget = b.forget) n.keywords m.keywords := by
  have hkeywords : n.keywords.map (Keyword.map forget) = m.keywords.map (Keyword.map forget) ↔
      List.Forall₂ (Keyword.Related fun a b => a.forget = b.forget) n.keywords m.keywords := by
    rw [← List.forall₂_eq_eq_eq, List.forall₂_map_left_iff, List.forall₂_map_right_iff]
    exact ⟨.imp fun _ _ => Keyword.map_eq_map_iff.1, .imp fun _ _ => Keyword.map_eq_map_iff.2⟩
  rw [forget_eq n, forget_eq m, ← hkeywords]
  simp

/-- Trees that differ in identities and base addresses have related keywords. -/
lemma related_of_forget {n m : Node} (h : n.forget = m.forget) : List.Forall₂
    (Keyword.Related fun a b => a.forget = b.forget) n.keywords m.keywords :=
  (forget_eq_forget_iff.1 h).2

/-- A tree has a node for each node of a tree that is the same but for what is forgotten. -/
lemma exists_mem_nodes {n n' m : Node} (hforget : n.forget = n'.forget) (hm : m ∈ n.nodes) :
    ∃ m' ∈ n'.nodes, m'.forget = m.forget := by
  have hmem : m.forget ∈ n'.forget.nodes := by
    rw [← hforget, nodes_forget]
    exact List.mem_map_of_mem hm
  rw [nodes_forget] at hmem
  exact List.mem_map.1 hmem

lemma references_congr {n m : Node} (h : n.forget = m.forget) : n.references = m.references := by
  rw [← n.references_forget, h, references_forget]

lemma anchors_congr {n m : Node} (h : n.forget = m.forget) : n.anchors = m.anchors := by
  rw [← n.anchors_forget, h, anchors_forget]

/-- Forgetting once is enough. -/
@[simp] theorem forget_forget (n : Node) : n.forget.forget = n.forget := by
  induction n using induction_nested with
  | step n ih =>
    rw [forget_eq, forget_eq n]
    simp only [List.map_map, mk.injEq, true_and, List.map_inj_left, Function.comp_apply]
    intro k hk
    cases k with
    | keyed kind members =>
      simp only [Keyword.map, List.map_map, Keyword.keyed.injEq, true_and, List.map_inj_left,
        Function.comp_apply, Prod.mk.injEq]
      exact fun e he => ih _ hk e.2 (List.mem_map_of_mem he)
    | ordered kind schemas =>
      simp only [Keyword.map, List.map_map, Keyword.ordered.injEq, true_and, List.map_inj_left,
        Function.comp_apply]
      exact fun c hc => ih _ hk c hc
    | additionalProperties schema =>
      simp only [Keyword.map, Keyword.additionalProperties.injEq]
      exact ih _ hk schema (by simp [Keyword.nested])
    | ref target => rfl
    | facet a => rfl

/-! ## Labels -/

section Label

variable {R : Node → Node → Prop}

lemma related_labelMembers {members : List (String × Node)}
    (h : ∀ c ∈ OrderedMap.values members, ∀ next, R c (c.label next).1) (next : Nat) :
    List.Forall₂ (fun e e' => e.1 = e'.1 ∧ R e.2 e'.2) members (labelMembers next members).1 := by
  induction members generalizing next with
  | nil => exact .nil
  | cons e members ih =>
    obtain ⟨hc, hmembers⟩ := List.forall_mem_cons.1 h
    exact .cons ⟨rfl, hc next⟩ (ih hmembers _)

lemma related_labelSchemas {schemas : List Node}
    (h : ∀ c ∈ schemas, ∀ next, R c (c.label next).1) (next : Nat) :
    List.Forall₂ R schemas (labelSchemas next schemas).1 := by
  induction schemas generalizing next with
  | nil => exact .nil
  | cons c schemas ih =>
    obtain ⟨hc, hschemas⟩ := List.forall_mem_cons.1 h
    exact .cons (hc next) (ih hschemas _)

lemma related_labelKeyword {k : Keyword} (h : ∀ c ∈ k.nested, ∀ next, R c (c.label next).1)
    (next : Nat) : Keyword.Related R k (labelKeyword next k).1 := by
  cases k with
  | keyed kind members => exact .keyed (related_labelMembers h next)
  | ordered kind schemas => exact .ordered (related_labelSchemas h next)
  | additionalProperties schema =>
    exact .additionalProperties (h schema (List.mem_singleton_self schema) next)
  | ref target => exact .ref
  | facet a => exact .facet

/-- Labels leave the keywords as they are but for the schemas in them, and each schema is related to
what labels make of it. -/
lemma related_labelKeywords {ks : List Keyword}
    (h : ∀ k ∈ ks, ∀ c ∈ k.nested, ∀ next, R c (c.label next).1) (next : Nat) :
    List.Forall₂ (Keyword.Related R) ks (labelKeywords next ks).1 := by
  induction ks generalizing next with
  | nil => exact .nil
  | cons k ks ih =>
    obtain ⟨hk, hks⟩ := List.forall_mem_cons.1 h
    exact .cons (related_labelKeyword hk next) (ih hks _)

end Label

/-- Identities are forgotten, whatever they were counted from. -/
@[simp] theorem forget_label (n : Node) (next : Nat) : (n.label next).1.forget = n.forget := by
  induction n using induction_nested generalizing next with
  | step n ih =>
    obtain ⟨identity, truth, base, keywords⟩ := n
    have hkeywords : List.Forall₂ (Keyword.Related fun a b => a.forget = b.forget) keywords
        (labelKeywords (next + 1) keywords).1 :=
      related_labelKeywords (fun k hk c hc next => (ih k hk c hc next).symm) (next + 1)
    refine (forget_eq_forget_iff.2 ?_).symm
    exact ⟨rfl, hkeywords⟩

end Node

end SchemaCatalog
