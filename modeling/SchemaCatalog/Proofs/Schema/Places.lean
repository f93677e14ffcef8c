import Mathlib.Data.Set.Finite.Lattice
import SchemaCatalog.Registry
import SchemaCatalog.Proofs.SameElements
import SchemaCatalog.Proofs.Schema.Nested

/-!
# Where places lead

A pointer or an anchor leads from a document to one of the nodes of its tree, or to a node that
is decoded from plain JSON inside an unrecognized member; the latter are *buried* in the document
(`Node.Buried`).  There is no third way (`placeIn_cases`).  A document has finitely many places
although there are infinitely many pointers (`finite_places`), and which place a fragment names
depends on the tree alone, not on identities or base addresses (`placeIn_forget`).
-/

namespace SchemaCatalog

/-! ## Look-ups under a keyword -/

lemma findSome?_congr {α β : Type} {f g : α → Option β} {l : List α} (h : ∀ a ∈ l, f a = g a) :
    l.findSome? f = l.findSome? g := by
  induction l with
  | nil => rfl
  | cons a l ih =>
    rw [List.findSome?_cons, List.findSome?_cons, h a (by simp), ih fun b hb => h b (by simp [hb])]

lemma memberAt?_eq (members : List (String × Node)) (key : String) (rest : List String) :
    memberAt? members key rest = (OrderedMap.get? members key).bind (·.at? rest) := by
  induction members with
  | nil => rfl
  | cons e members ih =>
    by_cases h : e.1 = key <;> simp [memberAt?, OrderedMap.get?, h, ih]

lemma schemaAt?_eq (schemas : List Node) (i : Nat) (rest : List String) :
    schemaAt? schemas i rest = schemas[i]?.bind (·.at? rest) := by
  induction schemas generalizing i with
  | nil => rfl
  | cons n schemas ih => cases i <;> simp [schemaAt?, ih]

lemma keywordsAt?_eq (ks : List Keyword) (name : String) (rest : List String) :
    keywordsAt? ks name rest =
      ks.findSome? fun k => if k.name = name then keywordAt? k rest else none := by
  induction ks with
  | nil => rfl
  | cons k ks ih =>
    by_cases h : k.name = name
    · cases hk : keywordAt? k rest <;> simp [keywordsAt?, h, hk, ih]
    · simp [keywordsAt?, h, ih]

@[simp] lemma at?_nil (n : Node) : n.at? [] = some n := by
  cases n
  rfl

lemma at?_cons (n : Node) (name : String) (rest : List String) :
    n.at? (name :: rest) =
      n.keywords.findSome? fun k => if k.name = name then keywordAt? k rest else none := by
  obtain ⟨identity, truth, base, keywords⟩ := n
  simp [Node.at?, keywordsAt?_eq]

/-- Where no two keywords have one name, a path goes on under the keyword that it names. -/
lemma at?_of_mem_keywords {n m : Node} (distinct : (n.keywords.map Keyword.name).Nodup)
    {k : Keyword} (hk : k ∈ n.keywords) {rest : List String} (hm : keywordAt? k rest = some m) :
    n.at? (k.name :: rest) = some m := by
  rw [at?_cons]
  refine findSome?_eq_some_of_unique hk ((if_pos rfl).trans hm) fun j hj hne => ?_
  have hname : j.name = k.name := by
    by_contra hother
    exact hne (if_neg hother)
  exact List.inj_on_of_nodup_map distinct hj hk hname

/-- The node that a path names under a keyword is named by a path in a schema the keyword holds,
or in plain JSON. -/
lemma keywordAt?_cases {k : Keyword} {rest : List String} {m : Node}
    (h : keywordAt? k rest = some m) :
    (∃ c ∈ k.nested, ∃ inner, c.at? inner = some m) ∨
      ∃ a, k.facet? = some a ∧ ∃ inner, a.at? inner = some m := by
  have lone {schemas : List Node} {rest : List String} (h : loneAt? schemas rest = some m) :
      ∃ c ∈ schemas, ∃ inner, c.at? inner = some m := by
    match schemas, h with
    | [c], h => exact ⟨c, by simp, rest, h⟩
    | [], h => simp [loneAt?] at h
    | _ :: _ :: _, h => simp [loneAt?] at h
  cases k with
  | keyed kind members =>
    cases rest with
    | nil => simp [keywordAt?] at h
    | cons key rest =>
      simp only [keywordAt?, memberAt?_eq, Option.bind_eq_some_iff] at h
      obtain ⟨c, hc, h⟩ := h
      exact .inl ⟨c, List.mem_map_of_mem (OrderedMap.mem_of_get?_eq_some hc), rest, h⟩
  | ordered kind schemas =>
    left
    cases rest with
    | nil => exact lone h
    | cons segment rest =>
      simp only [keywordAt?] at h
      split at h
      · simp only [schemaAt?_eq, Option.bind_eq_some_iff] at h
        obtain ⟨c, hc, h⟩ := h
        exact ⟨c, List.mem_of_getElem? hc, rest, h⟩
      · exact lone h
  | additionalProperties schema => exact .inl ⟨schema, by simp [Keyword.nested], rest, h⟩
  | ref target => simp [keywordAt?] at h
  | facet a => exact .inr ⟨a, rfl, rest, h⟩

namespace Node

/-! ## Trees and what is buried in them -/

/-- A node is buried in a tree if a path leads to it inside the plain JSON of an unrecognized
member. -/
def Buried (n m : Node) : Prop :=
  ∃ l ∈ n.nodes, ∃ a ∈ l.facets, ∃ path, Facet.at? a path = some m

/-- A path leads to a node of the tree or to a buried one. -/
theorem at?_cases {n m : Node} {path : List String} (h : n.at? path = some m) :
    m ∈ n.nodes ∨ n.Buried m := by
  induction n using induction_nested generalizing path with
  | step n ih =>
    cases path with
    | nil =>
      rw [at?_nil, Option.some.injEq] at h
      exact .inl (h ▸ self_mem_nodes n)
    | cons name rest =>
      rw [at?_cons] at h
      obtain ⟨k, hk, h⟩ := List.exists_of_findSome?_eq_some h
      split at h
      case isFalse => cases h
      rcases keywordAt?_cases h with ⟨c, hc, inner, h⟩ | ⟨a, ha, inner, h⟩
      · rcases ih k hk c hc h with hm | ⟨l, hl, hm⟩
        · exact .inl (mem_nodes_of_nested hk hc hm)
        · exact .inr ⟨l, mem_nodes_of_nested hk hc hl, hm⟩
      · exact .inr ⟨n, self_mem_nodes n, a, List.mem_filterMap.2 ⟨k, hk, ha⟩, inner, h⟩

lemma hasAnchor_iff {n : Node} {anchor : String} :
    n.hasAnchor anchor = true ↔ anchor ∈ n.anchors := by
  simp only [hasAnchor, anchors, facets, List.any_eq_true, List.mem_filterMap]
  constructor
  · rintro ⟨k, hk, h⟩
    split at h
    case h_2 => cases h
    exact ⟨_, ⟨_, hk, rfl⟩, by simpa using h⟩
  · rintro ⟨a, ⟨k, hk, hka⟩, h⟩
    split at h
    case h_2 => cases h
    refine ⟨k, hk, ?_⟩
    cases k <;> simp_all [Keyword.facet?]

lemma anchorInMembers?_eq (anchor : String) (members : List (String × Node)) :
    anchorInMembers? anchor members =
      (OrderedMap.values members).findSome? (findAnchor? anchor) := by
  induction members with
  | nil => rfl
  | cons e members ih =>
    cases h : e.2.findAnchor? anchor <;> simp_all [anchorInMembers?, OrderedMap.values]

lemma anchorInSchemas?_eq (anchor : String) (schemas : List Node) :
    anchorInSchemas? anchor schemas = schemas.findSome? (findAnchor? anchor) := by
  induction schemas with
  | nil => rfl
  | cons n schemas ih => cases h : n.findAnchor? anchor <;> simp [anchorInSchemas?, h, ih]

lemma anchorInKeyword?_eq (anchor : String) (k : Keyword) :
    anchorInKeyword? anchor k = k.nested.findSome? (findAnchor? anchor) := by
  cases k with
  | additionalProperties schema =>
    cases h : schema.findAnchor? anchor <;> simp [anchorInKeyword?, Keyword.nested, h]
  | _ => simp [anchorInKeyword?, Keyword.nested, anchorInMembers?_eq, anchorInSchemas?_eq]

lemma anchorInKeywords?_eq (anchor : String) (ks : List Keyword) :
    anchorInKeywords? anchor ks =
      ks.findSome? fun k => k.nested.findSome? (findAnchor? anchor) := by
  induction ks with
  | nil => rfl
  | cons k ks ih =>
    cases h : k.nested.findSome? (findAnchor? anchor) <;>
      simp [anchorInKeywords?, anchorInKeyword?_eq, h, ih]

/-- The node an anchor leads to is the first of all nodes of the tree that carries it. -/
theorem findAnchor?_eq (n : Node) (anchor : String) :
    n.findAnchor? anchor = n.nodes.find? (·.hasAnchor anchor) := by
  induction n using induction_nested with
  | step n ih =>
    have hnested : (n.keywords.flatMap fun k => k.nested.flatMap nodes).find?
        (·.hasAnchor anchor) =
        n.keywords.findSome? fun k => k.nested.findSome? (findAnchor? anchor) := by
      rw [List.find?_flatMap]
      refine findSome?_congr fun k hk => ?_
      rw [List.find?_flatMap]
      exact findSome?_congr fun c hc => (ih k hk c hc).symm
    rw [nodes_eq, List.find?_cons, hnested]
    obtain ⟨identity, truth, base, keywords⟩ := n
    by_cases h : hasAnchor ⟨identity, truth, base, keywords⟩ anchor <;>
      simp [findAnchor?, anchorInKeywords?_eq, h]

lemma hasAnchor_forget (n : Node) (anchor : String) :
    n.forget.hasAnchor anchor = n.hasAnchor anchor := by
  rw [Bool.eq_iff_iff, hasAnchor_iff, hasAnchor_iff, anchors_forget]

theorem findAnchor?_forget (n : Node) (anchor : String) :
    n.forget.findAnchor? anchor = (n.findAnchor? anchor).map forget := by
  simp only [findAnchor?_eq, nodes_forget, List.find?_map, Function.comp_def, hasAnchor_forget]

/-! ## Places and forgetting -/

lemma get?_map_forget (members : List (String × Node)) (key : String) :
    OrderedMap.get? (List.map (fun e => (e.1, e.2.forget)) members) key =
      (OrderedMap.get? members key).map forget := by
  induction members with
  | nil => rfl
  | cons e members ih => by_cases h : e.1 = key <;> simp [OrderedMap.get?, h, ih]

/-- Under a keyword, what a path names in the forgotten schemas is what it names in the schemas,
forgotten. -/
lemma keywordAt?_forget {k : Keyword} (rest : List String)
    (ih : ∀ c ∈ k.nested, ∀ inner, (c.forget.at? inner).map forget = (c.at? inner).map forget) :
    (keywordAt? (k.map forget) rest).map forget = (keywordAt? k rest).map forget := by
  have lone (schemas : List Node) (rest : List String)
      (ih : ∀ c ∈ schemas, ∀ inner, (c.forget.at? inner).map forget = (c.at? inner).map forget) :
      (loneAt? (schemas.map forget) rest).map forget = (loneAt? schemas rest).map forget := by
    match schemas, ih with
    | [c], ih => exact ih c (by simp) rest
    | [], _ => rfl
    | _ :: _ :: _, _ => rfl
  cases k with
  | keyed kind members =>
    cases rest with
    | nil => rfl
    | cons key rest =>
      simp only [Keyword.map, keywordAt?, memberAt?_eq, get?_map_forget]
      cases h : OrderedMap.get? members key with
      | none => rfl
      | some c => exact ih c (List.mem_map_of_mem (OrderedMap.mem_of_get?_eq_some h)) rest
  | ordered kind schemas =>
    cases rest with
    | nil => exact lone schemas [] ih
    | cons segment rest =>
      simp only [Keyword.map, keywordAt?]
      cases index? segment with
      | none => exact lone schemas _ ih
      | some i =>
        simp only [schemaAt?_eq, List.getElem?_map]
        cases h : schemas[i]? with
        | none => rfl
        | some c => exact ih c (List.mem_of_getElem? h) rest
  | additionalProperties schema => exact ih schema (by simp [Keyword.nested]) rest
  | ref target => rfl
  | facet a => rfl

theorem at?_forget (n : Node) (path : List String) :
    (n.forget.at? path).map forget = (n.at? path).map forget := by
  induction n using induction_nested generalizing path with
  | step n ih =>
    cases path with
    | nil =>
      simp only [at?_nil, Option.map_some, forget_forget]
    | cons name rest =>
      rw [at?_cons, at?_cons, keywords_forget, List.findSome?_map, List.map_findSome?,
        List.map_findSome?]
      refine findSome?_congr fun k hk => ?_
      simp only [Function.comp_apply, Keyword.name_map]
      split
      · exact keywordAt?_forget rest (ih k hk)
      · rfl

end Node

namespace Registry

/-- A fragment names a node of the document or one that is buried in it. -/
theorem placeIn_cases {doc m : Node} {fragment : String} (h : placeIn doc fragment = some m) :
    m ∈ doc.nodes ∨ doc.Buried m := by
  have pointer (h : doc.find? fragment = some m) : m ∈ doc.nodes ∨ doc.Buried m := by
    simp only [Node.find?, Option.bind_eq_bind, Option.bind_eq_some_iff] at h
    obtain ⟨path, -, h⟩ := h
    exact Node.at?_cases h
  unfold placeIn at h
  split at h
  · exact pointer h
  · exact pointer h
  · rw [Node.findAnchor?_eq] at h
    exact .inl (List.mem_of_find?_eq_some h)

/-- Which place a fragment names depends on the tree alone. -/
theorem placeIn_forget (doc : Node) (fragment : String) :
    (placeIn doc.forget fragment).map Node.forget = (placeIn doc fragment).map Node.forget := by
  have pointer : (doc.forget.find? fragment).map Node.forget =
      (doc.find? fragment).map Node.forget := by
    unfold Node.find?
    cases pointerSegments? fragment with
    | none => rfl
    | some path => exact Node.at?_forget doc path
  unfold placeIn
  split
  · exact pointer
  · exact pointer
  · rw [Node.findAnchor?_forget]
    cases doc.findAnchor? fragment <;> simp

/-! ## There are finitely many places -/

/-- The values that a JSON value holds are finitely many if those of its parts are. -/
lemma finite_at?_of_parts {v : Json} (parts : List Json)
    (h : ∀ name rest w, v.at? (name :: rest) = some w → ∃ u ∈ parts, ∃ path, u.at? path = some w)
    (finite : ∀ u ∈ parts, {w | ∃ path, u.at? path = some w}.Finite) :
    {w | ∃ path, v.at? path = some w}.Finite := by
  refine ((Set.finite_singleton v).union
    ((List.finite_toSet parts).biUnion fun u hu => finite u hu)).subset ?_
  rintro w ⟨path, hw⟩
  cases path with
  | nil => exact .inl (by simpa [Json.at?] using hw.symm)
  | cons name rest =>
    obtain ⟨u, hu, hw⟩ := h name rest w hw
    exact .inr (Set.mem_biUnion hu hw)

/-- The values a JSON value holds are finitely many. -/
lemma finite_at? (v : Json) : {w | ∃ path, v.at? path = some w}.Finite := by
  induction hn : sizeOf v using Nat.strong_induction_on generalizing v with
  | _ n ih =>
    cases v with
    | array items =>
      refine finite_at?_of_parts items ?_ fun u hu => ih _ ?_ u rfl
      · intro name rest w hw
        simp only [Json.at?, Option.bind_eq_bind, Option.bind_eq_some_iff] at hw
        obtain ⟨i, -, u, hu, hw⟩ := hw
        exact ⟨u, List.mem_of_getElem? hu, rest, hw⟩
      · have hlt := List.sizeOf_lt_of_mem hu
        rw [← hn, Json.array.sizeOf_spec]
        omega
    | object members =>
      refine finite_at?_of_parts (OrderedMap.values members) ?_ fun u hu => ih _ ?_ u rfl
      · intro name rest w hw
        simp only [Json.at?, Option.bind_eq_bind, Option.bind_eq_some_iff] at hw
        obtain ⟨u, hu, hw⟩ := hw
        exact ⟨u, List.mem_map_of_mem (OrderedMap.mem_of_get?_eq_some hu), rest, hw⟩
      · obtain ⟨⟨name, w⟩, he, rfl⟩ := List.mem_map.1 hu
        have hlt := List.sizeOf_lt_of_mem he
        rw [Prod.mk.sizeOf_spec] at hlt
        rw [← hn, Json.object.sizeOf_spec]
        dsimp only
        omega
    | _ =>
      refine finite_at?_of_parts [] ?_ fun u hu => absurd hu List.not_mem_nil
      intro name rest w hw
      simp [Json.at?] at hw

lemma finite_facet_at? (a : Facet) : {m | ∃ path, a.at? path = some m}.Finite := by
  cases a with
  | unrecognized name v =>
    refine (((finite_at? v).image fun w => (Node.decode w).toOption).preimage
      (Option.some_injective _).injOn).subset ?_
    rintro m ⟨path, hm⟩
    simp only [Facet.at?, Option.bind_eq_bind, Option.bind_eq_some_iff] at hm
    obtain ⟨w, hw, hm⟩ := hm
    exact ⟨w, ⟨path, hw⟩, hm⟩
  | _ => simp [Facet.at?]

/-- A document has finitely many places, however many fragments there are. -/
theorem finite_places (doc : Node) : {m | ∃ fragment, placeIn doc fragment = some m}.Finite := by
  refine ((List.finite_toSet doc.nodes).union ((List.finite_toSet doc.nodes).biUnion
    fun l _ => (List.finite_toSet l.facets).biUnion fun a _ => finite_facet_at? a)).subset ?_
  rintro m ⟨fragment, hm⟩
  rcases placeIn_cases hm with hm | ⟨l, hl, a, ha, path, hm⟩
  · exact .inl hm
  · exact .inr (Set.mem_biUnion hl (Set.mem_biUnion ha ⟨path, hm⟩))

end Registry

end SchemaCatalog
