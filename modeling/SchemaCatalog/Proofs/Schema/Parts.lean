import Mathlib.Logic.Relation
import SchemaCatalog.Proofs.Schema.Decoding
import SchemaCatalog.Proofs.Schema.Places

/-!
# The parts of a schema

The parts of a node are the schemas its keywords hold and the schemas that a path names in the
plain JSON of its unrecognized members.  `Node.Throughout P n` says that `P` holds of the node,
of its parts, of their parts and so on; it is what an invariant of documents must say, because a
reference may lead to any of these nodes and to no other (`Throughout.of_placeIn`).

In a value that is a schema, the schemas stand in places that the names of the members tell
(`Json.SchemaUnder`, `Json.HasSchema`).  A part of a decoded node is itself decoded, from the value
in such a place (`Node.decode_part`).  So what holds of every keyword that is read holds throughout
a decoded schema (`Node.decode_throughout`).
-/

namespace SchemaCatalog

open Relation

namespace Node

/-- The schemas a node holds, and those that are plain JSON in it. -/
def Part (n c : Node) : Prop :=
  (∃ k ∈ n.keywords, c ∈ k.nested) ∨ ∃ a ∈ n.facets, ∃ path, a.at? path = some c

/-- Whether a property holds of a node and everything inside it. -/
def Throughout (P : Node → Prop) (n : Node) : Prop := ∀ c, ReflTransGen Part n c → P c

/-- Whether a property holds of the keywords of a node, which has none if it is a truth value. -/
structure Carries (K : Keyword → Prop) (n : Node) : Prop where
  truth : n.truth ≠ none → n.keywords = []
  keywords : ∀ k ∈ n.keywords, K k

namespace Throughout

variable {P : Node → Prop} {n c : Node}

lemma self (h : n.Throughout P) : P n := h n .refl

lemma part (h : n.Throughout P) (hc : n.Part c) : c.Throughout P :=
  fun d hd => h d (.head hc hd)

lemma nested (h : n.Throughout P) {k : Keyword} (hk : k ∈ n.keywords) (hc : c ∈ k.nested) :
    c.Throughout P := h.part (.inl ⟨k, hk, hc⟩)

/-- A property holds throughout a node if it holds of the node and throughout its parts. -/
lemma of_parts (self : P n) (parts : ∀ c, n.Part c → c.Throughout P) : n.Throughout P := by
  intro d hd
  rcases hd.cases_head with rfl | ⟨c, hc, hd⟩
  · exact self
  · exact parts c hc d hd

lemma of_mem_nodes (h : n.Throughout P) (hc : c ∈ n.nodes) : c.Throughout P := by
  induction n using induction_nested with
  | step n ih =>
    rcases mem_nodes.1 hc with rfl | ⟨k, hk, d, hd, hc⟩
    · exact h
    · exact ih k hk d hd (h.nested hk hd) hc

lemma of_placeIn {fragment : String} (h : n.Throughout P)
    (hc : Registry.placeIn n fragment = some c) : c.Throughout P := by
  rcases Registry.placeIn_cases hc with hc | ⟨l, hl, a, ha, path, hc⟩
  · exact h.of_mem_nodes hc
  · exact (h.of_mem_nodes hl).part (.inr ⟨a, ha, path, hc⟩)

end Throughout

/-- Where no unrecognized member is a schema, a property holds throughout a tree if it holds of all
nodes of the tree. -/
lemma throughout_of_nodes {P : Node → Prop} {n : Node} (h : ∀ m ∈ n.nodes, P m)
    (plain : ∀ m ∈ n.nodes, ∀ a ∈ m.facets, ∀ path, a.at? path = none) : n.Throughout P := by
  intro c hc
  refine h c ?_
  induction hc with
  | refl => exact n.self_mem_nodes
  | tail _ hpart ih =>
    rcases hpart with ⟨k, hk, hc⟩ | ⟨a, ha, path, hc⟩
    · exact mem_nodes_trans ih (mem_nodes_of_nested hk hc (self_mem_nodes _))
    · rw [plain _ ih a ha path] at hc
      cases hc

/-- Which parts a node has depends on its tree alone. -/
lemma exists_part_of_forget {n m c : Node} (h : n.forget = m.forget) (hc : m.Part c) :
    ∃ d, n.Part d ∧ d.forget = c.forget := by
  rcases hc with ⟨k, hk, hc⟩ | ⟨a, ha, path, hc⟩
  · have hmem : k.map forget ∈ n.keywords.map (Keyword.map forget) := by
      rw [← keywords_forget, h, keywords_forget]
      exact List.mem_map_of_mem hk
    obtain ⟨j, hj, hmap⟩ := List.mem_map.1 hmem
    have hmem : c.forget ∈ j.nested.map forget := by
      rw [← Keyword.nested_map, hmap, Keyword.nested_map]
      exact List.mem_map_of_mem hc
    obtain ⟨d, hd, hforget⟩ := List.mem_map.1 hmem
    exact ⟨d, .inl ⟨j, hj, hd⟩, hforget⟩
  · have hfacets : n.facets = m.facets := by rw [← facets_forget, h, facets_forget]
    exact ⟨c, .inr ⟨a, hfacets ▸ ha, path, hc⟩, rfl⟩

/-- What does not depend on identities and base addresses holds throughout a tree whatever these
are. -/
lemma Throughout.congr {P : Node → Prop} {n m : Node}
    (hP : ∀ a b : Node, a.forget = b.forget → P a → P b) (h : n.Throughout P)
    (hforget : n.forget = m.forget) : m.Throughout P := by
  have follow : ∀ c, ReflTransGen Part m c → ∃ d, ReflTransGen Part n d ∧ d.forget = c.forget := by
    intro c hc
    induction hc with
    | refl => exact ⟨n, .refl, hforget⟩
    | tail _ hstep ih =>
      obtain ⟨b, hb, hbforget⟩ := ih
      obtain ⟨d, hd, hdforget⟩ := exists_part_of_forget hbforget hstep
      exact ⟨d, hb.tail hd, hdforget⟩
  intro c hc
  obtain ⟨d, hd, hdforget⟩ := follow c hc
  exact hP d c hdforget (h d hd)

end Node

/-- Whether a property holds of a keyword and of the keywords of everything inside it. -/
structure Keyword.Throughout (K : Keyword → Prop) (k : Keyword) : Prop where
  self : K k
  nested : ∀ c ∈ k.nested, c.Throughout (Node.Carries K)
  plain : ∀ a, k.facet? = some a → ∀ path c, a.at? path = some c → c.Throughout (Node.Carries K)

/-- What holds throughout a node holds throughout each of its keywords. -/
theorem Node.throughout_carries_iff {K : Keyword → Prop} {n : Node} :
    n.Throughout (Carries K) ↔
      (n.truth ≠ none → n.keywords = []) ∧ ∀ k ∈ n.keywords, k.Throughout K := by
  constructor
  · intro h
    refine ⟨h.self.truth, fun k hk => ⟨h.self.keywords k hk, fun c hc => h.nested hk hc, ?_⟩⟩
    exact fun a ha path c hc => h.part (.inr ⟨a, List.mem_filterMap.2 ⟨k, hk, ha⟩, path, hc⟩)
  · rintro ⟨htruth, hkeywords⟩
    refine .of_parts ⟨htruth, fun k hk => (hkeywords k hk).self⟩ ?_
    rintro c (⟨k, hk, hc⟩ | ⟨a, ha, path, hc⟩)
    · exact (hkeywords k hk).nested c hc
    · obtain ⟨k, hk, hka⟩ := List.mem_filterMap.1 ha
      exact (hkeywords k hk).plain a hka path c hc

/-! ## Parts of decoded schemas -/

namespace Json

/-- Whether one value is among the schemas that another one, as the value of a keyword, has.
Outside the vocabulary a schema is wherever a path leads. -/
def SchemaUnder (name : String) (v u : Json) : Prop :=
  match Term.ofName? name, v with
  | some (.keyed _), .object members => u ∈ OrderedMap.values members
  | some (.keyed _), .array items => u ∈ items
  | some (.ordered _), .array items => u ∈ items
  | some (.ordered .items), v => u = v
  | some .additionalProperties, v => u = v
  | none, v => ∃ path, v.at? path = some u
  | _, _ => False

/-- Whether one value is among the schemas that another one, as a schema, has in its members. -/
def HasSchema (v u : Json) : Prop :=
  ∃ members, v = .object members ∧ ∃ m ∈ members, SchemaUnder m.1 m.2 u

end Json

/-- What a value inside another one has of it. -/
structure Json.Within (u v : Json) : Prop where
  size : sizeOf u ≤ sizeOf v
  distinct : v.hasDistinctNames = true → u.hasDistinctNames = true

private lemma Json.within_item {items : List Json} {u : Json} (h : u ∈ items) :
    u.Within (.array items) where
  size := by
    have := List.sizeOf_lt_of_mem h
    rw [Json.array.sizeOf_spec]
    omega
  distinct hv := hasDistinctNames_array.1 hv u h

private lemma Json.sizeOf_member_lt {members : List (String × Json)} {m : String × Json}
    (h : m ∈ members) : sizeOf m.2 < sizeOf (Json.object members) := by
  have hlt := List.sizeOf_lt_of_mem h
  obtain ⟨name, u⟩ := m
  rw [Prod.mk.sizeOf_spec] at hlt
  rw [Json.object.sizeOf_spec]
  dsimp only
  omega

private lemma Json.within_member {members : List (String × Json)} {m : String × Json}
    (h : m ∈ members) : m.2.Within (.object members) where
  size := (sizeOf_member_lt h).le
  distinct hv := (hasDistinctNames_object.1 hv).2 m h

private lemma Json.Within.refl (v : Json) : v.Within v := ⟨Nat.le_refl _, fun hv => hv⟩

private lemma Json.Within.trans {u v w : Json} (h : u.Within v) (h' : v.Within w) : u.Within w :=
  ⟨h.size.trans h'.size, fun hw => h.distinct (h'.distinct hw)⟩

lemma Json.within_at? {v u : Json} {path : List String} (h : v.at? path = some u) :
    u.Within v := by
  induction path generalizing v with
  | nil =>
    obtain rfl : v = u := by simpa [Json.at?] using h
    exact .refl v
  | cons name rest ih =>
    cases v with
    | array items =>
      simp only [Json.at?, Option.bind_eq_bind, Option.bind_eq_some_iff] at h
      obtain ⟨i, -, w, hw, h⟩ := h
      exact (ih h).trans (within_item (List.mem_of_getElem? hw))
    | object members =>
      simp only [Json.at?, Option.bind_eq_bind, Option.bind_eq_some_iff] at h
      obtain ⟨w, hw, h⟩ := h
      exact (ih h).trans (within_member (OrderedMap.mem_of_get?_eq_some hw))
    | _ => simp [Json.at?] at h

private lemma Json.SchemaUnder.within {name : String} {v u : Json} (h : SchemaUnder name v u) :
    u.Within v := by
  unfold SchemaUnder at h
  split at h
  · obtain ⟨m, hm, rfl⟩ := List.mem_map.1 h
    exact within_member hm
  · exact within_item h
  · exact within_item h
  · exact h ▸ .refl _
  · exact h ▸ .refl _
  · exact within_at? h.choose_spec
  · exact h.elim

namespace Json.HasSchema

variable {v u : Json}

lemma sizeOf_lt (h : v.HasSchema u) : sizeOf u < sizeOf v := by
  obtain ⟨members, rfl, m, hm, h⟩ := h
  exact Nat.lt_of_le_of_lt h.within.size (sizeOf_member_lt hm)

lemma hasDistinctNames (h : v.HasSchema u) (hv : v.hasDistinctNames = true) :
    u.hasDistinctNames = true := by
  obtain ⟨members, rfl, m, hm, h⟩ := h
  exact h.within.distinct ((within_member hm).distinct hv)

end Json.HasSchema

namespace Keyword

lemma Reads.name_eq {name : String} {v : Json} {k : Keyword} (h : Reads name v k) :
    k.name = name := by
  cases h with
  | @plain t v k h =>
    refine name_eq_of_term? (t := t) ?_
    cases t <;> simp only [Decode.plain, Decode.reject, Decode.schemaShape, reduceCtorEq,
      map_eq_ok_iff, Except.ok.injEq] at h
    case default => exact h ▸ rfl
    all_goals
      obtain ⟨a, -, rfl⟩ := h
      rfl
  | _ => rfl

lemma names_of_reads {members : List (String × Json)} {ks : List Keyword}
    (h : List.Forall₂ (fun m k => Reads m.1 m.2 k) members ks) :
    ks.map name = OrderedMap.keys members := by
  induction h with
  | nil => rfl
  | cons hread _ ih => rw [List.map_cons, OrderedMap.keys_cons, hread.name_eq, ih]

/-- What is kept as it is is the value of a member outside the vocabulary. -/
lemma Reads.unrecognized_eq {name s : String} {v w : Json}
    (h : Reads name v (.facet (.unrecognized s w))) : Term.ofName? s = none ∧ w = v := by
  cases h with
  | unrecognized unknown => exact ⟨unknown, rfl⟩
  | @plain t v k h =>
    cases t <;> simp [Decode.plain, Decode.reject, Decode.schemaShape, map_eq_ok_iff] at h

/-- The schemas of a keyword that is read are decoded from those that its value has. -/
lemma Reads.schemaUnder {name : String} {v : Json} {k : Keyword} (h : Reads name v k) {c : Node}
    (hc : c ∈ k.nested) : ∃ u, Node.decode u = .ok c ∧ Json.SchemaUnder name v u := by
  have item {items : List Json} {ns : List Node} {c : Node}
      (h : Node.decodeItems items = .ok ns) (hc : c ∈ ns) : ∃ u ∈ items, Node.decode u = .ok c :=
    exists_rel_of_mem (Node.decodeItems_eq_ok_iff.1 h).flip hc
  cases h with
  | @members kind _ _ _ schemas =>
    obtain ⟨e, he, rfl⟩ := List.mem_map.1 hc
    obtain ⟨m, hm, -, hdecode⟩ :=
      exists_rel_of_mem (Node.decodeMembers_eq_ok_iff.1 schemas).flip he
    refine ⟨m.2, hdecode, ?_⟩
    simp only [Json.SchemaUnder, kind.ofName?_name]
    exact List.mem_map_of_mem hm
  | @indexed kind _ _ _ schemas =>
    rw [Keyword.nested, Decode.values_indexed] at hc
    obtain ⟨u, hu, hdecode⟩ := item schemas hc
    exact ⟨u, hdecode, by simpa only [Json.SchemaUnder, kind.ofName?_name] using hu⟩
  | @named kind _ _ _ schemas =>
    obtain ⟨e, he, rfl⟩ := List.mem_map.1 hc
    obtain ⟨u, hu, -, hdecode⟩ :=
      exists_rel_of_mem (Node.decodeNamed_eq_ok_iff.1 schemas).1.flip he
    exact ⟨u, hdecode, by simpa only [Json.SchemaUnder, kind.ofName?_name] using hu⟩
  | @ordered kind _ _ schemas =>
    obtain ⟨u, hu, hdecode⟩ := item schemas hc
    exact ⟨u, hdecode, by simpa only [Json.SchemaUnder, kind.ofName?_name] using hu⟩
  | noItems => exact absurd hc List.not_mem_nil
  | loneItem schema =>
    rw [List.mem_singleton.1 hc]
    refine ⟨v, schema, ?_⟩
    cases v with
    | array items => cases schema
    | _ => simp only [Json.SchemaUnder, OrderedKind.items.ofName?_name]
  | additionalProperties schema =>
    rw [List.mem_singleton.1 hc]
    exact ⟨v, schema, by simp only [Json.SchemaUnder, Term.ofName?_name]⟩
  | unrecognized _ => exact absurd hc List.not_mem_nil
  | @plain t v k h =>
    cases t <;> simp only [Decode.plain, Decode.reject, Decode.schemaShape, reduceCtorEq,
      map_eq_ok_iff, Except.ok.injEq] at h
    case default => exact absurd hc (h ▸ List.not_mem_nil)
    all_goals
      obtain ⟨a, -, rfl⟩ := h
      exact absurd hc List.not_mem_nil

end Keyword

namespace Node

/-- A decoded node is a truth value without keywords or has a keyword for each member. -/
lemma decode_cases {v : Json} {n : Node} (h : decode v = .ok n) :
    (∃ b, v = .bool b ∧ n = .ofBool b) ∨
      ∃ members ks, v = .object members ∧ n = .ofKeywords ks ∧
        List.Forall₂ (fun m k => Keyword.Reads m.1 m.2 k) members ks := by
  cases v with
  | bool b => exact .inl ⟨b, rfl, (Except.ok.inj h).symm⟩
  | object members =>
    obtain ⟨ks, hks, rfl⟩ := map_eq_ok_iff.1 h
    refine .inr ⟨members, ks, rfl, rfl, ?_⟩
    exact (Keyword.decodeAll_eq_ok_iff.1 hks).imp fun _ _ => Keyword.reads_of_decode
  | _ => cases h

/-- A part of a decoded node is decoded from a schema in the value. -/
lemma decode_part {v : Json} {n c : Node} (h : decode v = .ok n) (hc : n.Part c) :
    ∃ u, decode u = .ok c ∧ v.HasSchema u := by
  obtain ⟨b, rfl, rfl⟩ | ⟨members, ks, rfl, rfl, hks⟩ := decode_cases h
  · rcases hc with ⟨k, hk, -⟩ | ⟨a, ha, -⟩
    · exact absurd hk List.not_mem_nil
    · exact absurd ha List.not_mem_nil
  suffices hu : ∃ m ∈ members, ∃ u, decode u = .ok c ∧ Json.SchemaUnder m.1 m.2 u by
    obtain ⟨m, hm, u, hu, hunder⟩ := hu
    exact ⟨u, hu, members, rfl, m, hm, hunder⟩
  rcases hc with ⟨k, hk, hc⟩ | ⟨a, ha, path, hc⟩
  · obtain ⟨m, hm, hread⟩ := Keyword.exists_rel_of_mem hks.flip hk
    exact ⟨m, hm, hread.schemaUnder hc⟩
  · obtain ⟨k, hk, hfacet⟩ := List.mem_filterMap.1 ha
    obtain ⟨m, hm, hread⟩ := Keyword.exists_rel_of_mem hks.flip hk
    cases k with
    | facet a' =>
      obtain rfl := Option.some.inj hfacet
      cases a' with
      | unrecognized s w =>
        obtain ⟨hunknown, rfl⟩ := Keyword.Reads.unrecognized_eq hread
        simp only [Facet.at?, Option.bind_eq_bind, Option.bind_eq_some_iff] at hc
        obtain ⟨u, hu, hc⟩ := hc
        have hunknown : Term.ofName? m.1 = none := hread.name_eq ▸ hunknown
        refine ⟨m, hm, u, toOption_eq_some.1 hc, ?_⟩
        simp only [Json.SchemaUnder, hunknown]
        exact ⟨path, hu⟩
      | _ => simp [Facet.at?] at hc
    | _ => cases hfacet

/-- What holds of every node that is decoded holds throughout a decoded schema.  What the values must
satisfy for that passes on to the schemas they have. -/
theorem throughout_of_decode {Q : Json → Prop} {P : Node → Prop}
    (hQ : ∀ v u, Q v → v.HasSchema u → Q u) (hP : ∀ v n, Q v → decode v = .ok n → P n)
    {v : Json} {n : Node} (hv : Q v) (h : decode v = .ok n) : n.Throughout P := by
  induction hsize : sizeOf v using Nat.strong_induction_on generalizing v n with
  | _ size ih =>
    refine .of_parts (hP v n hv h) fun c hc => ?_
    obtain ⟨u, hu, hschema⟩ := decode_part h hc
    exact ih (sizeOf u) (hsize ▸ hschema.sizeOf_lt) (hQ v u hv hschema) hu rfl

/-- What holds of every keyword that is read holds throughout a decoded schema. -/
theorem decode_throughout {Q : Json → Prop} {K : Keyword → Prop}
    (hQ : ∀ v u, Q v → v.HasSchema u → Q u)
    (hK : ∀ members, Q (.object members) → ∀ m ∈ members, ∀ k, Keyword.Reads m.1 m.2 k → K k)
    {v : Json} {n : Node} (hv : Q v) (h : decode v = .ok n) : n.Throughout (Carries K) := by
  refine throughout_of_decode hQ (fun v n hv h => ?_) hv h
  obtain ⟨b, rfl, rfl⟩ | ⟨members, ks, rfl, rfl, hks⟩ := decode_cases h
  · exact ⟨fun _ => rfl, fun k hk => absurd hk List.not_mem_nil⟩
  · refine ⟨fun htruth => absurd rfl htruth, fun k hk => ?_⟩
    obtain ⟨m, hm, hread⟩ := Keyword.exists_rel_of_mem hks.flip hk
    exact hK members hv m hm k hread

end Node

end SchemaCatalog
