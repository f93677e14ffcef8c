import SchemaCatalog.Proofs.Schema.Comparable
import SchemaCatalog.Proofs.Schema.Pointers

/-!
# Positions in the value of a schema

The value of a schema has further schemas at certain positions, and decoding puts each of them at
the place in the tree that the path of its position names (`Json.Position.find?`).  The tree does
not tell how it was written: a schema of all items is a list of one, and listed errors go by keys
like those of an object.  Paths work for either spelling, for the schema of all items is found
without an index and the keys of a list are its indices in decimal.

Positions follow the members of the value alone.  What a member of a schema holds (`Json.Holds`) is
compared with what the keyword holds that it is decoded to (`Json.Holds.keywordAt?`), and an
induction over the position does the rest (`Json.Position.at?`).
-/

namespace SchemaCatalog

namespace Json

/-! ## Positions -/

/-- What the value of a member holds, by the name of the member: a path into the value, and the
value of a schema there. -/
inductive Holds : String → Json → List String → Json → Prop where
  /-- A schema under a key. -/
  | member {kind : KeyedKind} {members : List (String × Json)} {key : String} {u : Json}
      (layout : kind.layout ≠ .named) (found : OrderedMap.get? members key = some u) :
      Holds kind.name (.object members) [key] u
  /-- A schema in a list that goes by position. -/
  | entry {kind : KeyedKind} {items : List Json} {i : Nat} {u : Json}
      (layout : kind.layout = .indexed) (found : items[i]? = some u) :
      Holds kind.name (.array items) [toString i] u
  /-- A schema in a list. -/
  | item {kind : OrderedKind} {items : List Json} {i : Nat} {u : Json}
      (found : items[i]? = some u) : Holds kind.name (.array items) [toString i] u
  /-- The schema of all items, which stands for itself. -/
  | loneItem {u : Json} (array : ∀ items, u ≠ .array items) (null : u ≠ .null) :
      Holds OrderedKind.items.name u [] u
  /-- The schema of the properties that are not named. -/
  | additionalProperties {u : Json} : Holds Term.additionalProperties.name u [] u

/-- The positions of schemas in the value of a schema: the path to each and the value there. -/
inductive Position : Json → List String → Json → Prop where
  /-- The value itself. -/
  | root (v : Json) : Position v [] v
  /-- A position in a schema that the value of a member holds. -/
  | inside {members : List (String × Json)} {name : String} {v u w : Json} {path rest : List String}
      (member : OrderedMap.get? members name = some v) (holds : Holds name v path u)
      (further : Position u rest w) : Position (.object members) (name :: (path ++ rest)) w

/-- Whether a path is empty or begins with a keyword of the vocabulary. -/
def KeywordPath (path : List String) : Prop :=
  path = [] ∨ ∃ t : Term, ∃ rest, path = t.name :: rest

lemma Position.keywordPath {v u : Json} {path : List String} (h : v.Position path u) :
    KeywordPath path := by
  cases h with
  | root => exact .inl rfl
  | inside _ holds _ =>
    right
    cases holds with
    | @member kind => exact ⟨.keyed kind, _, rfl⟩
    | @entry kind => exact ⟨.keyed kind, _, rfl⟩
    | @item kind => exact ⟨.ordered kind, _, rfl⟩
    | loneItem => exact ⟨.ordered .items, _, rfl⟩
    | additionalProperties => exact ⟨.additionalProperties, _, rfl⟩

end Json

/-! ## Look-ups among what was decoded -/

lemma Decode.get?_indexed {schemas : List Node} {i : Nat} {c : Node} (hc : schemas[i]? = some c) :
    OrderedMap.get? (indexed schemas) (toString i) = some c := by
  rw [OrderedMap.get?_eq_some_iff (Keyword.nodup_keys_indexed schemas)]
  exact List.mem_map.2 ⟨(c, i), List.mk_mem_zipIdx_iff_getElem?.2 hc, rfl⟩

/-- The first of the members with a name is decoded to the first keyword with the name. -/
lemma Keyword.exists_decode_of_get? {members : List (String × Json)} {ks : List Keyword}
    (h : List.Forall₂ (fun m k => Keyword.decode m.1 m.2 = .ok k) members ks) {name : String}
    {v : Json} (hv : OrderedMap.get? members name = some v) :
    ∃ k ∈ ks, Keyword.decode name v = .ok k ∧
      ∀ rest m, keywordAt? k rest = some m → keywordsAt? ks name rest = some m := by
  induction h with
  | nil => cases hv
  | @cons member k members ks hk _ ih =>
    have hname : k.name = member.1 := (Keyword.reads_of_decode hk).name_eq
    rw [OrderedMap.get?] at hv
    split at hv
    case isTrue hsame =>
      obtain rfl := Option.some.inj hv
      refine ⟨k, List.mem_cons_self, hsame ▸ hk, fun rest m hm => ?_⟩
      rw [keywordsAt?, if_pos (hname.trans hsame), hm]
    case isFalse hother =>
      obtain ⟨j, hj, hread, hat⟩ := ih hv
      refine ⟨j, List.mem_cons_of_mem _ hj, hread, fun rest m hm => ?_⟩
      rw [keywordsAt?, if_neg (hname ▸ hother), hat rest m hm]

/-- What stands without a list is read as the only schema of all items. -/
lemma Keyword.exists_decode_loneItem {v : Json} {k : Keyword}
    (h : Keyword.decode OrderedKind.items.name v = .ok k) (array : ∀ items, v ≠ .array items)
    (null : v ≠ .null) : ∃ c, Node.decode v = .ok c ∧ k = .ordered .items [c] := by
  have hname := OrderedKind.items.ofName?_name
  cases v with
  | null => exact absurd rfl null
  | array items => exact absurd rfl (array items)
  | bool b =>
    simp only [Keyword.decode, hname, Except.ok.injEq] at h
    exact ⟨_, rfl, h.symm⟩
  | object members =>
    simp only [Keyword.decode, hname] at h
    obtain ⟨ks, hks, rfl⟩ := map_eq_ok_iff.1 h
    exact ⟨_, map_eq_ok_iff.2 ⟨ks, hks, rfl⟩, rfl⟩
  | _ => simp [Keyword.decode, hname, Decode.plain, Decode.reject] at h

lemma Keyword.exists_decode_additionalProperties {v : Json} {k : Keyword}
    (h : Keyword.decode Term.additionalProperties.name v = .ok k) :
    ∃ c, Node.decode v = .ok c ∧ k = .additionalProperties c := by
  have hname := Term.ofName?_name .additionalProperties
  cases v with
  | bool b =>
    simp only [Keyword.decode, hname, Except.ok.injEq] at h
    exact ⟨_, rfl, h.symm⟩
  | object members =>
    simp only [Keyword.decode, hname] at h
    obtain ⟨ks, hks, rfl⟩ := map_eq_ok_iff.1 h
    exact ⟨_, map_eq_ok_iff.2 ⟨ks, hks, rfl⟩, rfl⟩
  | _ => simp [Keyword.decode, hname, Decode.plain, Decode.schemaShape, Decode.reject] at h

/-! ## Decoding at a position -/

lemma keywordAt?_lone {kind : OrderedKind} {c : Node} {rest : List String}
    (h : Json.KeywordPath rest) : keywordAt? (.ordered kind [c]) rest = c.at? rest := by
  obtain rfl | ⟨t, tail, rfl⟩ := h
  · rfl
  · simp only [keywordAt?, index?_name, loneAt?]

namespace Json

lemma at?_nil (v : Json) : v.at? [] = some v := by
  cases v <;> rfl

lemma at?_object {members : List (String × Json)} {name : String} {v : Json}
    (h : OrderedMap.get? members name = some v) (rest : List String) :
    (object members).at? (name :: rest) = v.at? rest := by
  simp [at?, h]

lemma at?_array {items : List Json} {i : Nat} {v : Json} (h : items[i]? = some v)
    (fits : items.length ≤ Nat.pow 2 64) (rest : List String) :
    (array items).at? (toString i :: rest) = v.at? rest := by
  obtain ⟨hlt, -⟩ := List.getElem?_eq_some_iff.1 h
  have hindex := index?_toString (Nat.lt_of_lt_of_le hlt fits)
  simp only [at?, hindex, Option.bind_eq_bind, Option.bind_some, h]

/-- What the value of a member holds is decoded to what the keyword holds, and the same paths lead
there. -/
lemma Holds.keywordAt? {name : String} {v u : Json} {path : List String} {k : Keyword}
    (h : Holds name v path u) (hk : Keyword.decode name v = .ok k)
    (fits : k.nested.length ≤ Nat.pow 2 64) :
    ∃ c ∈ k.nested, Node.decode u = .ok c ∧ ∀ rest, KeywordPath rest →
      v.at? (path ++ rest) = u.at? rest ∧
      SchemaCatalog.keywordAt? k (path ++ rest) = c.at? rest := by
  cases h with
  | @member kind members key u layout found =>
    have hname := kind.ofName?_name
    simp only [Keyword.decode, hname] at hk
    obtain ⟨ns, hns, rfl⟩ := map_eq_ok_iff.1 hk
    obtain ⟨c, hc, -, hdecode⟩ := OrderedMap.exists_get?_of_forall₂
      (Node.decodeMembers_eq_ok_iff.1 hns) (fun _ _ h => h.1) found
    exact ⟨c, List.mem_map_of_mem (OrderedMap.mem_of_get?_eq_some hc), hdecode, fun rest _ =>
      ⟨at?_object found rest, keywordAt?_keyed hc rest⟩⟩
  | @entry kind items i u layout found =>
    have hname := kind.ofName?_name
    simp only [Keyword.decode, hname, layout] at hk
    obtain ⟨ns, hns, rfl⟩ := map_eq_ok_iff.1 hk
    have hitems := Node.decodeItems_eq_ok_iff.1 hns
    obtain ⟨c, hc, hdecode⟩ := exists_getElem?_of_forall₂ hitems found
    rw [Keyword.nested, Decode.values_indexed] at fits ⊢
    have hget := Decode.get?_indexed hc
    exact ⟨c, List.mem_of_getElem? hc, hdecode, fun rest _ =>
      ⟨at?_array found (hitems.length_eq ▸ fits) rest, keywordAt?_keyed hget rest⟩⟩
  | @item kind items i u found =>
    have hname := kind.ofName?_name
    simp only [Keyword.decode, hname] at hk
    obtain ⟨ns, hns, rfl⟩ := map_eq_ok_iff.1 hk
    have hitems := Node.decodeItems_eq_ok_iff.1 hns
    obtain ⟨c, hc, hdecode⟩ := exists_getElem?_of_forall₂ hitems found
    exact ⟨c, List.mem_of_getElem? hc, hdecode, fun rest _ =>
      ⟨at?_array found (hitems.length_eq ▸ fits) rest, keywordAt?_ordered hc fits rest⟩⟩
  | loneItem array null =>
    obtain ⟨c, hdecode, rfl⟩ := Keyword.exists_decode_loneItem hk array null
    exact ⟨c, List.mem_singleton_self c, hdecode, fun rest hrest => ⟨rfl, keywordAt?_lone hrest⟩⟩
  | additionalProperties =>
    obtain ⟨c, hdecode, rfl⟩ := Keyword.exists_decode_additionalProperties hk
    exact ⟨c, List.mem_singleton_self c, hdecode, fun rest _ => ⟨rfl, rfl⟩⟩

/-- The tree has at a position what is decoded from the value there. -/
theorem Position.at? {v u : Json} {path : List String} {n : Node} (h : v.Position path u)
    (hn : Node.decode v = .ok n) (fits : n.IndicesFit) :
    v.at? path = some u ∧ ∃ m, Node.decode u = .ok m ∧ n.at? path = some m := by
  induction h generalizing n with
  | root v => exact ⟨at?_nil v, n, hn, SchemaCatalog.at?_nil n⟩
  | @inside members name v u w path rest member holds further ih =>
    obtain ⟨ks, hks, rfl⟩ := map_eq_ok_iff.1 hn
    obtain ⟨k, hk, hread, hat⟩ :=
      Keyword.exists_decode_of_get? (Keyword.decodeAll_eq_ok_iff.1 hks) member
    obtain ⟨c, hc, hdecode, hpaths⟩ := holds.keywordAt? hread (fits.keywords k hk)
    obtain ⟨hvalue, hkeyword⟩ := hpaths rest further.keywordPath
    obtain ⟨hu, m, hm, hplace⟩ := ih hdecode (fits.nested hk hc)
    refine ⟨?_, m, hm, ?_⟩
    · rw [at?_object member, hvalue, hu]
    · exact hat _ m (hkeyword.trans hplace)

end Json

/-- **Following pointers commutes with decoding.**  At every position of a schema in the value of a
schema, the pointer of the position leads in the tree to the schema that the value there is decoded
to. -/
theorem Json.Position.find?_decode {v u : Json} {path : List String} {n : Node}
    (hn : Node.decode v = .ok n) (fits : n.IndicesFit) (h : v.Position path u) :
    v.at? path = some u ∧ ∃ m, Node.decode u = .ok m ∧ n.find? (pointer path) = some m := by
  rw [Node.find?_pointer]
  exact h.at? hn fits

/-- A schema with a definition under the empty key. -/
def Json.unnamedDefinition : Json := .object [("definitions", .object [("", .bool true)])]

/-- The same schema in a listed error of all items of a property. -/
def Json.listedError : Json :=
  .object [("properties", .object [("a/b~", .object [("items", .object [("errors", .array
    [.object [("oneOf", .array [.bool false, .unnamedDefinition])]])])])])]

/-- The pointer of a position with escapes, indices, an empty key and items that are no list. -/
theorem Json.Position.find?_decode_listedError :
    ∃ n m, Node.decode .listedError = .ok n ∧ Node.decode (.bool true) = .ok m ∧
      n.find? "/properties/a~1b~0/items/errors/0/oneOf/1/definitions/" = some m := by
  have hevaluated : (Node.decode .listedError).toOption.any (fun n => decide n.IndicesFit) =
      true := by
    decide +kernel
  obtain ⟨n, hn, fits⟩ := exists_of_any_toOption hevaluated
  have hdefinition : Json.unnamedDefinition.Position ["definitions", ""] (.bool true) :=
    .inside rfl (@Holds.member .definitions _ "" _ nofun rfl) (.root _)
  have herror : Json.listedError.Position
      ["properties", "a/b~", "items", "errors", "0", "oneOf", "1", "definitions", ""]
      (.bool true) := by
    refine .inside rfl (@Holds.member .properties _ "a/b~" _ nofun rfl) ?_
    refine .inside rfl (@Holds.loneItem (.object _) nofun nofun) ?_
    refine .inside rfl (@Holds.entry .errors _ 0 _ rfl rfl) ?_
    exact .inside rfl (@Holds.item .oneOf _ 1 _ rfl) hdefinition
  obtain ⟨-, m, hm, hfound⟩ := herror.find?_decode hn (of_decide_eq_true fits)
  exact ⟨n, m, hn, hm, hfound⟩

end SchemaCatalog
