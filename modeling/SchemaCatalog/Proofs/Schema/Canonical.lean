import SchemaCatalog.Proofs.Schema.RoundTrip

/-!
# The normal form of a schema

Decoding accepts several shapes of a value for one meaning and encoding writes one of them.
`Json.canonical` rewrites a value to the shapes that are written, without a look at what they
mean: it goes through the schemas inside the value, and in each of them it changes a list of one
type name to the name, a list of no or one item schema to null or the schema, positional entries
under names to the list of them, and names of token kinds to lower case.  Everything else stays
as it is and where it is, and what is no schema is not entered.

A schema that is decoded and encoded again is the value in normal form
(`Node.encode_of_decode`), and the normal form is decoded to a schema that is encoded as the normal
form once more.
-/

namespace SchemaCatalog

namespace Json

/-- A text in lower case. -/
def lowered : Json → Json
  | .string s => .string s.toLower
  | v => v

mutual

/-- The normal form of a schema. -/
def canonical : Json → Json
  | .object members => .object (canonicalKeywords members)
  | v => v

/-- The members of a schema, each with the normal form of its value. -/
def canonicalKeywords : List (String × Json) → List (String × Json)
  | [] => []
  | (name, v) :: members => (name, canonicalUnder name v) :: canonicalKeywords members

/-- The normal form of the value that a schema has under a name. -/
def canonicalUnder (name : String) : Json → Json
  | .object members =>
    match Term.ofName? name with
    | some (.keyed .errors) | some (.keyed .subcodes) =>
      .array (OrderedMap.values (canonicalMembers members))
    | some (.keyed _) => .object (canonicalMembers members)
    | some (.ordered _) | some .additionalProperties => .object (canonicalKeywords members)
    | _ => .object members
  | .array items =>
    match Term.ofName? name with
    | some (.keyed _) => .array (canonicalItems items)
    | some (.ordered .items) =>
      match canonicalItems items with
      | [] => .null
      | [v] => v
      | vs => .array vs
    | some (.ordered _) => .array (canonicalItems items)
    | some .type =>
      match items with
      | [v] => v
      | _ => .array items
    | some .accessTokens => .array (items.map lowered)
    | _ => .array items
  | v => v

/-- Schemas under names, each in normal form. -/
def canonicalMembers : List (String × Json) → List (String × Json)
  | [] => []
  | (name, v) :: members => (name, v.canonical) :: canonicalMembers members

/-- Listed schemas, each in normal form. -/
def canonicalItems : List Json → List Json
  | [] => []
  | v :: items => v.canonical :: canonicalItems items

end

lemma canonicalKeywords_eq (members : List (String × Json)) :
    canonicalKeywords members = members.map fun m => (m.1, canonicalUnder m.1 m.2) := by
  induction members with
  | nil => rfl
  | cons m members ih =>
    rw [List.map_cons, ← ih]
    rfl

lemma canonicalMembers_eq (members : List (String × Json)) :
    canonicalMembers members = members.map fun m => (m.1, m.2.canonical) := by
  induction members with
  | nil => rfl
  | cons m members ih =>
    rw [List.map_cons, ← ih]
    rfl

lemma canonicalItems_eq (items : List Json) : canonicalItems items = items.map canonical := by
  induction items with
  | nil => rfl
  | cons v items ih =>
    rw [List.map_cons, ← ih]
    rfl

/-- The terms whose values are in normal form whatever they are, and the lack of a term. -/
def verbatimTerms : List (Option Term) :=
  [none, some .required, some .enum, some .enumNames, some .default]

lemma canonicalUnder_of_verbatim {name : String} (v : Json)
    (h : Term.ofName? name ∈ verbatimTerms) : canonicalUnder name v = v := by
  simp only [verbatimTerms, List.mem_cons, List.not_mem_nil, or_false] at h
  rcases h with h | h | h | h | h <;> cases v <;> simp [canonicalUnder, h]

lemma canonicalUnder_type (items : List Json) : canonicalUnder Term.type.name (.array items) =
    match items with
    | [v] => v
    | _ => .array items := rfl

lemma canonicalUnder_accessTokens (items : List Json) :
    canonicalUnder Term.accessTokens.name (.array items) = .array (items.map lowered) := rfl

end Json

/-! ## Facets -/

namespace Decode

lemma strings_eq_ok {keyword : String} {v : Json} {texts : List String}
    (h : strings keyword v = .ok texts) : v = .array (texts.map .string) := by
  cases v with
  | array items =>
    simp only [strings, mapM_eq_ok_iff] at h
    congr 1
    induction h with
    | nil => rfl
    | @cons u s _ _ hu _ ih =>
      cases u with
      | string t =>
        obtain rfl := Except.ok.inj hu
        rw [List.map_cons, ih]
      | _ => cases hu
  | _ => cases h

lemma string_eq_ok {keyword : String} {v : Json} {text : String}
    (h : string keyword v = .ok text) : v = .string text := by
  cases v <;> cases h
  rfl

lemma number_eq_ok {keyword : String} {v : Json} {n : Number} (h : number keyword v = .ok n) :
    v = .number n := by
  cases v <;> cases h
  rfl

lemma bool_eq_ok {keyword : String} {v : Json} {b : Bool} (h : bool keyword v = .ok b) :
    v = .bool b := by
  cases v <;> cases h
  rfl

lemma values_eq_ok {keyword : String} {v : Json} {items : List Json}
    (h : values keyword v = .ok items) : v = .array items := by
  cases v <;> cases h
  rfl

/-- A kind of token is read from its name in any case of letters. -/
lemma accessToken_eq_ok {name : String} {t : AccessTokenType} (h : accessToken name = .ok t) :
    name.toLower = t.name := by
  have exact {s : String} (h : AccessTokenType.ofExactName? s = some t) : s = t.name := by
    unfold AccessTokenType.ofExactName? at h
    split at h <;> simp only [Option.some.injEq, reduceCtorEq] at h <;> rw [← h] <;> rfl
  unfold accessToken at h
  split at h
  case h_1 hname =>
    obtain rfl := Except.ok.inj h
    exact exact hname
  case h_2 => cases h

lemma accessTokens_eq_ok {v : Json} {types : List AccessTokenType}
    (h : accessTokens v = .ok types) :
    ∃ items, v = .array items ∧ items.map Json.lowered = types.map fun t => .string t.name := by
  simp only [accessTokens, bind_eq_ok_iff, mapM_eq_ok_iff] at h
  obtain ⟨names, hnames, htypes⟩ := h
  refine ⟨names.map .string, strings_eq_ok hnames, ?_⟩
  rw [List.map_map]
  clear hnames
  induction htypes with
  | nil => rfl
  | cons htype _ ih =>
    rw [List.map_cons, List.map_cons, ih, ← accessToken_eq_ok htype]
    rfl

/-- A list of types of one type is written as that type. -/
lemma encode_typeNames {v : Json} {names : List String} (h : typeNames v = .ok names) :
    (Keyword.facet (.type names)).encode = .ok (Json.canonicalUnder Term.type.name v) := by
  cases v with
  | string s =>
    obtain rfl := Except.ok.inj h
    rfl
  | array items =>
    have hstrings : strings "type" (.array items) = .ok names := h
    rw [strings_eq_ok hstrings, Json.canonicalUnder_type]
    rcases names with _ | ⟨name, _ | ⟨second, names⟩⟩ <;> rfl
  | _ => cases h

lemma encode_required {v : Json} {r : Required} (h : required v = .ok r) :
    (Keyword.facet (.required r)).encode = .ok v := by
  cases v with
  | bool b =>
    obtain rfl := Except.ok.inj h
    rfl
  | array items =>
    obtain ⟨names, hnames, rfl⟩ := map_eq_ok_iff.1 h
    rw [strings_eq_ok hnames]
    rfl
  | _ => cases h

lemma encode_enumNames {v : Json} {names : List String} (h : enumNames v = .ok names) :
    (Keyword.facet (.enumNames names)).encode = .ok v := by
  simp only [enumNames, bind_eq_ok_iff] at h
  obtain ⟨names', hstrings, h⟩ := h
  split at h
  case h_1 => cases h
  case h_2 =>
    obtain rfl := Except.ok.inj h
    rw [strings_eq_ok hstrings]
    rfl

lemma encode_of_plain {t : Term} {v : Json} {k : Keyword} (h : plain t v = .ok k) :
    k.encode = .ok (Json.canonicalUnder t.name v) := by
  have hname := Term.ofName?_name t
  cases t with
  | keyed kind => cases h
  | ordered kind => cases h
  | additionalProperties => cases h
  | ref =>
    obtain ⟨target, htarget, rfl⟩ := map_eq_ok_iff.1 h
    obtain rfl := string_eq_ok htarget
    rfl
  | type =>
    obtain ⟨names, hnames, rfl⟩ := map_eq_ok_iff.1 h
    exact encode_typeNames hnames
  | required =>
    obtain ⟨r, hr, rfl⟩ := map_eq_ok_iff.1 h
    rw [Json.canonicalUnder_of_verbatim v (by simp [hname, Json.verbatimTerms])]
    exact encode_required hr
  | enum =>
    obtain ⟨values, hvalues, rfl⟩ := map_eq_ok_iff.1 h
    obtain rfl := values_eq_ok hvalues
    rw [Json.canonicalUnder_of_verbatim _ (by simp [hname, Json.verbatimTerms])]
    rfl
  | enumNames =>
    obtain ⟨names, hnames, rfl⟩ := map_eq_ok_iff.1 h
    rw [Json.canonicalUnder_of_verbatim v (by simp [hname, Json.verbatimTerms])]
    exact encode_enumNames hnames
  | count kind =>
    obtain ⟨n, hn, rfl⟩ := map_eq_ok_iff.1 h
    rw [(count_eq_ok hn).1]
    rfl
  | limit kind =>
    obtain ⟨n, hn, rfl⟩ := map_eq_ok_iff.1 h
    rw [number_eq_ok hn]
    rfl
  | label kind =>
    obtain ⟨text, htext, rfl⟩ := map_eq_ok_iff.1 h
    rw [string_eq_ok htext]
    rfl
  | default =>
    obtain rfl := Except.ok.inj h
    rw [Json.canonicalUnder_of_verbatim v (by simp [hname, Json.verbatimTerms])]
    rfl
  | code kind =>
    obtain ⟨n, hn, rfl⟩ := map_eq_ok_iff.1 h
    rw [(code_eq_ok hn).1]
    rfl
  | flag kind =>
    obtain ⟨b, hb, rfl⟩ := map_eq_ok_iff.1 h
    rw [bool_eq_ok hb]
    rfl
  | accessTokens =>
    obtain ⟨types, htypes, rfl⟩ := map_eq_ok_iff.1 h
    obtain ⟨items, rfl, hitems⟩ := accessTokens_eq_ok htypes
    rw [Json.canonicalUnder_accessTokens, hitems]
    rfl

end Decode

/-! ## Schemas -/

namespace Json

lemma canonicalUnder_members {kind : KeyedKind} (layout : kind.layout = .members)
    (members : List (String × Json)) :
    canonicalUnder kind.name (.object members) = .object (canonicalMembers members) := by
  cases kind <;> cases layout <;> rfl

/-- Under a keyword whose entries go by position, an object gives way to a list. -/
lemma canonicalUnder_indexed {kind : KeyedKind} (layout : kind.layout = .indexed)
    (members : List (String × Json)) : canonicalUnder kind.name (.object members) =
      .array (OrderedMap.values (canonicalMembers members)) := by
  cases kind <;> cases layout <;> rfl

lemma canonicalUnder_keyed (kind : KeyedKind) (items : List Json) :
    canonicalUnder kind.name (.array items) = .array (canonicalItems items) := by
  cases kind <;> rfl

/-- A list of schemas is written in the shape that its normal form has. -/
lemma canonicalUnder_ordered (kind : OrderedKind) (items : List Json) :
    canonicalUnder kind.name (.array items) = kind.encode (canonicalItems items) := by
  have hname := kind.ofName?_name
  cases kind with
  | items =>
    simp only [canonicalUnder, hname]
    rcases canonicalItems items with _ | ⟨v, _ | ⟨w, vs⟩⟩ <;> rfl
  | _ =>
    simp only [canonicalUnder, hname]
    rcases canonicalItems items with _ | ⟨v, _ | ⟨w, vs⟩⟩ <;> rfl

/-- Where one schema stands alone, its normal form does. -/
lemma canonicalUnder_lone {name : String} {v : Json} {n : Node} (h : Node.decode v = .ok n)
    (hname : Term.ofName? name = some (.ordered .items) ∨
      Term.ofName? name = some .additionalProperties) : canonicalUnder name v = v.canonical := by
  cases v with
  | bool b => rfl
  | object members =>
    rcases hname with hname | hname <;> simp only [canonicalUnder, hname, canonical]
  | _ => cases h

end Json

namespace Keyword

/-- A keyword that is read is written in normal form if the schemas it holds are. -/
theorem Reads.encode_eq {name : String} {v : Json} {k : Keyword} (h : Reads name v k)
    (hv : v.hasDistinctNames = true)
    (ih : ∀ c ∈ k.nested, ∀ u : Json, u.hasDistinctNames = true → Node.decode u = .ok c →
      c.encode = .ok u.canonical) : k.encode = .ok (Json.canonicalUnder name v) := by
  have listed {items : List Json} {ns : List Node} (hitems : ∀ u ∈ items, u.hasDistinctNames = true)
      (h : List.Forall₂ (fun u n => Node.decode u = .ok n) items ns)
      (hns : ∀ n ∈ ns, n ∈ k.nested) :
      List.Forall₂ (fun n w => n.encode = .ok w) ns (Json.canonicalItems items) := by
    rw [Json.canonicalItems_eq, List.forall₂_map_right_iff]
    refine forall₂_imp_of_mem h.flip fun n hn u hu hdecode => ?_
    exact ih n (hns n hn) u (hitems u hu) hdecode
  cases h with
  | unrecognized unknown =>
    rw [Json.canonicalUnder_of_verbatim v (by simp [unknown, Json.verbatimTerms])]
    rfl
  | @members kind members ns layout schemas =>
    have hwritten : List.Forall₂ (fun e m => e.1 = m.1 ∧ e.2.encode = .ok m.2) ns
        (Json.canonicalMembers members) := by
      rw [Json.canonicalMembers_eq, List.forall₂_map_right_iff]
      refine forall₂_imp_of_mem (Node.decodeMembers_eq_ok_iff.1 schemas).flip
        fun e he m hm h => ⟨h.1.symm, ?_⟩
      exact ih e.2 (List.mem_map_of_mem he) m.2 ((Json.hasDistinctNames_object.1 hv).2 m hm) h.2
    cases hlayout : kind.layout with
    | members =>
      rw [Json.canonicalUnder_members hlayout]
      exact (encode_members_eq_ok_iff hlayout).2 ⟨_, hwritten, rfl⟩
    | indexed =>
      rw [Json.canonicalUnder_indexed hlayout]
      refine (encode_listed_eq_ok_iff (by simp [hlayout])).2 ⟨_, ?_, rfl⟩
      rw [OrderedMap.values, OrderedMap.values, List.forall₂_map_left_iff,
        List.forall₂_map_right_iff]
      exact hwritten.imp fun _ _ h => h.2
    | named => exact absurd hlayout layout
  | @indexed kind items ns layout schemas =>
    rw [Json.canonicalUnder_keyed]
    refine (encode_listed_eq_ok_iff (by simp [layout])).2 ⟨_, ?_, rfl⟩
    rw [Decode.values_indexed]
    refine listed (Json.hasDistinctNames_array.1 hv) (Node.decodeItems_eq_ok_iff.1 schemas) ?_
    intro n hn
    rwa [nested, Decode.values_indexed]
  | @named kind items ns layout schemas =>
    rw [Json.canonicalUnder_keyed]
    refine (encode_listed_eq_ok_iff (by simp [layout])).2 ⟨_, ?_, rfl⟩
    refine listed (Json.hasDistinctNames_array.1 hv) ?_ fun n hn => hn
    rw [OrderedMap.values, List.forall₂_map_right_iff]
    exact (Node.decodeNamed_eq_ok_iff.1 schemas).1.imp fun _ _ h => h.2
  | @ordered kind items ns schemas =>
    rw [Json.canonicalUnder_ordered]
    refine encode_ordered_eq_ok_iff.2 ⟨_, ?_, rfl⟩
    exact listed (Json.hasDistinctNames_array.1 hv) (Node.decodeItems_eq_ok_iff.1 schemas)
      fun n hn => hn
  | noItems => rfl
  | @loneItem _ n schema =>
    rw [Json.canonicalUnder_lone schema (.inl OrderedKind.items.ofName?_name)]
    refine encode_ordered_eq_ok_iff.2 ⟨[v.canonical], .cons ?_ .nil, rfl⟩
    exact ih n (List.mem_singleton_self n) v hv schema
  | @additionalProperties _ n schema =>
    rw [Json.canonicalUnder_lone schema (.inr (Term.ofName?_name .additionalProperties))]
    exact ih n (List.mem_singleton_self n) v hv schema
  | plain h => exact Decode.encode_of_plain h

end Keyword

namespace Node

/-- A schema that is decoded from a value is encoded as the value in normal form. -/
theorem encode_of_decode {v : Json} {n : Node} (hv : v.hasDistinctNames = true)
    (h : decode v = .ok n) : n.encode = .ok v.canonical := by
  induction n using induction_nested generalizing v with
  | step n ih =>
    obtain ⟨b, rfl, rfl⟩ | ⟨members, ks, rfl, rfl, hks⟩ := decode_cases h
    · exact encode_eq_ok_iff.2 (.inl ⟨b, rfl, rfl⟩)
    obtain ⟨hnodup, hmembers⟩ := Json.hasDistinctNames_object.1 hv
    refine encode_eq_ok_iff.2 (.inr ⟨rfl, ks, _, Keyword.foldWith_of_nodup ?_, ?_, rfl⟩)
    · rw [ofKeywords, Keyword.names_of_reads hks]
      exact hnodup
    · rw [Json.canonicalKeywords_eq, List.forall₂_map_right_iff]
      refine forall₂_imp_of_mem hks.flip fun k hk m hm hread => ⟨hread.name_eq, ?_⟩
      exact hread.encode_eq (hmembers m hm) fun c hc u hu hdecode => ih k hk c hc hu hdecode

/-- **Encoding undoes decoding up to the normal form.**  The schema of a value is encoded, as the
value in normal form with its members in their order, and the normal form is the value of a
schema that is encoded as the normal form again. -/
theorem encode_decode_canonical {v : Json} {n : Node} (hv : v.hasDistinctNames = true)
    (h : decode v = .ok n) : n.encode = .ok v.canonical ∧
      ∃ n', decode v.canonical = .ok n' ∧ n'.encode = .ok v.canonical := by
  have hencode := encode_of_decode hv h
  obtain ⟨m, -, hback⟩ := readsBack_of_encode (proper_of_decode hv h) hencode
  exact ⟨hencode, m.positional, hback.decode, hback.encode⟩

end Node

/-! ## A schema in many shapes -/

/-- A schema in which every shape that is rewritten stands once, and once more where nothing is
rewritten. -/
def Json.looseSchema : Json :=
  .object [("type", .array [.string "object"]),
    ("items", .array [.object [("items", .array [])]]),
    ("errors", .object [("denied", .object [("type", .array [.string "a", .string "b"])]),
      ("gone", .bool true)]),
    ("access_token_type", .array [.string "User", .string "OPEN"]),
    ("note", .object [("type", .array [.string "object"])]),
    ("default", .object [("items", .array [])]),
    ("enum", .array [.array [.string "User"]])]

/-- Its normal form. -/
def Json.strictSchema : Json :=
  .object [("type", .string "object"),
    ("items", .object [("items", .null)]),
    ("errors", .array [.object [("type", .array [.string "a", .string "b"])], .bool true]),
    ("access_token_type", .array [.string "user", .string "open"]),
    ("note", .object [("type", .array [.string "object"])]),
    ("default", .object [("items", .array [])]),
    ("enum", .array [.array [.string "User"]])]

/-- The schema is decoded, and encoded in its normal form, which is kept from then on. -/
theorem Node.encode_decode_looseSchema :
    Json.looseSchema.hasDistinctNames = true ∧
      ∃ n, decode Json.looseSchema = .ok n ∧ n.encode = .ok Json.strictSchema ∧
        ∃ n', decode Json.strictSchema = .ok n' ∧ n'.encode = .ok Json.strictSchema := by
  have hdistinct : Json.looseSchema.hasDistinctNames = true := by decide +kernel
  have hlower : "User".toLower = "user" ∧ "OPEN".toLower = "open" := by decide +kernel
  have hcanonical : Json.looseSchema.canonical = Json.strictSchema := by
    rw [Json.strictSchema, ← hlower.1, ← hlower.2]
    rfl
  obtain ⟨n, hn⟩ : ∃ n, decode Json.looseSchema = .ok n :=
    exists_eq_ok_of_isOk (by decide +kernel)
  have h := encode_decode_canonical hdistinct hn
  rw [hcanonical] at h
  exact ⟨hdistinct, n, hn, h⟩

end SchemaCatalog
