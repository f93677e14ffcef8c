import SchemaCatalog.Proofs.Schema.Rearranged

/-!
# The grammar of schemas

`Json.IsSchema` is the grammar of schemas as one would write it down for the author of a document:
a schema is a truth value or an object, and each name of the vocabulary asks for one shape of the
value under it, which may ask for schemas again.  `ValueShape.table` is the list of names with
their shapes, and `Json.HasShape` says what the shapes are.  Nothing here refers to decoding.

The decoder accepts exactly the values of this grammar (`Node.exists_decode_iff_isSchema`).  Both
directions are one induction: a keyword decides about schemas in the value of its member, which are
the value itself or its parts.
-/

namespace SchemaCatalog

/-- What the value of a member of a schema may look like. -/
inductive ValueShape where
  /-- Any value. -/
  | any
  /-- A string. -/
  | text
  /-- A whole number from zero that fits 64 bits. -/
  | count
  /-- A number. -/
  | number
  /-- A whole number that fits 64 bits with a sign. -/
  | code
  /-- A truth value. -/
  | truth
  /-- A string, or a list of strings. -/
  | typeNames
  /-- A truth value, or a list of strings. -/
  | required
  /-- A list. -/
  | list
  /-- A list of strings of which no two are equal. -/
  | distinctTexts
  /-- A list of names of token types in any case of letters. -/
  | tokenTypes
  /-- A schema. -/
  | schema
  /-- A list of schemas. -/
  | schemas
  /-- Nothing, a schema, or a list of schemas. -/
  | itemSchemas
  /-- An object of schemas. -/
  | schemasByName
  /-- A list or an object of schemas. -/
  | schemasByPlace
  /-- A list of schemas that carry names, of which no two are equal. -/
  | namedSchemas
  deriving DecidableEq, Repr

namespace ValueShape

/-- The names of the vocabulary with the shapes they ask for. -/
def table : List (String × ValueShape) :=
  [("$ref", .text), ("$anchor", .text), ("description", .text), ("format", .text),
    ("minProperties", .count), ("maxProperties", .count), ("minLength", .count),
    ("maxLength", .count), ("minItems", .count), ("maxItems", .count),
    ("minimum", .number), ("maximum", .number), ("code", .code), ("subcode", .code),
    ("global", .truth), ("withSetters", .truth), ("withoutRefs", .truth),
    ("type", .typeNames), ("required", .required), ("enum", .list),
    ("properties", .schemasByName), ("patternProperties", .schemasByName),
    ("definitions", .schemasByName), ("responses", .schemasByName),
    ("allOf", .schemas), ("oneOf", .schemas), ("anyOf", .schemas),
    ("errors", .schemasByPlace), ("subcodes", .schemasByPlace), ("items", .itemSchemas),
    ("additionalProperties", .schema), ("methods", .namedSchemas),
    ("parameters", .namedSchemas), ("enumNames", .distinctTexts),
    ("access_token_type", .tokenTypes), ("default", .any)]

/-- The shape a name asks for; outside the vocabulary anything will do. -/
def ofName (name : String) : ValueShape := (OrderedMap.get? table name).getD .any

end ValueShape

namespace Json

mutual

/-- Whether a value is a schema. -/
inductive IsSchema : Json → Prop where
  | truth (b : Bool) : IsSchema (.bool b)
  | object {members : List (String × Json)}
      (shapes : ∀ m ∈ members, HasShape (ValueShape.ofName m.1) m.2) : IsSchema (.object members)

/-- Whether a value has a shape. -/
inductive HasShape : ValueShape → Json → Prop where
  | any (v : Json) : HasShape .any v
  | text (s : String) : HasShape .text (.string s)
  | count {n : Int} (nonneg : 0 ≤ n) (small : n < 2 ^ 64) : HasShape .count (.number (.whole n))
  | number (n : Number) : HasShape .number (.number n)
  | code {n : Int} (large : -2 ^ 63 ≤ n) (small : n < 2 ^ 63) : HasShape .code (.number (.whole n))
  | truth (b : Bool) : HasShape .truth (.bool b)
  | typeName (name : String) : HasShape .typeNames (.string name)
  | typeNames (names : List String) : HasShape .typeNames (.array (names.map .string))
  | requiredFlag (b : Bool) : HasShape .required (.bool b)
  | requiredNames (names : List String) : HasShape .required (.array (names.map .string))
  | list (items : List Json) : HasShape .list (.array items)
  | distinctTexts {texts : List String} (distinct : texts.Nodup) :
      HasShape .distinctTexts (.array (texts.map .string))
  | tokenTypes {names : List String}
      (known : ∀ name ∈ names, name.toLower ∈ ["user", "open", "service", "group"]) :
      HasShape .tokenTypes (.array (names.map .string))
  | schema {v : Json} (schema : IsSchema v) : HasShape .schema v
  | schemas {items : List Json} (schemas : ∀ v ∈ items, IsSchema v) :
      HasShape .schemas (.array items)
  | noItems : HasShape .itemSchemas .null
  | itemSchema {v : Json} (schema : IsSchema v) : HasShape .itemSchemas v
  | itemSchemas {items : List Json} (schemas : ∀ v ∈ items, IsSchema v) :
      HasShape .itemSchemas (.array items)
  | schemasByName {members : List (String × Json)} (schemas : ∀ m ∈ members, IsSchema m.2) :
      HasShape .schemasByName (.object members)
  | listedSchemas {items : List Json} (schemas : ∀ v ∈ items, IsSchema v) :
      HasShape .schemasByPlace (.array items)
  | keyedSchemas {members : List (String × Json)} (schemas : ∀ m ∈ members, IsSchema m.2) :
      HasShape .schemasByPlace (.object members)
  | namedSchemas {items : List Json} {names : List String}
      (named : List.Forall₂ (fun v name => v.member? "name" = some (.string name)) items names)
      (distinct : names.Nodup) (schemas : ∀ v ∈ items, IsSchema v) :
      HasShape .namedSchemas (.array items)

end

end Json

/-! ## The shapes of the terms -/

namespace ValueShape

/-- Outside the vocabulary anything will do. -/
lemma ofName_eq_any {name : String} (h : Term.ofName? name = none) : ofName name = .any := by
  have hknown : ∀ s ∈ OrderedMap.keys table, Term.ofName? s ≠ none := by decide
  have hget : OrderedMap.get? table name = none :=
    OrderedMap.get?_eq_none_iff.2 fun hmem => hknown name hmem h
  rw [ofName, hget, Option.getD_none]

lemma ofName_keyed (kind : KeyedKind) : ofName kind.name =
    match kind.layout with
    | .members => .schemasByName
    | .indexed => .schemasByPlace
    | .named => .namedSchemas := by
  cases kind <;> decide

lemma ofName_ordered (kind : OrderedKind) :
    ofName kind.name = if kind = .items then .itemSchemas else .schemas := by
  cases kind <;> decide

lemma ofName_count (kind : CountKind) : ofName kind.name = .count := by cases kind <;> decide

lemma ofName_limit (kind : LimitKind) : ofName kind.name = .number := by cases kind <;> decide

lemma ofName_label (kind : LabelKind) : ofName kind.name = .text := by cases kind <;> decide

lemma ofName_code (kind : CodeKind) : ofName kind.name = .code := by cases kind <;> decide

lemma ofName_flag (kind : FlagKind) : ofName kind.name = .truth := by cases kind <;> decide

end ValueShape

/-! ## Facets -/

namespace Decode

open Json

variable {keyword : String} {v : Json}

lemma exists_string_iff : (∃ s, string keyword v = .ok s) ↔ HasShape .text v := by
  constructor
  · rintro ⟨s, hs⟩
    obtain rfl := string_eq_ok hs
    exact .text s
  · rintro ⟨⟩
    exact ⟨_, rfl⟩

lemma exists_bool_iff : (∃ b, bool keyword v = .ok b) ↔ HasShape .truth v := by
  constructor
  · rintro ⟨b, hb⟩
    obtain rfl := bool_eq_ok hb
    exact .truth b
  · rintro ⟨⟩
    exact ⟨_, rfl⟩

lemma exists_number_iff : (∃ n, number keyword v = .ok n) ↔ HasShape .number v := by
  constructor
  · rintro ⟨n, hn⟩
    obtain rfl := number_eq_ok hn
    exact .number n
  · rintro ⟨⟩
    exact ⟨_, rfl⟩

lemma exists_count_iff : (∃ n, count keyword v = .ok n) ↔ HasShape .count v := by
  constructor
  · rintro ⟨n, hn⟩
    obtain ⟨rfl, hfits⟩ := count_eq_ok hn
    simp only [Number.fitsUnsigned, Bool.and_eq_true, decide_eq_true_eq] at hfits
    exact .count hfits.1 hfits.2
  · intro h
    cases h with
    | @count n nonneg small =>
      obtain ⟨m, rfl⟩ := Int.eq_ofNat_of_zero_le nonneg
      exact ⟨m, count_whole keyword (by simpa [Number.fitsUnsigned] using small)⟩

lemma exists_code_iff : (∃ n, code keyword v = .ok n) ↔ HasShape .code v := by
  constructor
  · rintro ⟨n, hn⟩
    obtain ⟨rfl, hfits⟩ := code_eq_ok hn
    simp only [Number.fitsSigned, Bool.and_eq_true, decide_eq_true_eq] at hfits
    exact .code hfits.1 hfits.2
  · intro h
    cases h with
    | code large small =>
      exact ⟨_, code_whole keyword (by simpa [Number.fitsSigned] using ⟨large, small⟩)⟩

lemma exists_values_iff : (∃ items, values keyword v = .ok items) ↔ HasShape .list v := by
  constructor
  · rintro ⟨items, hitems⟩
    obtain rfl := values_eq_ok hitems
    exact .list items
  · rintro ⟨⟩
    exact ⟨_, rfl⟩

lemma exists_typeNames_iff : (∃ names, typeNames v = .ok names) ↔ HasShape .typeNames v := by
  constructor
  · rintro ⟨names, hnames⟩
    cases v with
    | string s => exact .typeName s
    | array items =>
      have hstrings : strings "type" (.array items) = .ok names := hnames
      rw [strings_eq_ok hstrings]
      exact .typeNames names
    | _ => cases hnames
  · intro h
    cases h with
    | typeName name => exact ⟨_, rfl⟩
    | typeNames names => exact ⟨names, strings_array _ names⟩

lemma exists_required_iff : (∃ r, required v = .ok r) ↔ HasShape .required v := by
  constructor
  · rintro ⟨r, hr⟩
    cases v with
    | bool b => exact .requiredFlag b
    | array items =>
      obtain ⟨names, hnames, -⟩ := map_eq_ok_iff.1 hr
      rw [strings_eq_ok hnames]
      exact .requiredNames names
    | _ => cases hr
  · intro h
    cases h with
    | requiredFlag b => exact ⟨_, rfl⟩
    | requiredNames names => exact ⟨_, map_eq_ok_iff.2 ⟨names, strings_array _ names, rfl⟩⟩

lemma exists_enumNames_iff : (∃ names, enumNames v = .ok names) ↔ HasShape .distinctTexts v := by
  constructor
  · rintro ⟨_, h⟩
    obtain ⟨names, hnames, h⟩ := bind_eq_ok_iff.1 h
    rw [strings_eq_ok hnames]
    split at h
    case h_1 => cases h
    case h_2 hdistinct => exact .distinctTexts (nodup_of_firstRepeated hdistinct).1
  · intro h
    cases h with
    | distinctTexts distinct => exact ⟨_, enumNames_array distinct⟩

lemma exists_accessToken_iff {name : String} :
    (∃ t, accessToken name = .ok t) ↔ name.toLower ∈ ["user", "open", "service", "group"] := by
  constructor
  · rintro ⟨t, ht⟩
    rw [accessToken_eq_ok ht]
    cases t <;> decide
  · intro h
    simp only [accessToken, AccessTokenType.ofName?]
    simp only [List.mem_cons, List.not_mem_nil, or_false] at h
    rcases h with h | h | h | h <;> rw [h] <;> exact ⟨_, rfl⟩

lemma exists_accessTokens_iff :
    (∃ types, accessTokens v = .ok types) ↔ HasShape .tokenTypes v := by
  constructor
  · rintro ⟨types, h⟩
    obtain ⟨names, hnames, h⟩ := bind_eq_ok_iff.1 h
    rw [strings_eq_ok hnames]
    refine .tokenTypes fun name hname => exists_accessToken_iff.1 ?_
    exact exists_forall₂_iff.1 ⟨types, mapM_eq_ok_iff.1 h⟩ name hname
  · intro h
    cases h with
    | @tokenTypes names known =>
      obtain ⟨types, htypes⟩ :=
        exists_forall₂_iff.2 fun name hname => exists_accessToken_iff.2 (known name hname)
      exact ⟨types, bind_eq_ok_iff.2 ⟨names, strings_array _ names, mapM_eq_ok_iff.2 htypes⟩⟩

/-- The terms that hold no schemas are read from the values of their shapes. -/
lemma exists_plain_iff {t : Term} (hkeyed : ∀ kind, t ≠ .keyed kind)
    (hordered : ∀ kind, t ≠ .ordered kind) (hadditional : t ≠ .additionalProperties) :
    (∃ k, plain t v = .ok k) ↔ HasShape (ValueShape.ofName t.name) v := by
  cases t with
  | keyed kind => exact absurd rfl (hkeyed kind)
  | ordered kind => exact absurd rfl (hordered kind)
  | additionalProperties => exact absurd rfl hadditional
  | ref => exact exists_map_eq_ok_iff.trans exists_string_iff
  | type => exact exists_map_eq_ok_iff.trans exists_typeNames_iff
  | required => exact exists_map_eq_ok_iff.trans exists_required_iff
  | enum => exact exists_map_eq_ok_iff.trans exists_values_iff
  | enumNames => exact exists_map_eq_ok_iff.trans exists_enumNames_iff
  | accessTokens => exact exists_map_eq_ok_iff.trans exists_accessTokens_iff
  | default => exact ⟨fun _ => .any v, fun _ => ⟨_, rfl⟩⟩
  | count kind =>
    rw [Term.name, ValueShape.ofName_count]
    exact exists_map_eq_ok_iff.trans exists_count_iff
  | limit kind =>
    rw [Term.name, ValueShape.ofName_limit]
    exact exists_map_eq_ok_iff.trans exists_number_iff
  | label kind =>
    rw [Term.name, ValueShape.ofName_label]
    exact exists_map_eq_ok_iff.trans exists_string_iff
  | code kind =>
    rw [Term.name, ValueShape.ofName_code]
    exact exists_map_eq_ok_iff.trans exists_code_iff
  | flag kind =>
    rw [Term.name, ValueShape.ofName_flag]
    exact exists_map_eq_ok_iff.trans exists_bool_iff

end Decode

/-! ## Schemas -/

/-- Whether decoding accepts a value if and only if it is a schema. -/
def Json.Judged (v : Json) : Prop := (∃ n, Node.decode v = .ok n) ↔ v.IsSchema

namespace Node

lemma exists_decodeItems_iff {items : List Json} (parts : ∀ v ∈ items, v.Judged) :
    (∃ ns, decodeItems items = .ok ns) ↔ ∀ v ∈ items, v.IsSchema := by
  simp only [decodeItems_eq_ok_iff, exists_forall₂_iff]
  exact forall₂_congr fun v hv => parts v hv

lemma exists_decodeMembers_iff {members : List (String × Json)}
    (parts : ∀ m ∈ members, m.2.Judged) :
    (∃ ns, decodeMembers members = .ok ns) ↔ ∀ m ∈ members, m.2.IsSchema := by
  simp only [decodeMembers_eq_ok_iff, exists_forall₂_iff]
  refine forall₂_congr fun m hm => Iff.trans ?_ (parts m hm)
  exact ⟨fun ⟨e, _, he⟩ => ⟨e.2, he⟩, fun ⟨n, hn⟩ => ⟨(m.1, n), rfl, hn⟩⟩

/-- The name a schema in a list carries is the text of its member `name`. -/
lemma listedName_iff {v : Json} {name : String} :
    (v.member? "name" >>= Json.string?) = some name ↔ v.member? "name" = some (.string name) := by
  rw [Option.bind_eq_bind, Option.bind_eq_some_iff]
  constructor
  · rintro ⟨u, hu, hname⟩
    cases u <;> cases hname
    exact hu
  · exact fun h => ⟨_, h, rfl⟩

/-- Listed schemas are decoded under the names they carry. -/
lemma exists_forall₂_named {items : List Json} {names : List String}
    (named : List.Forall₂ (fun v name => v.member? "name" = some (.string name)) items names)
    (read : ∀ v ∈ items, ∃ n, decode v = .ok n) :
    ∃ ns : List (String × Node), OrderedMap.keys ns = names ∧
      List.Forall₂ (fun v e => v.member? "name" = some (.string e.1) ∧ decode v = .ok e.2)
        items ns := by
  induction named with
  | nil => exact ⟨[], rfl, .nil⟩
  | @cons v name items names hname _ ih =>
    obtain ⟨⟨n, hn⟩, read⟩ := List.forall_mem_cons.1 read
    obtain ⟨ns, rfl, hns⟩ := ih read
    exact ⟨(name, n) :: ns, rfl, .cons ⟨hname, hn⟩ hns⟩

lemma exists_decodeNamed_iff {keyword : String} {items : List Json}
    (parts : ∀ v ∈ items, v.Judged) :
    (∃ ns, decodeNamed keyword 0 [] items = .ok ns) ↔
      Json.HasShape .namedSchemas (.array items) := by
  simp only [decodeNamed_eq_ok_iff, listedName_iff]
  constructor
  · rintro ⟨ns, hns, hdistinct, -⟩
    refine @Json.HasShape.namedSchemas _ (OrderedMap.keys ns) ?_ hdistinct fun v hv => ?_
    · exact List.forall₂_map_right_iff.2 (hns.imp fun _ _ h => h.1)
    · obtain ⟨e, -, -, he⟩ := (Matched.of_forall₂ hns).exists_right hv
      exact (parts v hv).1 ⟨e.2, he⟩
  · intro h
    cases h with
    | namedSchemas named distinct schemas =>
      obtain ⟨ns, rfl, hns⟩ :=
        exists_forall₂_named named fun v hv => (parts v hv).2 (schemas v hv)
      exact ⟨ns, hns, distinct, fun _ _ => List.not_mem_nil⟩

end Node

namespace Keyword

open Json

variable {name : String} {v : Json}

/-- The value of a member that is read has the shape that its name asks for. -/
lemma Reads.hasShape {k : Keyword} (h : Reads name v k) (self : v.Judged)
    (parts : ∀ u ∈ v.parts, u.Judged) : HasShape (ValueShape.ofName name) v := by
  cases h with
  | unrecognized unknown =>
    rw [ValueShape.ofName_eq_any unknown]
    exact .any v
  | @members kind members ns layout schemas =>
    have parts : ∀ m ∈ members, m.2.Judged := fun m hm => parts m.2 (List.mem_map_of_mem hm)
    have hschemas := (Node.exists_decodeMembers_iff parts).1 ⟨ns, schemas⟩
    rw [ValueShape.ofName_keyed]
    cases hlayout : kind.layout with
    | members => exact .schemasByName hschemas
    | indexed => exact .keyedSchemas hschemas
    | named => exact absurd hlayout layout
  | indexed layout schemas =>
    rw [ValueShape.ofName_keyed, layout]
    exact .listedSchemas ((Node.exists_decodeItems_iff parts).1 ⟨_, schemas⟩)
  | named layout schemas =>
    rw [ValueShape.ofName_keyed, layout]
    exact (Node.exists_decodeNamed_iff parts).1 ⟨_, schemas⟩
  | ordered schemas =>
    have hschemas := (Node.exists_decodeItems_iff parts).1 ⟨_, schemas⟩
    rw [ValueShape.ofName_ordered]
    split
    · exact .itemSchemas hschemas
    · exact .schemas hschemas
  | noItems => exact .noItems
  | loneItem schema => exact .itemSchema (self.1 ⟨_, schema⟩)
  | additionalProperties schema => exact .schema (self.1 ⟨_, schema⟩)
  | @plain t v k h =>
    refine (Decode.exists_plain_iff ?_ ?_ ?_).1 ⟨k, h⟩
    · rintro kind rfl
      cases h
    · rintro kind rfl
      cases h
    · rintro rfl
      cases h

/-- A member whose value has the shape that its name asks for is read. -/
lemma exists_reads_of_hasShape (h : HasShape (ValueShape.ofName name) v) (self : v.Judged)
    (parts : ∀ u ∈ v.parts, u.Judged) : ∃ k, Reads name v k := by
  cases hname : Term.ofName? name with
  | none => exact ⟨_, .unrecognized hname⟩
  | some t =>
    obtain rfl := Term.name_of_ofName? hname
    cases t with
    | keyed kind =>
      have members {ms : List (String × Json)} (hv : v = .object ms)
          (layout : kind.layout ≠ .named) (schemas : ∀ m ∈ ms, m.2.IsSchema) :
          ∃ k, Reads kind.name v k := by
        subst hv
        obtain ⟨ns, hns⟩ := (Node.exists_decodeMembers_iff
          fun m hm => parts m.2 (List.mem_map_of_mem hm)).2 schemas
        exact ⟨_, .members layout hns⟩
      rw [Term.name, ValueShape.ofName_keyed] at h
      cases hlayout : kind.layout <;> rw [hlayout] at h
      case members =>
        cases h with
        | schemasByName schemas => exact members rfl (by simp [hlayout]) schemas
      case indexed =>
        cases h with
        | listedSchemas schemas =>
          obtain ⟨ns, hns⟩ := (Node.exists_decodeItems_iff parts).2 schemas
          exact ⟨_, .indexed hlayout hns⟩
        | keyedSchemas schemas => exact members rfl (by simp [hlayout]) schemas
      case named =>
        obtain ⟨items, rfl⟩ : ∃ items, v = .array items := by
          cases h
          exact ⟨_, rfl⟩
        obtain ⟨ns, hns⟩ := (Node.exists_decodeNamed_iff parts).2 h
        exact ⟨_, .named hlayout hns⟩
    | ordered kind =>
      rw [Term.name, ValueShape.ofName_ordered] at h
      split at h
      case isTrue hkind =>
        subst hkind
        cases h with
        | noItems => exact ⟨_, .noItems⟩
        | itemSchema schema =>
          obtain ⟨n, hn⟩ := self.2 schema
          exact ⟨_, .loneItem hn⟩
        | itemSchemas schemas =>
          obtain ⟨ns, hns⟩ := (Node.exists_decodeItems_iff parts).2 schemas
          exact ⟨_, @Reads.ordered .items _ _ hns⟩
      case isFalse =>
        cases h with
        | schemas schemas =>
          obtain ⟨ns, hns⟩ := (Node.exists_decodeItems_iff parts).2 schemas
          exact ⟨_, .ordered hns⟩
    | additionalProperties =>
      cases h with
      | schema schema =>
        obtain ⟨n, hn⟩ := self.2 schema
        exact ⟨_, .additionalProperties hn⟩
    | _ =>
      obtain ⟨k, hk⟩ := (Decode.exists_plain_iff (by simp) (by simp) (by simp)).2 h
      exact ⟨k, .plain hk⟩

end Keyword

/-- What decides about the members of an object decides about the object. -/
lemma Json.judged_object {members : List (String × Json)}
    (parts : ∀ m ∈ members, m.2.Judged ∧ ∀ u ∈ m.2.parts, u.Judged) :
    (Json.object members).Judged := by
  constructor
  · rintro ⟨n, hn⟩
    obtain ⟨b, hb, -⟩ | ⟨_, ks, hmembers, -, hks⟩ := Node.decode_cases hn
    · cases hb
    obtain rfl := Json.object.inj hmembers
    refine .object fun m hm => ?_
    obtain ⟨k, -, hread⟩ := (Matched.of_forall₂ hks).exists_right hm
    exact hread.hasShape (parts m hm).1 (parts m hm).2
  · intro h
    cases h with
    | object shapes =>
      have hread : ∀ m ∈ members, ∃ k, Keyword.decode m.1 m.2 = .ok k := fun m hm => by
        obtain ⟨k, hk⟩ :=
          Keyword.exists_reads_of_hasShape (shapes m hm) (parts m hm).1 (parts m hm).2
        exact ⟨k, Keyword.decode_of_reads hk⟩
      obtain ⟨ks, hks⟩ := exists_forall₂_iff.2 hread
      exact ⟨_, map_eq_ok_iff.2 ⟨ks, Keyword.decodeAll_eq_ok_iff.2 hks, rfl⟩⟩

/-- **The decoder accepts exactly the schemas of the grammar.** -/
theorem Node.exists_decode_iff_isSchema (v : Json) :
    (∃ n, decode v = .ok n) ↔ v.IsSchema := by
  suffices hall : v.Judged ∧ ∀ u ∈ v.parts, u.Judged from hall.1
  -- The schemas of a keyword are parts of the value of the member, so these are carried along.
  induction v using Json.induction_nested with
  | bool b =>
    refine ⟨⟨fun _ => .truth b, fun _ => ⟨_, rfl⟩⟩, fun u hu => absurd hu List.not_mem_nil⟩
  | array items ih =>
    refine ⟨⟨fun ⟨n, hn⟩ => ?_, fun h => ?_⟩, fun u hu => (ih u hu).1⟩
    · cases hn
    · cases h
  | object members ih =>
    refine ⟨Json.judged_object ih, fun u hu => ?_⟩
    obtain ⟨m, hm, rfl⟩ := List.mem_map.1 hu
    exact (ih m hm).1
  | _ =>
    refine ⟨⟨fun ⟨n, hn⟩ => ?_, fun h => ?_⟩, fun u hu => absurd hu List.not_mem_nil⟩
    · cases hn
    · cases h

end SchemaCatalog
