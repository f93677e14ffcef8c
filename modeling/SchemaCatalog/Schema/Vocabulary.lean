import SchemaCatalog.Schema.Basic

/-!
# The vocabulary

A `Term` is a keyword without its payload, and the vocabulary is the finite list of all terms.
`Term.ofName?` looks a JSON name up; it is the inverse of `Term.name`, so a name belongs to at
most one term and every name outside the list is unrecognized.

A term also fixes how the schemas of its keyword are written. The keyed keywords have three
layouts: an object of schemas, a list or an object of schemas, and a list of schemas that carry
their own names.
-/

namespace SchemaCatalog

/-- A keyword of the vocabulary without its payload. -/
inductive Term where
  | keyed (kind : KeyedKind)
  | ordered (kind : OrderedKind)
  | additionalProperties
  | ref
  | type
  | required
  | enum
  | enumNames
  | count (kind : CountKind)
  | limit (kind : LimitKind)
  | label (kind : LabelKind)
  | default
  | code (kind : CodeKind)
  | flag (kind : FlagKind)
  | accessTokens
  deriving DecidableEq, Repr

namespace Term

/-- The JSON name of a term. -/
def name : Term → String
  | .keyed kind => kind.name
  | .ordered kind => kind.name
  | .additionalProperties => "additionalProperties"
  | .ref => "$ref"
  | .type => "type"
  | .required => "required"
  | .enum => "enum"
  | .enumNames => "enumNames"
  | .count kind => kind.name
  | .limit kind => kind.name
  | .label kind => kind.name
  | .default => "default"
  | .code kind => kind.name
  | .flag kind => kind.name
  | .accessTokens => "access_token_type"

/-- The whole vocabulary. -/
def all : List Term :=
  [.type, .keyed .properties, .keyed .patternProperties, .keyed .definitions, .ordered .items,
    .required, .enum, .ref, .label .anchor, .ordered .allOf, .ordered .oneOf, .ordered .anyOf,
    .additionalProperties, .count .minProperties, .count .maxProperties, .count .minLength,
    .count .maxLength, .count .minItems, .count .maxItems, .label .description, .label .format,
    .limit .minimum, .limit .maximum, .default, .keyed .methods, .keyed .parameters,
    .keyed .responses, .keyed .errors, .keyed .subcodes, .code .code, .code .subcode,
    .flag .isGlobal, .accessTokens, .enumNames, .flag .withSetters, .flag .withoutRefs]

/-- The term with a JSON name. -/
def ofName? (name : String) : Option Term := all.find? fun t => t.name == name

/-- A term found under a name has that name. -/
theorem name_of_ofName? {s : String} {t : Term} (h : ofName? s = some t) : t.name = s := by
  simpa using List.find?_some h

/-- Every term is found under its own name. -/
theorem ofName?_name (t : Term) : ofName? t.name = some t := by
  rcases t with ⟨⟨⟩⟩ | ⟨⟨⟩⟩ | _ | _ | _ | _ | _ | _ | ⟨⟨⟩⟩ | ⟨⟨⟩⟩ | ⟨⟨⟩⟩ | _ | ⟨⟨⟩⟩ | ⟨⟨⟩⟩ | _ <;>
    decide

end Term

/-- How the schemas of a keyed keyword are written. -/
inductive KeyedKind.Layout where
  /-- An object with a schema under each name. -/
  | members
  /-- A list whose schemas go by position; an object is read as well. -/
  | indexed
  /-- A list whose schemas carry their names. -/
  | named
  deriving DecidableEq, Repr

/-- The layout of a keyed keyword. -/
def KeyedKind.layout : KeyedKind → KeyedKind.Layout
  | .properties | .patternProperties | .definitions | .responses => .members
  | .errors | .subcodes => .indexed
  | .methods | .parameters => .named

/-- The JSON shape a layout asks for, in the words of error texts. -/
def KeyedKind.Layout.expected : KeyedKind.Layout → String
  | .members => "object"
  | .indexed => "array or object"
  | .named => "array"

/-- The JSON shape a list of schemas is asked for. -/
def OrderedKind.expected : OrderedKind → String
  | .items => "array or object"
  | _ => "array"

/-- The term of a keyword; a member outside the vocabulary has none. -/
def Keyword.term? : Keyword → Option Term
  | .keyed kind _ => some (.keyed kind)
  | .ordered kind _ => some (.ordered kind)
  | .additionalProperties _ => some .additionalProperties
  | .ref _ => some .ref
  | .facet a =>
    match a with
    | .type _ => some .type
    | .required _ => some .required
    | .enum _ => some .enum
    | .enumNames _ => some .enumNames
    | .count kind _ => some (.count kind)
    | .limit kind _ => some (.limit kind)
    | .label kind _ => some (.label kind)
    | .default _ => some .default
    | .code kind _ => some (.code kind)
    | .flag kind _ => some (.flag kind)
    | .accessTokens _ => some .accessTokens
    | .unrecognized .. => none

/-- A keyword of the vocabulary has the name of its term. -/
theorem Keyword.name_eq_of_term? {k : Keyword} {t : Term} (h : k.term? = some t) :
    k.name = t.name := by
  rcases k with _ | _ | _ | _ | a
  case facet => cases a <;> simp_all [Keyword.term?] <;> subst h <;> rfl
  all_goals simp_all [Keyword.term?]; subst h; rfl

end SchemaCatalog
