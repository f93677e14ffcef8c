import SchemaCatalog.Api.Basic
import SchemaCatalog.Json.Writer

/-!
# Projecting schemas

A resolved schema is projected to the model by reading its keywords. A merged schema repeats
keywords, and each part of the model has its rule for that: of single values the first one
counts, names of types are united, properties and branches are collected from all. Nothing about
a schema is wrong for projection, except that two of its properties, or two of its pattern
properties, have one name; `ProjectError.duplicateProperty` names each of these once.

Schemas without keywords are placeholders: as properties, as items and as branches they are left
out.
-/

namespace SchemaCatalog

/-- Why a schema has no projection. -/
inductive ProjectError where
  /-- Properties of one object share names. -/
  | duplicateProperty (names : List String)
  /-- Two errors of a catalog have one name. -/
  | duplicateError (name : String)
  /-- Two methods have one name. -/
  | duplicateMethod (name : String)
  deriving DecidableEq, Repr

/-- The text of an error. -/
def ProjectError.message : ProjectError → String
  | .duplicateProperty names => "duplicate properties " ++ ", ".intercalate names
  | .duplicateError name => "duplicate error \"" ++ name ++ "\""
  | .duplicateMethod name => "duplicate method \"" ++ name ++ "\""

namespace Api

/-- The type with a name, the case of ASCII letters aside. -/
def ValueType.ofName (name : Option String) : ValueType :=
  match name.map String.toLower with
  | some "integer" => .integer
  | some "string" => .string
  | some "number" => .number
  | some "boolean" => .boolean
  | some "array" => .array
  | some "object" => .object
  | some "multiple" => .multiple
  | _ => .undefined

/-- The format with a name. -/
def StringFormat.ofName? (name : Option String) : Option StringFormat :=
  match name with
  | some "uri" => some .uri
  | _ => none

/-- A value as text: strings as they are, anything else as JSON. -/
def valueText : Json → String
  | .string s => s
  | v => v.compact

end Api

namespace Node

open Api

/-! ## Parts that do not recur -/

/-- The first facet of a node that answers a question. -/
def firstFacet? {α : Type} (n : Node) (f : Facet → Option α) : Option α := n.facets.findSome? f

/-- The first count of a kind. -/
def count? (n : Node) (kind : CountKind) : Option Nat :=
  n.firstFacet? fun
    | .count k m => if k = kind then some m else none
    | _ => none

/-- The first limit of a kind. -/
def limit? (n : Node) (kind : LimitKind) : Option Number :=
  n.firstFacet? fun
    | .limit k m => if k = kind then some m else none
    | _ => none

/-- The first line of text of a kind. -/
def label? (n : Node) (kind : LabelKind) : Option String :=
  n.firstFacet? fun
    | .label k s => if k = kind then some s else none
    | _ => none

/-- The first code of a kind. -/
def code? (n : Node) (kind : CodeKind) : Option Int :=
  n.firstFacet? fun
    | .code k m => if k = kind then some m else none
    | _ => none

/-- The first switch of a kind, off if there is none. -/
def flag (n : Node) (kind : FlagKind) : Bool :=
  (n.firstFacet? fun
    | .flag k b => if k = kind then some b else none
    | _ => none).getD false

/-- The first payload of `required`. -/
def required? (n : Node) : Option Required :=
  n.firstFacet? fun
    | .required r => some r
    | _ => none

/-- The names of the first `required`. -/
def requiredNames (n : Node) : List String := (n.required?.map Required.names).getD []

/-- The first default, as text. -/
def defaultText? (n : Node) : Option String :=
  n.firstFacet? fun
    | .default v => some (valueText v)
    | _ => none

/-- The values of the first `enum`. -/
def declaredValues? (n : Node) : Option (List Json) :=
  n.firstFacet? fun
    | .enum values => some values
    | _ => none

/-- The names of the first `enumNames`. -/
def declaredNames? (n : Node) : Option (List String) :=
  n.firstFacet? fun
    | .enumNames names => some names
    | _ => none

/-- Whether a value is null. -/
def isNull : Json → Bool
  | .null => true
  | _ => false

/-- The allowed values as text, null left out, and their names; neither counts unless there are
no names or as many names as values. -/
def enumeration (n : Node) : List String × List String :=
  let values := ((n.declaredValues?.getD []).filter fun v => !isNull v).map valueText
  let names := n.declaredNames?.getD []
  if !names.isEmpty && names.length != values.length then ([], []) else (values, names)

/-- The names of types of a node, each once, in order. -/
def typeNames (n : Node) : List String :=
  n.facets.foldl (fun names f => match f with
    | .type more => more.foldl (fun names s => if s ∈ names then names else names ++ [s]) names
    | _ => names) []

/-- The type of a node: an object where it has keywords but names none. -/
def valueType (n : Node) : ValueType :=
  match n.typeNames with
  | [] => if n.isEmpty then .undefined else .object
  | [name] => .ofName (some name)
  | _ => .multiple

/-- Whether the first `additionalProperties` allows any. -/
def allowsMore (n : Node) : Bool :=
  (n.keywords.findSome? fun
    | .additionalProperties schema => some (schema.truth == some true || !schema.isEmpty)
    | _ => none).getD false

/-- The names that come more than once, each once, in the order of their second coming. -/
def repeatedNames (names : List String) : List String :=
  (names.foldl (fun (seen, twice) name =>
    if name ∈ seen then (seen, if name ∈ twice then twice else twice ++ [name])
    else (name :: seen, twice)) (([] : List String), ([] : List String))).2

/-- Properties, if their names are distinct. -/
def distinct (shapes : List Shape) : Except ProjectError (List Shape) :=
  match repeatedNames (shapes.filterMap Shape.name) with
  | [] => .ok shapes
  | names => .error (.duplicateProperty names)

/-- A property, required exactly if it is named, where any names are given. -/
def requireNamed (names : List String) (key : String) (s : Shape) : Shape :=
  if names.isEmpty then s else { s with isRequired := key ∈ names }

/-! ## Shapes -/

mutual

/-- The shape of a schema found under the given name. -/
def shape (name : Option String) : Node → Except ProjectError Shape
  | ⟨identity, truth, base, keywords⟩ => do
    let n : Node := ⟨identity, truth, base, keywords⟩
    let items ← itemShape keywords
    let properties ← propertyShapes .properties n.requiredNames keywords >>= distinct
    let patternProperties ← propertyShapes .patternProperties n.requiredNames keywords >>= distinct
    let allOf ← branchShapes .allOf keywords
    let oneOf ← branchShapes .oneOf keywords
    return {
      name, properties, patternProperties, items, allOf, oneOf
      type := n.valueType
      format := StringFormat.ofName? (n.label? .format)
      description := n.label? .description
      enumValues := n.enumeration.1
      enumNames := n.enumeration.2
      minProperties := n.count? .minProperties
      maxProperties := n.count? .maxProperties
      minLength := n.count? .minLength
      maxLength := n.count? .maxLength
      maxItems := n.count? .maxItems
      minimum := n.limit? .minimum
      maximum := n.limit? .maximum
      default := n.defaultText?
      additionalProperties := n.allowsMore
      isRequired := (n.required?.map Required.isRequired).getD false
      withSetters := n.flag .withSetters
      withoutRefs := n.flag .withoutRefs }

/-- The shape of the first schema under the first `items`. -/
def itemShape : List Keyword → Except ProjectError (Option Shape)
  | [] => .ok none
  | .ordered .items [] :: _ => .ok none
  | .ordered .items (n :: _) :: _ =>
    if n.isEmpty then .ok none else some <$> n.shape none
  | _ :: ks => itemShape ks

/-- The shapes of the members of all keyed keywords of one kind. -/
def propertyShapes (kind : KeyedKind) (required : List String) :
    List Keyword → Except ProjectError (List Shape)
  | [] => .ok []
  | .keyed k members :: ks =>
    if k = kind then do
      let here ← memberShapes required members
      let later ← propertyShapes kind required ks
      return here ++ later
    else propertyShapes kind required ks
  | _ :: ks => propertyShapes kind required ks

/-- The shapes of named schemas. -/
def memberShapes (required : List String) :
    List (String × Node) → Except ProjectError (List Shape)
  | [] => .ok []
  | (key, n) :: members =>
    if n.isEmpty then memberShapes required members
    else do
      let s ← n.shape (some key)
      let later ← memberShapes required members
      return requireNamed required key s :: later

/-- The shapes of the branches of all keywords of one kind. -/
def branchShapes (kind : OrderedKind) : List Keyword → Except ProjectError (List Shape)
  | [] => .ok []
  | .ordered k schemas :: ks =>
    if k = kind then do
      let here ← schemaShapes schemas
      let later ← branchShapes kind ks
      return here ++ later
    else branchShapes kind ks
  | _ :: ks => branchShapes kind ks

/-- The shapes of listed schemas. -/
def schemaShapes : List Node → Except ProjectError (List Shape)
  | [] => .ok []
  | n :: schemas =>
    if n.isEmpty then schemaShapes schemas
    else do
      let s ← n.shape none
      let later ← schemaShapes schemas
      return s :: later

end

/-! ## Errors and methods -/

/-- The entries of all keyed keywords of one kind, in order. -/
def entries (n : Node) (kind : KeyedKind) : List (String × Node) :=
  n.keywords.flatMap fun
    | .keyed k members => if k = kind then members else []
    | _ => []

/-- The name a schema gives itself. -/
def ownName? (n : Node) : Option String :=
  n.firstFacet? fun
    | .unrecognized "name" (.string s) => some s
    | _ => none

/-- The error of a schema found under a key; its own name goes before the key. -/
def error (key : String) (n : Node) : Api.Error where
  name := n.ownName?.getD key
  code := n.code? .code
  description := n.label? .description
  subcodes := (n.entries .subcodes).filterMap fun e => e.2.code? .subcode

/-- Add an error to those found before, if its name is new. -/
def addError (errors : OrderedMap String Api.Error) (e : Api.Error) :
    Except ProjectError (OrderedMap String Api.Error) :=
  if OrderedMap.contains errors e.name then .error (.duplicateError e.name)
  else .ok (OrderedMap.insert errors e.name e)

/-- The errors of a catalog by name. -/
def errorCatalog (n : Node) : Except ProjectError (OrderedMap String Api.Error) :=
  ((n.entries .errors).map fun (key, schema) => schema.error key).foldlM addError []

/-- The shapes of named schemas, placeholders included. -/
def namedShapes (members : List (String × Node)) : Except ProjectError (List Shape) :=
  members.mapM fun (key, n) => n.shape (some key)

/-- The parameters and responses of the keywords of a method, in the order of the keywords. -/
def signature : List Keyword → Except ProjectError (List Shape × List Shape)
  | [] => .ok ([], [])
  | .keyed .parameters members :: ks => do
    let here ← namedShapes members
    let (parameters, responses) ← signature ks
    return (here ++ parameters, responses)
  | .keyed .responses members :: ks => do
    let here ← namedShapes members
    let (parameters, responses) ← signature ks
    return (parameters, here ++ responses)
  | _ :: ks => signature ks

/-- The part of a full name before the first dot, if there is one, and the part behind it. -/
def splitName (fullName : String) : String × String :=
  let cs := fullName.toList
  if '.' ∈ cs then
    (String.ofList (cs.takeWhile (· != '.')), String.ofList ((cs.dropWhile (· != '.')).drop 1))
  else ("", fullName)

/-- The method of a schema with the given full name. -/
def method (fullName : String) (n : Node) : Except ProjectError Method := do
  let (parameters, responses) ← signature n.keywords
  return {
    fullName, parameters, responses
    category := (splitName fullName).1
    name := (splitName fullName).2
    description := n.label? .description
    errors := (n.entries .errors).map fun (key, schema) => schema.error key
    accessTokens := n.facets.flatMap fun
      | .accessTokens types => types
      | _ => [] }

/-- The methods of a catalog by full name. -/
def methodCatalog (n : Node) : Except ProjectError (OrderedMap String Method) := do
  let methods ← (n.entries .methods).mapM fun (fullName, schema) => do
    return (fullName, ← schema.method fullName)
  return OrderedMap.ofEntries methods

end Node

end SchemaCatalog
