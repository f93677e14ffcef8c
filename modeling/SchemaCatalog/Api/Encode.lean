import SchemaCatalog.Api.Basic

/-!
# The model as JSON

Every part of the model is written as an object with all its members in a fixed order, null
where there is nothing to say.
-/

namespace SchemaCatalog.Api

/-- The name of a type. -/
def ValueType.name : ValueType → String
  | .integer => "integer"
  | .string => "string"
  | .number => "number"
  | .boolean => "boolean"
  | .array => "array"
  | .object => "object"
  | .multiple => "multiple"
  | .undefined => "undefined"

/-- The name of a format. -/
def StringFormat.name : StringFormat → String
  | .uri => "uri"

/-- A text, or null. -/
def encodeText (s : Option String) : Json := (s.map Json.string).getD .null

/-- A count, or null. -/
def encodeCount (n : Option Nat) : Json := (n.map fun n => Json.number (.whole n)).getD .null

/-- A number, or null. -/
def encodeNumber (n : Option Number) : Json := (n.map Json.number).getD .null

/-- A list of texts. -/
def encodeTexts (texts : List String) : Json := .array (texts.map .string)

mutual

/-- The value of a shape. -/
def Shape.encode : Shape → Json
  | ⟨name, type, format, description, properties, patternProperties, enumValues, enumNames, items,
      minProperties, maxProperties, minLength, maxLength, maxItems, minimum, maximum, default,
      additionalProperties, isRequired, withSetters, withoutRefs, allOf, oneOf⟩ =>
    .object [
      ("name", encodeText name),
      ("type", .string type.name),
      ("format", encodeText (format.map StringFormat.name)),
      ("description", encodeText description),
      ("properties", .array (encodeShapes properties)),
      ("pattern_properties", .array (encodeShapes patternProperties)),
      ("enum", encodeTexts enumValues),
      ("enum_names", encodeTexts enumNames),
      ("items", encodeShape? items),
      ("min_properties", encodeCount minProperties),
      ("max_properties", encodeCount maxProperties),
      ("min_length", encodeCount minLength),
      ("max_length", encodeCount maxLength),
      ("max_items", encodeCount maxItems),
      ("minimum", encodeNumber minimum),
      ("maximum", encodeNumber maximum),
      ("default", encodeText default),
      ("additional_properties", .bool additionalProperties),
      ("is_required", .bool isRequired),
      ("with_setters", .bool withSetters),
      ("without_refs", .bool withoutRefs),
      ("all_of", .array (encodeShapes allOf)),
      ("one_of", .array (encodeShapes oneOf))]

/-- The values of shapes. -/
def encodeShapes : List Shape → List Json
  | [] => []
  | s :: shapes => s.encode :: encodeShapes shapes

/-- The value of a shape that may be missing. -/
def encodeShape? : Option Shape → Json
  | none => .null
  | some s => s.encode

end

/-- The value of an error. -/
def Error.encode (e : Error) : Json :=
  .object [
    ("name", .string e.name),
    ("code", (e.code.map fun n => Json.number (.whole n)).getD .null),
    ("description", encodeText e.description),
    ("subcodes", .array (e.subcodes.map fun n => .number (.whole n)))]

/-- The value of a method. -/
def Method.encode (m : Method) : Json :=
  .object [
    ("full_name", .string m.fullName),
    ("category", .string m.category),
    ("name", .string m.name),
    ("description", encodeText m.description),
    ("errors", .array (m.errors.map Error.encode)),
    ("access_token_types", .array (m.accessTokens.map fun t => .string t.name)),
    ("parameters", .array (encodeShapes m.parameters)),
    ("responses", .array (encodeShapes m.responses))]

/-- The value of methods by name. -/
def encodeMethods (methods : OrderedMap String Method) : Json :=
  .object (methods.map fun (name, m) => (name, m.encode))

/-- The value of errors by name. -/
def encodeErrors (errors : OrderedMap String Error) : Json :=
  .object (errors.map fun (name, e) => (name, e.encode))

end Api

/-- The value of a whole model. -/
def Api.encode (api : Api) : Json :=
  .object [
    ("categories", .object (api.categories.map fun (name, methods) =>
      (name, .object [("methods", Api.encodeMethods methods)]))),
    ("errors", Api.encodeErrors api.errors)]

end SchemaCatalog
