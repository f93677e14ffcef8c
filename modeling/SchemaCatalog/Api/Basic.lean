import SchemaCatalog.Schema.Basic

/-!
# The model of an API

What a catalog of schemas says about an API, with everything resolved: categories of methods,
the parameters, responses and errors of each method, and the shapes of the values that go in and
out. A shape is a tree of its own, made of the parts of a schema that a reader of the API needs.

The entries of `enumValues` and `enumNames` belong together by position; `Shape.enumEntries`
pairs them.
-/

namespace SchemaCatalog.Api

/-- The type of a value. -/
inductive ValueType where
  | integer
  | string
  | number
  | boolean
  | array
  | object
  /-- One of several types. -/
  | multiple
  /-- No type that is known. -/
  | undefined
  deriving DecidableEq, Repr

/-- The formats of strings that the model knows. -/
inductive StringFormat where
  | uri
  deriving DecidableEq, Repr

/-- The shape of a value: of a parameter, of a response or of a part of one. -/
structure Shape where
  /-- The name the shape was found under. -/
  name : Option String
  type : ValueType
  format : Option StringFormat
  description : Option String
  properties : List Shape
  /-- The properties of an object whose names match a pattern. -/
  patternProperties : List Shape
  /-- The values allowed, as text. -/
  enumValues : List String
  /-- Names for these values, for all or for none. -/
  enumNames : List String
  items : Option Shape
  minProperties : Option Nat
  maxProperties : Option Nat
  minLength : Option Nat
  maxLength : Option Nat
  maxItems : Option Nat
  minimum : Option Number
  maximum : Option Number
  /-- The value taken where none is given, as text. -/
  default : Option String
  /-- Whether properties without a name are allowed. -/
  additionalProperties : Bool
  isRequired : Bool
  withSetters : Bool
  /-- Whether references are unwanted. -/
  withoutRefs : Bool
  allOf : List Shape
  oneOf : List Shape

/-- The values allowed, each with its name if names are given. -/
def Shape.enumEntries (s : Shape) : List (String × Option String) :=
  s.enumValues.zipIdx.map fun (value, i) => (value, s.enumNames[i]?)

/-- An error a method may answer with. -/
structure Error where
  name : String
  code : Option Int
  description : Option String
  /-- The codes of its variants. -/
  subcodes : List Int
  deriving DecidableEq, Repr

/-- A method. -/
structure Method where
  /-- The full name, the category before the first dot. -/
  fullName : String
  /-- The part before the first dot, empty if there is none. -/
  category : String
  /-- The part behind the first dot. -/
  name : String
  description : Option String
  errors : List Error
  accessTokens : List AccessTokenType
  parameters : List Shape
  responses : List Shape

/-- The methods of one category by full name. -/
abbrev Category := OrderedMap String Method

end Api

/-- The whole surface of an API. -/
structure Api where
  categories : OrderedMap String Api.Category
  errors : OrderedMap String Api.Error

namespace Api

/-- The number of methods of all categories. -/
def methodCount (api : Api) : Nat := (api.categories.flatMap (·.2)).length

/-- The method with a full name, in the first category that has one. -/
def method? (api : Api) (fullName : String) : Option Method :=
  api.categories.findSome? fun c => OrderedMap.get? c.2 fullName

end SchemaCatalog.Api
