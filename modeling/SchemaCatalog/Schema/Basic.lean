import SchemaCatalog.Address.Basic
import SchemaCatalog.Json.Basic

/-!
# Schemas

A schema is a node that carries keywords. A keyword either holds nested schemas — under names,
in a list, or one alone — or refers to another schema, or is a facet with a payload of
its own. The vocabulary is closed over four families: `KeyedKind` and `OrderedKind` name the
keywords of the first two sorts, `additionalProperties` is the only one with a lone schema, and
`Facet` holds all the others, the members the vocabulary does not know included.

`Keyword.nested` is the one view of the schemas a keyword holds; whatever walks a schema goes
through it or through the three constructors it is defined on.

## Identity

Resolution lets many places share one node, and the check of a document visits a shared node
once. Sharing is therefore part of the data: a node that takes part in a resolution carries an
identity, and two nodes of one resolution are the same shared node exactly when their identities
are equal. A node that was only decoded carries none. `Node.forget` erases identities and base
addresses at every depth; what remains is the tree a reader of the schema sees.
-/

namespace SchemaCatalog

/-- The keywords that hold schemas under names. -/
inductive KeyedKind where
  | properties
  /-- Properties of an object by pattern. -/
  | patternProperties
  /-- Schemas to be referred to. -/
  | definitions
  | responses
  /-- Methods of a catalog, listed with their names inside. -/
  | methods
  /-- Parameters of a method, listed with their names inside. -/
  | parameters
  | errors
  | subcodes
  deriving DecidableEq, Repr

/-- The keywords that hold a list of schemas. -/
inductive OrderedKind where
  | items
  | allOf
  | oneOf
  | anyOf
  deriving DecidableEq, Repr

/-- The keywords that bound a size. -/
inductive CountKind where
  | minProperties
  | maxProperties
  | minLength
  | maxLength
  | minItems
  | maxItems
  deriving DecidableEq, Repr

/-- The keywords that bound a number. -/
inductive LimitKind where
  | minimum
  | maximum
  deriving DecidableEq, Repr

/-- The keywords that hold one line of text. -/
inductive LabelKind where
  /-- The name under which a schema can be referred to. -/
  | anchor
  | description
  | format
  deriving DecidableEq, Repr

/-- The keywords that hold a numeric code. -/
inductive CodeKind where
  | code
  | subcode
  deriving DecidableEq, Repr

/-- The keywords that are switched on or off. -/
inductive FlagKind where
  /-- Whether an error can come from any method. -/
  | isGlobal
  /-- Whether setters are wanted for an object. -/
  | withSetters
  /-- Whether an object is wanted without its references. -/
  | withoutRefs
  deriving DecidableEq, Repr

/-- The kinds of access token a method accepts. -/
inductive AccessTokenType where
  | user
  | openAccess
  | service
  | group
  deriving DecidableEq, Repr

/-- The payload of `required`: a switch on the value itself, or the names of the properties an
object must have. -/
inductive Required where
  /-- Whether the value it stands on must be given. -/
  | flag (b : Bool)
  /-- The names of the properties that must be given. -/
  | properties (names : List String)
  deriving DecidableEq, Repr

/-- A keyword without nested schemas that is no reference. -/
inductive Facet where
  | type (names : List String)
  | required (r : Required)
  | enum (values : List Json)
  /-- Names for the values of `enum`, by place. -/
  | enumNames (names : List String)
  | count (kind : CountKind) (n : Nat)
  | limit (kind : LimitKind) (n : Number)
  | label (kind : LabelKind) (text : String)
  /-- The value taken where none is given. -/
  | default (value : Json)
  | code (kind : CodeKind) (n : Int)
  | flag (kind : FlagKind) (b : Bool)
  | accessTokens (types : List AccessTokenType)
  /-- A member outside the vocabulary, kept as it is. -/
  | unrecognized (name : String) (value : Json)

mutual

/-- A schema: its keywords in order, the truth value it is instead of having keywords, the
address it belongs to and its identity. -/
structure Node where
  /-- What tells a shared node from every other node of a resolution. -/
  identity : Option Nat := none
  /-- The truth value of a boolean schema. -/
  truth : Option Bool := none
  /-- The address of the document the node stands for. -/
  base : Option Address := none
  /-- The keywords in order of declaration; a merged node may repeat their names. -/
  keywords : List Keyword := []

/-- A keyword of a schema. -/
inductive Keyword where
  | keyed (kind : KeyedKind) (members : List (String × Node))
  | ordered (kind : OrderedKind) (schemas : List Node)
  /-- The schema of the properties that are not named. -/
  | additionalProperties (schema : Node)
  | ref (target : String)
  /-- Anything else. -/
  | facet (a : Facet)

end

instance : Inhabited Node := ⟨{}⟩

/-- The JSON name of a keyed keyword. -/
def KeyedKind.name : KeyedKind → String
  | .properties => "properties"
  | .patternProperties => "patternProperties"
  | .definitions => "definitions"
  | .responses => "responses"
  | .methods => "methods"
  | .parameters => "parameters"
  | .errors => "errors"
  | .subcodes => "subcodes"

/-- The JSON name of a keyword that holds a list of schemas. -/
def OrderedKind.name : OrderedKind → String
  | .items => "items"
  | .allOf => "allOf"
  | .oneOf => "oneOf"
  | .anyOf => "anyOf"

/-- The JSON name of a bound of a size. -/
def CountKind.name : CountKind → String
  | .minProperties => "minProperties"
  | .maxProperties => "maxProperties"
  | .minLength => "minLength"
  | .maxLength => "maxLength"
  | .minItems => "minItems"
  | .maxItems => "maxItems"

/-- The JSON name of a bound of a number. -/
def LimitKind.name : LimitKind → String
  | .minimum => "minimum"
  | .maximum => "maximum"

/-- The JSON name of a line of text. -/
def LabelKind.name : LabelKind → String
  | .anchor => "$anchor"
  | .description => "description"
  | .format => "format"

/-- The JSON name of a code. -/
def CodeKind.name : CodeKind → String
  | .code => "code"
  | .subcode => "subcode"

/-- The JSON name of a switch. -/
def FlagKind.name : FlagKind → String
  | .isGlobal => "global"
  | .withSetters => "withSetters"
  | .withoutRefs => "withoutRefs"

/-- The name of a kind of token. -/
def AccessTokenType.name : AccessTokenType → String
  | .user => "user"
  | .openAccess => "open"
  | .service => "service"
  | .group => "group"

namespace AccessTokenType

/-- The kind of token with exactly the given name. -/
def ofExactName? : String → Option AccessTokenType
  | "user" => some .user
  | "open" => some .openAccess
  | "service" => some .service
  | "group" => some .group
  | _ => none

/-- The kind of token with the given name, the case of ASCII letters aside. -/
def ofName? (name : String) : Option AccessTokenType := ofExactName? name.toLower

end AccessTokenType

namespace Required

/-- Whether the value it stands on counts as required. -/
def isRequired : Required → Bool
  | .flag b => b
  | .properties names => !names.isEmpty

/-- The names of the list form. -/
def names : Required → List String
  | .flag _ => []
  | .properties names => names

/-- The required properties an object lacks. Other values lack none. -/
def missing (r : Required) : Json → List String
  | .object members => r.names.filter fun name => !OrderedMap.contains members name
  | _ => []

end Required

/-- The JSON name of a facet. -/
def Facet.name : Facet → String
  | .type _ => "type"
  | .required _ => "required"
  | .enum _ => "enum"
  | .enumNames _ => "enumNames"
  | .count kind _ => kind.name
  | .limit kind _ => kind.name
  | .label kind _ => kind.name
  | .default _ => "default"
  | .code kind _ => kind.name
  | .flag kind _ => kind.name
  | .accessTokens _ => "access_token_type"
  | .unrecognized name _ => name

namespace Keyword

/-- The JSON name of a keyword. -/
def name : Keyword → String
  | .keyed kind _ => kind.name
  | .ordered kind _ => kind.name
  | .additionalProperties _ => "additionalProperties"
  | .ref _ => "$ref"
  | .facet a => a.name

/-- The schemas a keyword holds, in order. -/
def nested : Keyword → List Node
  | .keyed _ members => OrderedMap.values members
  | .ordered _ schemas => schemas
  | .additionalProperties schema => [schema]
  | .ref _ => []
  | .facet _ => []

/-- The keyword with other schemas in the places of those it holds. -/
def withNested : Keyword → List Node → Keyword
  | .keyed kind members, ns => .keyed kind (List.zipWith (fun m n => (m.1, n)) members ns)
  | .ordered kind _, ns => .ordered kind ns
  | .additionalProperties schema, ns => .additionalProperties (ns.headD schema)
  | .ref target, _ => .ref target
  | .facet a, _ => .facet a

/-- Putting back the schemas a keyword holds changes nothing. -/
@[simp] theorem withNested_nested (k : Keyword) : k.withNested k.nested = k := by
  cases k with
  | keyed kind members =>
    simp only [nested, withNested, OrderedMap.values, keyed.injEq, true_and]
    induction members <;> simp_all
  | _ => rfl

/-- The target of a reference. -/
def reference? : Keyword → Option String
  | .ref target => some target
  | _ => none

/-- The payload of a facet. -/
def facet? : Keyword → Option Facet
  | .facet a => some a
  | _ => none

/-- Whether a keyword is neither a reference nor holds schemas. -/
def isFacet (k : Keyword) : Bool := k.facet?.isSome

/-- The place of a keyword in the order of resolution: anchors, then definitions, which others
refer to, then the rest, and the reference last. -/
def priority : Keyword → Nat
  | .facet (.label .anchor _) => 0
  | .keyed .definitions _ => 1
  | .ref _ => 255
  | _ => 8

end Keyword

namespace Node

/-- A schema with the given keywords. -/
def ofKeywords (keywords : List Keyword) : Node := { keywords }

/-- A boolean schema. -/
def ofBool (b : Bool) : Node := { truth := some b }

/-- Whether a schema has no keyword. -/
def isEmpty (n : Node) : Bool := n.keywords.isEmpty

/-- The targets of the references of a node itself. -/
def references (n : Node) : List String := n.keywords.filterMap Keyword.reference?

/-- The facets of a node, in order. -/
def facets (n : Node) : List Facet := n.keywords.filterMap Keyword.facet?

/-- The anchors of a node itself. -/
def anchors (n : Node) : List String :=
  n.facets.filterMap fun
    | .label .anchor name => some name
    | _ => none

/-- Whether a node neither refers nor holds schemas, so that resolution leaves it alone. -/
def isLeaf (n : Node) : Bool := n.keywords.all Keyword.isFacet

/-- The node with its facets alone: what is left of a target where a cycle closes. -/
def cycleStub (n : Node) : Node :=
  { n with keywords := n.keywords.filter Keyword.isFacet }

mutual

/-- Whether a reference is left anywhere in a schema. -/
def hasReferences : Node → Bool
  | ⟨_, _, _, keywords⟩ => keywordsHaveReferences keywords

/-- Whether a reference is left in one of some keywords. -/
def keywordsHaveReferences : List Keyword → Bool
  | [] => false
  | k :: ks => keywordHasReferences k || keywordsHaveReferences ks

/-- Whether a keyword is a reference or holds a schema with one left. -/
def keywordHasReferences : Keyword → Bool
  | .keyed _ members => membersHaveReferences members
  | .ordered _ schemas => schemasHaveReferences schemas
  | .additionalProperties schema => schema.hasReferences
  | .ref _ => true
  | .facet _ => false

/-- Whether a reference is left in one of some named schemas. -/
def membersHaveReferences : List (String × Node) → Bool
  | [] => false
  | (_, n) :: members => n.hasReferences || membersHaveReferences members

/-- Whether a reference is left in one of some schemas. -/
def schemasHaveReferences : List Node → Bool
  | [] => false
  | n :: schemas => n.hasReferences || schemasHaveReferences schemas

end

mutual

/-- The number of levels of a schema. -/
def height : Node → Nat
  | ⟨_, _, _, keywords⟩ => keywordsHeight keywords + 1

/-- The number of levels below some keywords. -/
def keywordsHeight : List Keyword → Nat
  | [] => 0
  | k :: ks => max (keywordHeight k) (keywordsHeight ks)

/-- The number of levels below a keyword. -/
def keywordHeight : Keyword → Nat
  | .keyed _ members => membersHeight members
  | .ordered _ schemas => schemasHeight schemas
  | .additionalProperties schema => schema.height
  | .ref _ => 0
  | .facet _ => 0

/-- The number of levels below some named schemas. -/
def membersHeight : List (String × Node) → Nat
  | [] => 0
  | (_, n) :: members => max n.height (membersHeight members)

/-- The number of levels below some schemas. -/
def schemasHeight : List Node → Nat
  | [] => 0
  | n :: schemas => max n.height (schemasHeight schemas)

end

mutual

/-- The tree of a schema, identities and base addresses forgotten at every depth. -/
def forget : Node → Node
  | ⟨_, truth, _, keywords⟩ => ⟨none, truth, none, forgetKeywords keywords⟩

/-- The keywords with their nested schemas forgotten. -/
def forgetKeywords : List Keyword → List Keyword
  | [] => []
  | k :: ks => forgetKeyword k :: forgetKeywords ks

/-- A keyword with its nested schemas forgotten. -/
def forgetKeyword : Keyword → Keyword
  | .keyed kind members => .keyed kind (forgetMembers members)
  | .ordered kind schemas => .ordered kind (forgetSchemas schemas)
  | .additionalProperties schema => .additionalProperties schema.forget
  | .ref target => .ref target
  | .facet a => .facet a

/-- Named schemas forgotten one by one. -/
def forgetMembers : List (String × Node) → List (String × Node)
  | [] => []
  | (name, n) :: members => (name, n.forget) :: forgetMembers members

/-- Schemas forgotten one by one. -/
def forgetSchemas : List Node → List Node
  | [] => []
  | n :: schemas => n.forget :: forgetSchemas schemas

end

mutual

/-- The schema with fresh identities at every node, counted from `next`, and the count after
them. -/
def label (next : Nat) : Node → Node × Nat
  | ⟨_, truth, base, keywords⟩ =>
    let (keywords, after) := labelKeywords (next + 1) keywords
    (⟨some next, truth, base, keywords⟩, after)

/-- Keywords with fresh identities inside. -/
def labelKeywords (next : Nat) : List Keyword → List Keyword × Nat
  | [] => ([], next)
  | k :: ks =>
    let (k, next) := labelKeyword next k
    let (ks, next) := labelKeywords next ks
    (k :: ks, next)

/-- A keyword with fresh identities inside. -/
def labelKeyword (next : Nat) : Keyword → Keyword × Nat
  | .keyed kind members =>
    let (members, next) := labelMembers next members
    (.keyed kind members, next)
  | .ordered kind schemas =>
    let (schemas, next) := labelSchemas next schemas
    (.ordered kind schemas, next)
  | .additionalProperties schema =>
    let (schema, next) := schema.label next
    (.additionalProperties schema, next)
  | .ref target => (.ref target, next)
  | .facet a => (.facet a, next)

/-- Named schemas with fresh identities. -/
def labelMembers (next : Nat) : List (String × Node) → List (String × Node) × Nat
  | [] => ([], next)
  | (name, n) :: members =>
    let (n, next) := n.label next
    let (members, next) := labelMembers next members
    ((name, n) :: members, next)

/-- Schemas with fresh identities. -/
def labelSchemas (next : Nat) : List Node → List Node × Nat
  | [] => ([], next)
  | n :: schemas =>
    let (n, next) := n.label next
    let (schemas, next) := labelSchemas next schemas
    (n :: schemas, next)

end

end Node

end SchemaCatalog
