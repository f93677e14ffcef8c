import SchemaCatalog.Schema.Vocabulary
import SchemaCatalog.Json.Reader

/-!
# Decoding schemas

A schema is decoded from a JSON value: a truth value is a boolean schema, and an object is a
node with one keyword for each member, in the order of the members. Each keyword of the
vocabulary asks for a shape of its value and nothing else; any other member is kept as it is.
Decoding stops at the first member whose value does not have its shape, and `DecodeError` tells
which and why.

The recursion follows the JSON value: a nested schema is a part of the value that is decoded.
-/

namespace SchemaCatalog

/-- Why a document is no schema. -/
inductive DecodeError where
  /-- The text is no JSON. -/
  | invalidJson
  /-- A value does not have the shape its keyword asks for. -/
  | unexpectedShape (keyword expected actual : String)
  /-- A listed schema carries no name. -/
  | missingName (keyword : String) (index : Nat)
  /-- Two entries have one name. -/
  | duplicateKey (keyword key : String)
  /-- A value has the right shape but no meaning. -/
  | invalidValue (keyword reason : String)
  deriving DecidableEq, Repr

/-- The text of an error. -/
def DecodeError.message : DecodeError → String
  | .invalidJson => "invalid JSON"
  | .unexpectedShape keyword expected actual =>
    "invalid `" ++ keyword ++ "`: expected " ++ expected ++ ", got " ++ actual
  | .missingName keyword index =>
    "invalid `" ++ keyword ++ "`: entry " ++ toString index ++ " has no string `name` member"
  | .duplicateKey keyword key => "invalid `" ++ keyword ++ "`: duplicate entry \"" ++ key ++ "\""
  | .invalidValue keyword reason => "invalid `" ++ keyword ++ "`: " ++ reason

namespace Decode

/-- The error of a value that has not the shape its keyword asks for. -/
def reject {α : Type} (keyword expected : String) (value : Json) : Except DecodeError α :=
  .error (.unexpectedShape keyword expected value.kind)

/-- A string. -/
def string (keyword : String) : Json → Except DecodeError String
  | .string s => .ok s
  | v => reject keyword "string" v

/-- A list of strings. -/
def strings (keyword : String) : Json → Except DecodeError (List String)
  | .array items => items.mapM (string keyword)
  | v => reject keyword "array of strings" v

/-- A truth value. -/
def bool (keyword : String) : Json → Except DecodeError Bool
  | .bool b => .ok b
  | v => reject keyword "boolean" v

/-- A number. -/
def number (keyword : String) : Json → Except DecodeError Number
  | .number n => .ok n
  | v => reject keyword "number" v

/-- A whole number from zero that fits 64 bits. -/
def count (keyword : String) (v : Json) : Except DecodeError Nat :=
  match v with
  | .number n =>
    match n.count? with
    | some n => .ok n
    | none => reject keyword "non-negative integer" v
  | v => reject keyword "non-negative integer" v

/-- A whole number that fits 64 bits with a sign. -/
def code (keyword : String) (v : Json) : Except DecodeError Int :=
  match v with
  | .number n =>
    match n.code? with
    | some n => .ok n
    | none => reject keyword "integer" v
  | v => reject keyword "integer" v

/-- Names of types: one string, or a list. -/
def typeNames : Json → Except DecodeError (List String)
  | .string s => .ok [s]
  | .array items => strings "type" (.array items)
  | v => reject "type" "string or array of strings" v

/-- A switch, or a list of names. -/
def required : Json → Except DecodeError Required
  | .bool b => .ok (.flag b)
  | .array items => .properties <$> strings "required" (.array items)
  | v => reject "required" "boolean or array of strings" v

/-- The first name of a list that came before. -/
def firstRepeated (seen : List String) : List String → Option String
  | [] => none
  | name :: names => if name ∈ seen then some name else firstRepeated (name :: seen) names

/-- Pairwise distinct names. -/
def enumNames (v : Json) : Except DecodeError (List String) := do
  let names ← strings "enumNames" v
  match firstRepeated [] names with
  | some name => .error (.duplicateKey "enumNames" name)
  | none => .ok names

/-- One kind of token. -/
def accessToken (name : String) : Except DecodeError AccessTokenType :=
  match AccessTokenType.ofName? name with
  | some t => .ok t
  | none =>
    .error (.invalidValue "access_token_type" ("unknown access token type \"" ++ name ++ "\""))

/-- Kinds of token. -/
def accessTokens (v : Json) : Except DecodeError (List AccessTokenType) := do
  (← strings "access_token_type" v).mapM accessToken

/-- Any list of values. -/
def values (keyword : String) : Json → Except DecodeError (List Json)
  | .array items => .ok items
  | v => reject keyword "array" v

/-- The shape a schema has. -/
def schemaShape {α : Type} (v : Json) : Except DecodeError α :=
  reject "schema" "object or boolean" v

/-- Schemas under their positions. -/
def indexed (schemas : List Node) : List (String × Node) :=
  schemas.zipIdx.map fun (n, i) => (toString i, n)

/-- The keyword of a term that holds no schema. A term that holds some gets here only with a
value of the wrong shape. -/
def plain (t : Term) (v : Json) : Except DecodeError Keyword :=
  match t with
  | .keyed kind => reject kind.name kind.layout.expected v
  | .ordered kind => reject kind.name kind.expected v
  | .additionalProperties => schemaShape v
  | .ref => .ref <$> string t.name v
  | .type => (.facet <| .type ·) <$> typeNames v
  | .required => (.facet <| .required ·) <$> required v
  | .enum => (.facet <| .enum ·) <$> values t.name v
  | .enumNames => (.facet <| .enumNames ·) <$> enumNames v
  | .count kind => (.facet <| .count kind ·) <$> count t.name v
  | .limit kind => (.facet <| .limit kind ·) <$> number t.name v
  | .label kind => (.facet <| .label kind ·) <$> string t.name v
  | .default => .ok (.facet (.default v))
  | .code kind => (.facet <| .code kind ·) <$> code t.name v
  | .flag kind => (.facet <| .flag kind ·) <$> bool t.name v
  | .accessTokens => (.facet <| .accessTokens ·) <$> accessTokens v

end Decode

open Decode

mutual

/-- The schema of a JSON value. -/
def Node.decode : Json → Except DecodeError Node
  | .bool b => .ok (.ofBool b)
  | .object members => Node.ofKeywords <$> Keyword.decodeAll members
  | v => schemaShape v

/-- The keywords of the members of an object, in order. -/
def Keyword.decodeAll : List (String × Json) → Except DecodeError (List Keyword)
  | [] => .ok []
  | (name, v) :: members => do
    let k ← Keyword.decode name v
    let ks ← Keyword.decodeAll members
    return k :: ks

/-- The keyword of a member of a schema. -/
def Keyword.decode (name : String) : Json → Except DecodeError Keyword
  | .object members =>
    match Term.ofName? name with
    | none => .ok (.facet (.unrecognized name (.object members)))
    | some (.keyed kind) =>
      match kind.layout with
      | .named => plain (.keyed kind) (.object members)
      | _ => .keyed kind <$> Node.decodeMembers members
    | some (.ordered .items) =>
      (fun ks => .ordered .items [Node.ofKeywords ks]) <$> Keyword.decodeAll members
    | some .additionalProperties =>
      (fun ks => .additionalProperties (Node.ofKeywords ks)) <$> Keyword.decodeAll members
    | some t => plain t (.object members)
  | .array items =>
    match Term.ofName? name with
    | none => .ok (.facet (.unrecognized name (.array items)))
    | some (.keyed kind) =>
      match kind.layout with
      | .members => plain (.keyed kind) (.array items)
      | .indexed => (.keyed kind <| indexed ·) <$> Node.decodeItems items
      | .named => .keyed kind <$> Node.decodeNamed kind.name 0 [] items
    | some (.ordered kind) => .ordered kind <$> Node.decodeItems items
    | some t => plain t (.array items)
  | v =>
    match Term.ofName? name, v with
    | none, v => .ok (.facet (.unrecognized name v))
    | some (.ordered .items), .null => .ok (.ordered .items [])
    | some (.ordered .items), .bool b => .ok (.ordered .items [.ofBool b])
    | some .additionalProperties, .bool b => .ok (.additionalProperties (.ofBool b))
    | some t, v => plain t v

/-- The schemas of the members of an object, under their names. -/
def Node.decodeMembers : List (String × Json) → Except DecodeError (List (String × Node))
  | [] => .ok []
  | (name, v) :: members => do
    let n ← Node.decode v
    let ns ← Node.decodeMembers members
    return (name, n) :: ns

/-- The schemas of the items of a list. -/
def Node.decodeItems : List Json → Except DecodeError (List Node)
  | [] => .ok []
  | v :: items => do
    let n ← Node.decode v
    let ns ← Node.decodeItems items
    return n :: ns

/-- The schemas of the items of a list under the names they carry, from the item at `index` on,
where the names `seen` have come already. -/
def Node.decodeNamed (keyword : String) (index : Nat) (seen : List String) :
    List Json → Except DecodeError (List (String × Node))
  | [] => .ok []
  | v :: items =>
    match v.member? "name" >>= Json.string? with
    | none => .error (.missingName keyword index)
    | some name => do
      let n ← Node.decode v
      if name ∈ seen then .error (.duplicateKey keyword name)
      else
        let ns ← Node.decodeNamed keyword (index + 1) (name :: seen) items
        return (name, n) :: ns

end

/-- The schema of a document in bytes. -/
def Node.ofBytes (bytes : ByteArray) : Except DecodeError Node :=
  match Json.readBytes? bytes with
  | some v => Node.decode v
  | none => .error .invalidJson

end SchemaCatalog
