import SchemaCatalog.Schema.Decode

/-!
# Places in a schema

A JSON pointer leads to a nested schema: its segments name a keyword, then the place inside it.
Under a keyed keyword the place is a key, under a list an index, and the lone schema of
`additionalProperties` needs none; a list of one schema may do without its index as well. The
members of an unrecognized keyword are plain JSON, and the value a pointer reaches in it is
decoded there and then. Where keywords of one name repeat, the first one with an answer counts.

`Node.find?` follows a pointer whose percent escapes are already undone; `Node.findAnchor?`
looks for the first node, in order of declaration, that carries a given anchor.
-/

namespace SchemaCatalog

/-- The parts of a text between slashes. -/
def splitSlashes : List Char → List (List Char)
  | [] => [[]]
  | c :: cs =>
    if c = '/' then [] :: splitSlashes cs
    else
      match splitSlashes cs with
      | [] => [[c]]
      | part :: parts => (c :: part) :: parts

/-- A segment of a pointer with its escapes undone: `~1` is a slash and `~0` a tilde. -/
def unescapeSegment : List Char → List Char
  | '~' :: '1' :: cs => '/' :: unescapeSegment cs
  | '~' :: '0' :: cs => '~' :: unescapeSegment cs
  | c :: cs => c :: unescapeSegment cs
  | [] => []

/-- A name as a segment of a pointer. -/
def escapeSegment : List Char → List Char
  | [] => []
  | c :: cs =>
    if c = '~' then '~' :: '0' :: escapeSegment cs
    else if c = '/' then '~' :: '1' :: escapeSegment cs
    else c :: escapeSegment cs

/-- The segments of a pointer, or `none` if it is neither empty nor begins with a slash. -/
def pointerSegments? (pointer : String) : Option (List String) :=
  match pointer.toList with
  | [] => some []
  | '/' :: cs => some ((splitSlashes cs).map fun part => String.ofList (unescapeSegment part))
  | _ => none

/-- A decimal index that fits 64 bits; a plus sign and zeros may stand before it. -/
def index? (segment : String) : Option Nat :=
  let digits := match segment.toList with
    | '+' :: cs => cs
    | cs => cs
  if digits.isEmpty || !digits.all Char.isDigit then none
  else
    let n := digits.foldl (fun n c => n * 10 + (c.toNat - '0'.toNat)) 0
    if n < Nat.pow 2 64 then some n else none

/-- The value at a place inside a JSON value. -/
def Json.at? : Json → List String → Option Json
  | v, [] => some v
  | .object members, name :: rest => do (← OrderedMap.get? members name).at? rest
  | .array items, segment :: rest => do (← items[← index? segment]?).at? rest
  | _, _ :: _ => none

/-- The schema at a place inside a facet: only what is plain JSON has any. -/
def Facet.at? : Facet → List String → Option Node
  | .unrecognized _ v, rest => do (Node.decode (← v.at? rest)).toOption
  | _, _ => none

mutual

/-- The schema at the end of a list of segments. -/
def Node.at? : Node → List String → Option Node
  | n, [] => some n
  | ⟨_, _, _, keywords⟩, name :: rest => keywordsAt? keywords name rest

/-- The first schema that a keyword of the given name has at a place. -/
def keywordsAt? : List Keyword → String → List String → Option Node
  | [], _, _ => none
  | k :: ks, name, rest =>
    if k.name = name then
      match keywordAt? k rest with
      | some n => some n
      | none => keywordsAt? ks name rest
    else keywordsAt? ks name rest

/-- The schema a keyword has at a place. -/
def keywordAt? : Keyword → List String → Option Node
  | .keyed _ members, rest =>
    match rest with
    | [] => none
    | key :: rest => memberAt? members key rest
  | .ordered _ schemas, rest =>
    match rest with
    | [] => loneAt? schemas rest
    | segment :: inner =>
      match index? segment with
      | some i => schemaAt? schemas i inner
      | none => loneAt? schemas rest
  | .additionalProperties schema, rest => schema.at? rest
  | .ref _, _ => none
  | .facet a, rest => a.at? rest

/-- The schema at a place below the member with a key. -/
def memberAt? : List (String × Node) → String → List String → Option Node
  | [], _, _ => none
  | (name, n) :: members, key, rest =>
    if name = key then n.at? rest else memberAt? members key rest

/-- The schema at a place below the schema with an index. -/
def schemaAt? : List Node → Nat → List String → Option Node
  | [], _, _ => none
  | n :: _, 0, rest => n.at? rest
  | _ :: schemas, i + 1, rest => schemaAt? schemas i rest

/-- The schema at a place below the only schema of a list. -/
def loneAt? : List Node → List String → Option Node
  | [n], rest => n.at? rest
  | _, _ => none

end

namespace Node

/-- The schema a JSON pointer leads to. -/
def find? (n : Node) (pointer : String) : Option Node := do n.at? (← pointerSegments? pointer)

/-- Whether a node itself carries an anchor. -/
def hasAnchor (n : Node) (anchor : String) : Bool :=
  n.keywords.any fun
    | .facet (.label .anchor name) => name == anchor
    | _ => false

mutual

/-- The first node that carries an anchor. -/
def findAnchor? (anchor : String) : Node → Option Node
  | ⟨identity, truth, base, keywords⟩ =>
    if hasAnchor ⟨identity, truth, base, keywords⟩ anchor then
      some ⟨identity, truth, base, keywords⟩
    else anchorInKeywords? anchor keywords

/-- The first node in keywords that carries an anchor. -/
def anchorInKeywords? (anchor : String) : List Keyword → Option Node
  | [] => none
  | k :: ks =>
    match anchorInKeyword? anchor k with
    | some n => some n
    | none => anchorInKeywords? anchor ks

/-- The first node in a keyword that carries an anchor. -/
def anchorInKeyword? (anchor : String) : Keyword → Option Node
  | .keyed _ members => anchorInMembers? anchor members
  | .ordered _ schemas => anchorInSchemas? anchor schemas
  | .additionalProperties schema => schema.findAnchor? anchor
  | .ref _ => none
  | .facet _ => none

/-- The first node in named schemas that carries an anchor. -/
def anchorInMembers? (anchor : String) : List (String × Node) → Option Node
  | [] => none
  | (_, n) :: members =>
    match n.findAnchor? anchor with
    | some n => some n
    | none => anchorInMembers? anchor members

/-- The first node in schemas that carries an anchor. -/
def anchorInSchemas? (anchor : String) : List Node → Option Node
  | [] => none
  | n :: schemas =>
    match n.findAnchor? anchor with
    | some n => some n
    | none => anchorInSchemas? anchor schemas

end

end Node

end SchemaCatalog
