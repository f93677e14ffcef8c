import SchemaCatalog.SameElements
import SchemaCatalog.Schema.Basic

/-!
# Folding and equality

Merging a schema with the target of its reference leaves keywords with repeated names. Folding
makes one keyword of all that share a name: later ones are absorbed by the first. Named schemas
are united, and two different schemas under one name are a conflict; entries that go by position
are appended; branches are concatenated; type names and required names are united; of anything
else the first one stands.

Two schemas are the same when their folded keywords have the same elements in any order, or,
where one of them has a conflict, their keywords as they stand. Named schemas are compared as
maps and set-like payloads without regard to order. Base addresses and identities take no part.

Folding compares schemas and comparison folds them, so both are stated over a given comparison
of nested schemas (`…With`), and `Node.sameAt` ties the knot level by level.
-/

namespace SchemaCatalog

/-- Why a schema has no JSON form: two different schemas share a name. -/
inductive EncodeError where
  /-- Two keywords of one name define a member differently. -/
  | conflictingKey (keyword key : String)
  deriving DecidableEq, Repr

/-- The text of an error. -/
def EncodeError.message : EncodeError → String
  | .conflictingKey keyword key =>
    "cannot encode `" ++ keyword ++ "`: conflicting definitions of \"" ++ key ++ "\""

/-- Equality of payloads of `required`. -/
def Required.same : Required → Required → Bool
  | .flag a, .flag b => a == b
  | .properties xs, .properties ys => sameElements (· == ·) xs ys
  | _, _ => false

/-- Equality of facets. -/
def Facet.same : Facet → Facet → Bool
  | .type xs, .type ys => sameElements (· == ·) xs ys
  | .required r, .required s => r.same s
  | .enum xs, .enum ys => Json.sameItems xs ys
  | .enumNames xs, .enumNames ys => sameElements (· == ·) xs ys
  | .count j m, .count k n => j == k && m == n
  | .limit j m, .limit k n => j == k && m.same n
  | .label j s, .label k t => j == k && s == t
  | .default v, .default w => v.same w
  | .code j m, .code k n => j == k && m == n
  | .flag j a, .flag k b => j == k && a == b
  | .accessTokens xs, .accessTokens ys => sameElements (· == ·) xs ys
  | .unrecognized s v, .unrecognized t w => s == t && v.same w
  | _, _ => false

/-- Whether two keyed collections have equal schemas under the same names. -/
def sameMembersWith (eq : Node → Node → Bool) (a b : List (String × Node)) : Bool :=
  a.length == b.length && a.all fun (name, _) =>
    match OrderedMap.get? a name, OrderedMap.get? b name with
    | some m, some n => eq m n
    | _, _ => false

/-- Whether two lists have equal schemas place by place. -/
def sameSchemasWith (eq : Node → Node → Bool) : List Node → List Node → Bool
  | [], [] => true
  | m :: ms, n :: ns => eq m n && sameSchemasWith eq ms ns
  | _, _ => false

/-- Equality of keywords, given the equality of nested schemas. -/
def Keyword.sameWith (eq : Node → Node → Bool) : Keyword → Keyword → Bool
  | .keyed j a, .keyed k b => j == k && sameMembersWith eq a b
  | .ordered j a, .ordered k b => j == k && sameSchemasWith eq a b
  | .additionalProperties m, .additionalProperties n => eq m n
  | .ref s, .ref t => s == t
  | .facet a, .facet b => a.same b
  | _, _ => false

/-- The members of `a` and those of `b` that `a` lacks; a shared name must hold equal schemas. -/
def uniteWith (eq : Node → Node → Bool) (keyword : String) :
    List (String × Node) → List (String × Node) → Except EncodeError (List (String × Node))
  | a, [] => .ok a
  | a, (key, n) :: b =>
    match OrderedMap.get? a key with
    | some m => if eq m n then uniteWith eq keyword a b else .error (.conflictingKey keyword key)
    | none => uniteWith eq keyword (a ++ [(key, n)]) b

/-- The first number from `index` on that is no key, among the first `fuel` candidates. -/
def freeIndexFrom (a : List (String × Node)) : Nat → Nat → Nat
  | 0, index => index
  | fuel + 1, index =>
    if OrderedMap.contains a (toString index) then freeIndexFrom a fuel (index + 1) else index

/-- The first number from the length on that is no key. -/
def freeIndex (a : List (String × Node)) : Nat := freeIndexFrom a a.length a.length

/-- The entries of `a` and then those of `b`: an entry equal to that of its key in `a` is left
out, and a different one goes under the first free position. -/
def appendWith (eq : Node → Node → Bool) :
    List (String × Node) → List (String × Node) → List (String × Node)
  | a, [] => a
  | a, (key, n) :: b =>
    match OrderedMap.get? a key with
    | some m =>
      if eq m n then appendWith eq a b else appendWith eq (a ++ [(toString (freeIndex a), n)]) b
    | none => appendWith eq (a ++ [(key, n)]) b

/-- The names of `a` and those of `b` that are not there yet. -/
def uniteNames : List String → List String → List String
  | a, [] => a
  | a, name :: b => if name ∈ a then uniteNames a b else uniteNames (a ++ [name]) b

/-- Whether entries of a keyed keyword go by position, so that keys may change. -/
def KeyedKind.isPositional : KeyedKind → Bool
  | .errors | .subcodes => true
  | _ => false

/-- A facet with a later one of its name folded in. -/
def Facet.absorb : Facet → Facet → Facet
  | .type a, .type b => .type (uniteNames a b)
  | .required (.properties a), .required (.properties b) =>
    .required (.properties (uniteNames a b))
  | a, _ => a

/-- A keyword with a later one of its name folded in. -/
def Keyword.absorbWith (eq : Node → Node → Bool) : Keyword → Keyword → Except EncodeError Keyword
  | .keyed j a, .keyed k b =>
    if j ≠ k then .ok (.keyed j a)
    else if j.isPositional then .ok (.keyed j (appendWith eq a b))
    else .keyed j <$> uniteWith eq j.name a b
  | .ordered j a, .ordered k b =>
    .ok (.ordered j (if j = k ∧ j ≠ .items then a ++ b else a))
  | .facet a, .facet b => .ok (.facet (a.absorb b))
  | k, _ => .ok k

/-- Folded keywords with one more folded in: into the first of its name, or at the end. -/
def Keyword.foldInWith (eq : Node → Node → Bool) :
    List Keyword → Keyword → Except EncodeError (List Keyword)
  | [], k => .ok [k]
  | j :: ks, k =>
    if j.name = k.name then (· :: ks) <$> j.absorbWith eq k
    else (j :: ·) <$> Keyword.foldInWith eq ks k

/-- Keywords with repeated names folded into one. -/
def Keyword.foldWith (eq : Node → Node → Bool) (ks : List Keyword) :
    Except EncodeError (List Keyword) :=
  ks.foldlM (Keyword.foldInWith eq) []

/-- Equality of schemas, given the equality of nested ones. -/
def Node.sameWith (eq : Node → Node → Bool) (m n : Node) : Bool :=
  m.truth == n.truth &&
    match Keyword.foldWith eq m.keywords, Keyword.foldWith eq n.keywords with
    | .ok a, .ok b => sameElements (Keyword.sameWith eq) a b
    | _, _ => sameElements (Keyword.sameWith eq) m.keywords n.keywords

/-- Equality of schemas of at most the given number of levels. -/
def Node.sameAt : Nat → Node → Node → Bool
  | 0 => fun _ _ => true
  | levels + 1 => Node.sameWith (Node.sameAt levels)

end SchemaCatalog
