import SchemaCatalog.Schema.Equality
import SchemaCatalog.Schema.Vocabulary

/-!
# Encoding schemas

Encoding is the way back from a schema to a JSON value. It folds repeated keywords first, so it
fails exactly where folding finds a conflict, and then writes one member for each keyword, in
order. Among the shapes that decoding accepts for one meaning it has a fixed choice: one type
name stands without a list and so does one schema under `items`, no schema under `items` is
null, and positional entries are always a list.
-/

namespace SchemaCatalog

/-- The value of a facet. -/
def Facet.encode : Facet → Json
  | .type [name] => .string name
  | .type names => .array (names.map .string)
  | .required (.flag b) => .bool b
  | .required (.properties names) => .array (names.map .string)
  | .enum values => .array values
  | .enumNames names => .array (names.map .string)
  | .count _ n => .number (.whole n)
  | .limit _ n => .number n
  | .label _ s => .string s
  | .default v => v
  | .code _ n => .number (.whole n)
  | .flag _ b => .bool b
  | .accessTokens types => .array (types.map fun t => .string t.name)
  | .unrecognized _ v => v

/-- The value of a list of schemas, given their values. -/
def OrderedKind.encode : OrderedKind → List Json → Json
  | .items, [] => .null
  | .items, [v] => v
  | _, vs => .array vs

/-- The value of keyed schemas, given their values. -/
def KeyedKind.encode (kind : KeyedKind) (members : List (String × Json)) : Json :=
  match kind.layout with
  | .members => .object members
  | _ => .array (OrderedMap.values members)

/-- The values of keyed schemas, given how a schema is encoded. -/
def encodeMembersWith (encode : Node → Except EncodeError Json) (members : List (String × Node)) :
    Except EncodeError (List (String × Json)) :=
  members.mapM fun (name, n) => (fun v => (name, v)) <$> encode n

/-- The value of a keyword, given how a schema is encoded. -/
def Keyword.encodeWith (encode : Node → Except EncodeError Json) :
    Keyword → Except EncodeError Json
  | .keyed kind members => kind.encode <$> encodeMembersWith encode members
  | .ordered kind schemas => kind.encode <$> schemas.mapM encode
  | .additionalProperties schema => encode schema
  | .ref target => .ok (.string target)
  | .facet a => .ok a.encode

/-- The members of keywords, given how a schema is encoded. -/
def Keyword.membersWith (encode : Node → Except EncodeError Json) (ks : List Keyword) :
    Except EncodeError (List (String × Json)) :=
  ks.mapM fun k => (fun v => (k.name, v)) <$> k.encodeWith encode

/-- The value of a schema, given how a nested one is encoded. -/
def Node.encodeWith (encode : Node → Except EncodeError Json) (n : Node) :
    Except EncodeError Json :=
  match n.truth with
  | some b => .ok (.bool b)
  | none => do
    let ks ← n.foldedKeywords
    return .object (← Keyword.membersWith encode ks)

/-- The value of a schema of at most the given number of levels. -/
def Node.encodeAt : Nat → Node → Except EncodeError Json
  | 0 => fun _ => .ok .null
  | levels + 1 => Node.encodeWith (Node.encodeAt levels)

/-! ## Levels -/

section Congruence

variable {P : Node → Prop} {encode encode' : Node → Except EncodeError Json}

theorem mapM_congr {α β ε : Type} {f g : α → Except ε β} {l : List α} (h : ∀ a ∈ l, f a = g a) :
    l.mapM f = l.mapM g := by
  induction l with
  | nil => rfl
  | cons a l ih =>
    obtain ⟨ha, hl⟩ := List.forall_mem_cons.1 h
    simp only [List.mapM_cons, ha, ih hl]

theorem Keyword.encodeWith_congr (h : ∀ n, P n → encode n = encode' n) {k : Keyword}
    (hk : k.All P) : k.encodeWith encode = k.encodeWith encode' := by
  cases k with
  | keyed kind members =>
    have values : encodeMembersWith encode members = encodeMembersWith encode' members :=
      mapM_congr fun m hm => congrArg (Functor.map (m.1, ·)) (h m.2 (all_keyed.1 hk m hm))
    simp only [Keyword.encodeWith, values]
  | ordered kind schemas =>
    have values : schemas.mapM encode = schemas.mapM encode' :=
      mapM_congr fun n hn => h n (hk n hn)
    simp only [Keyword.encodeWith, values]
  | additionalProperties schema => exact h schema (hk schema (List.mem_singleton.2 rfl))
  | _ => rfl

/-- A schema is encoded by how the schemas nested in it are. -/
theorem Node.encodeWith_congr (h : ∀ n, P n → encode n = encode' n) {n : Node}
    (hn : ∀ k ∈ n.keywords, k.All P) : n.encodeWith encode = n.encodeWith encode' := by
  have hf : ∀ ks, n.foldedKeywords = .ok ks → ∀ k ∈ ks, k.All P :=
    (Keyword.foldWith_congr (fun _ _ _ _ => rfl) hn).2
  simp only [Node.encodeWith]
  cases n.truth with
  | some b => rfl
  | none =>
    cases hks : n.foldedKeywords with
    | error e => rfl
    | ok ks =>
      have members : Keyword.membersWith encode ks = Keyword.membersWith encode' ks :=
        mapM_congr fun k hk => congrArg _ (Keyword.encodeWith_congr h (hf ks hks k hk))
      exact congrArg
        (fun ms => Except.ok ks >>= fun _ => ms >>= fun v => .ok (Json.object v)) members

end Congruence

namespace Node

/-- The value of a schema with all its levels. -/
def encodeFully (n : Node) : Except EncodeError Json := n.encodeAt n.height

theorem encodeAt_succ {levels : Nat} {n : Node} (h : n.height ≤ levels) :
    encodeAt (levels + 1) n = encodeAt levels n := by
  induction levels generalizing n with
  | zero =>
    have := height_eq n
    omega
  | succ levels ih => exact encodeWith_congr (fun _ => ih) (all_height_le h)

/-- Levels below a schema change nothing. -/
theorem encodeAt_eq_encodeFully {levels : Nat} {n : Node} (h : n.height ≤ levels) :
    encodeAt levels n = n.encodeFully := by
  have more : ∀ more, encodeAt (n.height + more) n = n.encodeFully := by
    intro more
    induction more with
    | zero => rfl
    | succ more ih => rw [← Nat.add_assoc, encodeAt_succ (by omega), ih]
  rw [← more (levels - n.height)]
  congr 1
  omega

/-- The value with all levels holds the values of nested schemas with all theirs. -/
theorem encodeFully_eq_encodeWith (n : Node) : n.encodeFully = n.encodeWith encodeFully := by
  rw [encodeFully, height_eq]
  exact encodeWith_congr (P := fun m => m.height ≤ keywordsHeight n.keywords)
    (fun _ => encodeAt_eq_encodeFully) (all_height_le (Nat.le_of_eq (height_eq n)))

/-- The value with all levels, by levels as long as there are any, so that the height of a schema
with shared parts need not be known. -/
def encoding : Nat → { encode : Node → Except EncodeError Json // encode = encodeFully }
  | 0 => ⟨encodeFully, rfl⟩
  | levels + 1 =>
    ⟨fun n => n.encodeWith (encoding levels).1, funext fun n => by
      rw [(encoding levels).2, ← encodeFully_eq_encodeWith]⟩

/-- The value of a schema. -/
def encode : Node → Except EncodeError Json := (encoding manyLevels).1

theorem encode_eq_encodeFully : encode = encodeFully := (encoding manyLevels).2

/-- The value of a schema holds the values of the schemas nested in it. -/
theorem encode_eq_encodeWith (n : Node) : n.encode = n.encodeWith encode := by
  rw [encode_eq_encodeFully, ← encodeFully_eq_encodeWith]

end Node

/-- The value of a keyword. -/
def Keyword.encode (k : Keyword) : Except EncodeError Json := k.encodeWith Node.encode

end SchemaCatalog
