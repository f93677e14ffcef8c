import SchemaCatalog.Number.Basic
import SchemaCatalog.OrderedMap

/-!
# JSON values

A JSON value is a finite tree. The members of an object are kept as a list in the order in which
the text gave them, because that order is visible wherever a value is written back; a value that
was read never repeats a member name.

Two values are the same when they differ at most in the order of the members of objects and in
the sign of a floating-point zero. `Json.same` decides it by looking every member of the one
object up in the other, which together with equal numbers of members is equality of maps.
-/

namespace SchemaCatalog

/-- A JSON value. -/
inductive Json where
  | null
  | bool (b : Bool)
  | number (n : Number)
  | string (s : String)
  | array (items : List Json)
  /-- Members by name, in order. -/
  | object (members : List (String × Json))
  deriving Inhabited, Repr

namespace Json

/-- The name of a value's kind, as error texts give it. -/
def kind : Json → String
  | .null => "null"
  | .bool _ => "boolean"
  | .number _ => "number"
  | .string _ => "string"
  | .array _ => "array"
  | .object _ => "object"

/-- The string a value is. -/
def string? : Json → Option String
  | .string s => some s
  | _ => none

/-- The member of an object under a name; other values have none. -/
def member? : Json → String → Option Json
  | .object members, name => OrderedMap.get? members name
  | _, _ => none

mutual

/-- Equality of values up to the order of members. -/
def same : Json → Json → Bool
  | .null, .null => true
  | .bool a, .bool b => a == b
  | .number a, .number b => a.same b
  | .string a, .string b => a == b
  | .array xs, .array ys => sameItems xs ys
  | .object ms, .object ns => ms.length == ns.length && sameMembers [] ms ns
  | _, _ => false

/-- Equality of two lists of values, place by place. -/
def sameItems : List Json → List Json → Bool
  | [], [] => true
  | x :: xs, y :: ys => x.same y && sameItems xs ys
  | _, _ => false

/-- Whether each of the given members has an equal one under its name in the other object. Names
in `seen` were looked up before; a repeated name counts once, for its first member. -/
def sameMembers (seen : List String) : List (String × Json) → List (String × Json) → Bool
  | [], _ => true
  | (name, x) :: ms, ns =>
    (seen.contains name ||
      match OrderedMap.get? ns name with
      | some y => x.same y
      | none => false) && sameMembers (name :: seen) ms ns

end

/-! ## Every value is the same as itself -/

/-- The members of an object have equals among members that begin with those looked up before. -/
theorem sameMembers_append {seen : List String} (before ms : List (String × Json))
    (hseen : ∀ name, name ∈ seen ↔ name ∈ OrderedMap.keys before)
    (hms : ∀ m ∈ ms, m.2.same m.2 = true) : sameMembers seen ms (before ++ ms) = true := by
  induction ms generalizing seen before with
  | nil => rfl
  | cons m ms ih =>
    obtain ⟨name, x⟩ := m
    have rest := @ih (name :: seen) (before ++ [(name, x)])
      (by intro other; simp [hseen, OrderedMap.keys, eq_comm, or_comm])
      (fun m hm => hms m (List.mem_cons_of_mem _ hm))
    rw [List.append_assoc, List.singleton_append] at rest
    simp only [sameMembers, rest, Bool.and_true, Bool.or_eq_true]
    by_cases h : name ∈ seen
    · exact .inl (by simpa using h)
    · have hget : OrderedMap.get? (before ++ (name, x) :: ms) name = some x :=
        OrderedMap.get?_append_of_notMem (fun hk => h ((hseen name).2 hk)) _ _
      exact .inr (by rw [hget]; exact hms _ List.mem_cons_self)

mutual

theorem same_refl : ∀ v : Json, v.same v = true
  | .null => rfl
  | .bool b => by simp [same]
  | .number n => by simp [same]
  | .string s => by simp [same]
  | .array xs => by simp [same, sameItems_refl xs]
  | .object ms => by
    simp only [same, beq_self_eq_true, Bool.true_and]
    exact sameMembers_append [] ms (by simp) (members_same ms)

theorem sameItems_refl : ∀ xs : List Json, sameItems xs xs = true
  | [] => rfl
  | x :: xs => by simp [sameItems, same_refl x, sameItems_refl xs]

theorem members_same : ∀ ms : List (String × Json), ∀ m ∈ ms, m.2.same m.2 = true
  | [], m, hm => by simp at hm
  | (name, x) :: ms, m, hm => by
    rcases List.mem_cons.1 hm with rfl | hm
    · exact same_refl x
    · exact members_same ms m hm

end

end Json

end SchemaCatalog
