/-!
# Lists in the order of names

A list whose elements have names is kept in strict order of these names, so that a name occurs
once and the way in which the elements came does not show. `NameOrder.place` puts an element in,
and `ordered_place` says that the order is kept.

`NameOrder.put` puts an element in as well, but looks for its place by halving the list. Halving
goes wrong in a list without order, so the two are the same only where the order was kept.
-/

namespace SchemaCatalog.NameOrder

variable {α : Type} (name : α → String)

/-- Put an element in its place; it takes the place of the one of its name. -/
def place (a : α) : List α → List α
  | [] => [a]
  | b :: bs =>
    if name a = name b then a :: bs
    else if name a < name b then a :: b :: bs
    else b :: place a bs

/-- Where an element of a name stands or, as an error, where it would have to be put in, between
two indices of a list. -/
def search (key : String) (xs : List α) (low high : Nat) (fits : high ≤ xs.length) :
    Except Nat Nat :=
  if hopen : low < high then
    let middle := (low + high) / 2
    have hmiddle : middle < xs.length := by omega
    let found := name xs[middle]
    if found = key then .ok middle
    else if found < key then search key xs (middle + 1) high fits
    else search key xs low middle (by omega)
  else .error low
termination_by high - low

/-- Put an element where the search for its name leads; it takes the place of one of its name. -/
def put (a : α) (xs : List α) : List α :=
  match search name (name a) xs 0 xs.length (Nat.le_refl _) with
  | .ok i => xs.set i a
  | .error i => xs.insertIdx i a

/-- Whether the names of a list increase strictly. -/
def Ordered (xs : List α) : Prop := xs.Pairwise fun a b => name a < name b

/-- What is in a list with one more element. -/
theorem mem_of_mem_place {a x : α} {xs : List α} (h : x ∈ place name a xs) : x = a ∨ x ∈ xs := by
  induction xs with
  | nil => simpa [place] using h
  | cons b bs ih =>
    unfold place at h
    split at h
    · grind
    · split at h <;> grind

/-- The order is kept. -/
theorem ordered_place {a : α} {xs : List α} (h : Ordered name xs) :
    Ordered name (place name a xs) := by
  induction xs with
  | nil => simp [place, Ordered]
  | cons b bs ih =>
    have hb : ∀ x ∈ bs, name b < name x := (List.pairwise_cons.1 h).1
    have hbs : Ordered name bs := (List.pairwise_cons.1 h).2
    unfold place
    split
    · next heq => exact List.pairwise_cons.2 ⟨fun x hx => heq ▸ hb x hx, hbs⟩
    · split
      · next hlt =>
        refine List.pairwise_cons.2 ⟨fun x hx => ?_, h⟩
        rcases List.mem_cons.1 hx with rfl | hx
        · exact hlt
        · exact String.lt_trans hlt (hb x hx)
      · next hne hnlt =>
        refine List.pairwise_cons.2 ⟨fun x hx => ?_, ih hbs⟩
        rcases mem_of_mem_place name hx with rfl | hx
        · exact Std.lt_of_le_of_ne (String.not_lt.1 hnlt) (Ne.symm hne)
        · exact hb x hx

end SchemaCatalog.NameOrder
