/-!
# Lists compared without regard to order

Two lists have the same elements when they are equally long and every element of the first has,
up to a given equality, as many equals in the one as in the other. Elements of the second that
have no equal in the first need no count of their own: the lengths leave no room for them.

`sameElements` counts an element as one equal of itself without comparing it, which for a
reflexive equality is no difference (`sameElements_eq_countP`) and keeps the comparison of deep
trees from visiting each tree twice at every level.
-/

namespace SchemaCatalog

universe u

variable {α : Type u}

/-- Whether each element of `after` has as many equals in `b` as there are in `before` and
`after` together, itself included. -/
def sameCounts (eq : α → α → Bool) (b : List α) : List α → List α → Bool
  | _, [] => true
  | before, x :: after =>
    (before.countP (eq · x) + 1 + after.countP (eq · x) == b.countP (eq · x)) &&
      sameCounts eq b (x :: before) after

/-- Whether two lists have the same elements in any order, each as often. -/
def sameElements (eq : α → α → Bool) (a b : List α) : Bool :=
  a.length == b.length && sameCounts eq b [] a

theorem sameCounts_eq_all {eq : α → α → Bool} (refl : ∀ x, eq x x = true)
    (b before after : List α) :
    sameCounts eq b before after =
      after.all fun x => (before ++ after).countP (eq · x) == b.countP (eq · x) := by
  induction after generalizing before with
  | nil => rfl
  | cons y after ih =>
    have moved : ∀ p : α → Bool,
        (y :: before ++ after).countP p = (before ++ y :: after).countP p := by
      intro p
      simp only [List.cons_append, List.countP_cons, List.countP_append]
      omega
    have head : before.countP (eq · y) + 1 + after.countP (eq · y) =
        (before ++ y :: after).countP (eq · y) := by
      simp only [List.countP_append, List.countP_cons, refl, if_true]
      omega
    simp only [sameCounts, ih, moved, head, List.all_cons]

/-- For a reflexive equality the elements of a list are counted as they stand. -/
theorem sameElements_eq_countP {eq : α → α → Bool} (refl : ∀ x, eq x x = true) (a b : List α) :
    sameElements eq a b =
      (a.length == b.length && a.all fun x => a.countP (eq · x) == b.countP (eq · x)) := by
  simp [sameElements, sameCounts_eq_all refl]

/-- A list has the same elements as itself. -/
theorem sameElements_refl {eq : α → α → Bool} (refl : ∀ x, eq x x = true) (a : List α) :
    sameElements eq a a = true := by
  simp [sameElements_eq_countP refl]

end SchemaCatalog
