import Mathlib.Data.List.Nodup
import Mathlib.Tactic.Lemma
import SchemaCatalog.NameOrder

/-!
# Lists in the order of names, as maps

`NameOrder.put` looks for the place of an element by halving the list, and a search by halving is
right only in a list in order.  There it narrows two indices down: what stands below the lower one
has a lesser name and what stands from the upper one on a greater one (`Narrowed`).  So the place
it finds is the one that `NameOrder.place` walks up to, and the two put an element in alike
(`put_eq_place`).

A list in order is a map.  It is determined by its elements (`Ordered.ext`), it has at most one
of a name (`Ordered.eq_of_name_eq`), and after an element is put in it has that element and all
others that are not of its name (`mem_put`).
-/

namespace SchemaCatalog.NameOrder

variable {α : Type} {name : α → String} {key : String} {a b : α} {xs ys : List α}
variable {low high i : Nat}

/-! ## The search -/

/-- What a search in a list has learned: names below the lower index are less than the one it
looks for, and names from the upper index on are greater. -/
structure Narrowed (name : α → String) (key : String) (xs : List α) (low high : Nat) : Prop where
  le : low ≤ high
  fits : high ≤ xs.length
  below : ∀ (j : Nat) (hj : j < xs.length), j < low → name xs[j] < key
  above : ∀ (j : Nat) (hj : j < xs.length), high ≤ j → key < name xs[j]

namespace Narrowed

lemma whole : Narrowed name key xs 0 xs.length where
  le := Nat.zero_le _
  fits := Nat.le_refl _
  below _ _ hj := absurd hj (Nat.not_lt_zero _)
  above _ hj hle := absurd hj (Nat.not_lt.2 hle)

/-- A lesser name moves the lower index behind it. -/
lemma behind (h : Narrowed name key xs low high) (ordered : Ordered name xs) {m : Nat}
    (hm : m < xs.length) (hhigh : m < high) (hless : name xs[m] < key) :
    Narrowed name key xs (m + 1) high := by
  refine ⟨hhigh, h.fits, fun j hj hjm => ?_, h.above⟩
  by_cases heq : j = m
  · subst heq
    exact hless
  · have hlt : j < m := by omega
    exact String.lt_trans (List.pairwise_iff_getElem.1 ordered j m hj hm hlt) hless

/-- A greater name moves the upper index to it. -/
lemma upTo (h : Narrowed name key xs low high) (ordered : Ordered name xs) {m : Nat}
    (hm : m < xs.length) (hlow : low ≤ m) (hgreater : key < name xs[m]) :
    Narrowed name key xs low m := by
  refine ⟨hlow, by omega, h.below, fun j hj hmj => ?_⟩
  by_cases heq : j = m
  · subst heq
    exact hgreater
  · have hlt : m < j := by omega
    exact String.lt_trans hgreater (List.pairwise_iff_getElem.1 ordered m j hm hj hlt)

/-- Indices that have met divide the list. -/
lemma split (h : Narrowed name key xs i i) :
    (∀ x ∈ xs.take i, name x < key) ∧ ∀ x ∈ xs.drop i, key < name x := by
  constructor
  · intro x hx
    obtain ⟨j, hj, rfl⟩ := List.getElem_of_mem hx
    rw [List.length_take] at hj
    rw [List.getElem_take]
    exact h.below j (by omega) (by omega)
  · intro x hx
    obtain ⟨j, hj, rfl⟩ := List.getElem_of_mem hx
    rw [List.length_drop] at hj
    rw [List.getElem_drop]
    exact h.above (i + j) (by omega) (by omega)

end Narrowed

lemma name_of_search_ok {fits : high ≤ xs.length} (h : search name key xs low high fits = .ok i) :
    ∃ hi : i < xs.length, name xs[i] = key := by
  fun_induction search name key xs low high fits with
  | case1 low high fits hopen middle hmiddle found heq =>
    have hi : middle = i := Except.ok.inj h
    rw [← hi]
    exact ⟨hmiddle, heq⟩
  | case2 low high fits hopen middle hmiddle found hne hlt ih => exact ih h
  | case3 low high fits hopen middle hmiddle found hne hlt ih => exact ih h
  | case4 => cases h

/-- A search that finds nothing ends where the name would have to stand. -/
lemma narrowed_of_search_error (ordered : Ordered name xs) {fits : high ≤ xs.length}
    (narrowed : Narrowed name key xs low high)
    (h : search name key xs low high fits = .error i) : Narrowed name key xs i i := by
  fun_induction search name key xs low high fits with
  | case1 => cases h
  | case2 low high fits hopen middle hmiddle found hne hlt ih =>
    exact ih (narrowed.behind ordered hmiddle (by omega) hlt) h
  | case3 low high fits hopen middle hmiddle found hne hlt ih =>
    have hgreater : key < found := Std.lt_of_le_of_ne (String.not_lt.1 hlt) (Ne.symm hne)
    exact ih (narrowed.upTo ordered hmiddle (by omega) hgreater) h
  | case4 low high fits hclosed =>
    have hmet : high = low := Nat.le_antisymm (Nat.not_lt.1 hclosed) narrowed.le
    subst hmet
    cases h
    exact narrowed

/-! ## Putting an element in -/

lemma place_append {before after : List α} (h : ∀ x ∈ before, name x < name a) :
    place name a (before ++ after) = before ++ place name a after := by
  induction before with
  | nil => rfl
  | cons b before ih =>
    obtain ⟨hb, hbefore⟩ := List.forall_mem_cons.1 h
    have hne : ¬ name a = name b := fun heq => String.lt_irrefl _ (heq ▸ hb)
    have hnlt : ¬ name a < name b := String.lt_asymm hb
    rw [List.cons_append, place, if_neg hne, if_neg hnlt, ih hbefore, List.cons_append]

lemma place_of_forall_lt (h : ∀ x ∈ xs, name a < name x) : place name a xs = a :: xs := by
  cases xs with
  | nil => rfl
  | cons b xs =>
    have hb : name a < name b := h b List.mem_cons_self
    have hne : ¬ name a = name b := fun heq => String.lt_irrefl _ (heq ▸ hb)
    rw [place, if_neg hne, if_pos hb]

lemma insertIdx_append {before after : List α} (a : α) :
    (before ++ after).insertIdx before.length a = before ++ a :: after := by
  induction before with
  | nil => rfl
  | cons b before ih => simpa using ih

/-- Halving leads to the same place as walking along the list. -/
theorem put_eq_place (ordered : Ordered name xs) (a : α) : put name a xs = place name a xs := by
  unfold put
  split
  · next i hfound =>
    obtain ⟨hi, hname⟩ := name_of_search_ok hfound
    have hbefore : ∀ x ∈ xs.take i, name x < name a := by
      intro x hx
      obtain ⟨j, hj, rfl⟩ := List.getElem_of_mem hx
      rw [List.length_take] at hj
      rw [List.getElem_take, ← hname]
      exact List.pairwise_iff_getElem.1 ordered j i (by omega) hi (by omega)
    have hsplit : xs = xs.take i ++ xs[i] :: xs.drop (i + 1) := by
      rw [List.getElem_cons_drop, List.take_append_drop]
    calc xs.set i a = xs.take i ++ a :: xs.drop (i + 1) := by
          rw [List.set_eq_take_append_cons_drop, if_pos hi]
      _ = xs.take i ++ place name a (xs[i] :: xs.drop (i + 1)) := by
          rw [place, if_pos hname.symm]
      _ = place name a (xs.take i ++ xs[i] :: xs.drop (i + 1)) := (place_append hbefore).symm
      _ = place name a xs := by rw [← hsplit]
  · next i hmissing =>
    have narrowed := narrowed_of_search_error ordered .whole hmissing
    obtain ⟨hbefore, hafter⟩ := narrowed.split
    have hi : (xs.take i).length = i := by
      rw [List.length_take]
      exact Nat.min_eq_left narrowed.fits
    calc xs.insertIdx i a = (xs.take i ++ xs.drop i).insertIdx (xs.take i).length a := by
          rw [List.take_append_drop, hi]
      _ = xs.take i ++ a :: xs.drop i := insertIdx_append a
      _ = xs.take i ++ place name a (xs.drop i) := by rw [place_of_forall_lt hafter]
      _ = place name a (xs.take i ++ xs.drop i) := (place_append hbefore).symm
      _ = place name a xs := by rw [List.take_append_drop]

lemma ordered_put (ordered : Ordered name xs) (a : α) : Ordered name (put name a xs) := by
  rw [put_eq_place ordered]
  exact ordered_place name ordered

/-! ## Lists in order as maps -/

namespace Ordered

lemma eq_of_name_eq (ordered : Ordered name xs) (ha : a ∈ xs) (hb : b ∈ xs)
    (h : name a = name b) : a = b := by
  obtain ⟨i, hi, rfl⟩ := List.getElem_of_mem ha
  obtain ⟨j, hj, rfl⟩ := List.getElem_of_mem hb
  rcases Nat.lt_trichotomy i j with hlt | rfl | hgt
  · have := List.pairwise_iff_getElem.1 ordered i j hi hj hlt
    exact absurd (h ▸ this) (String.lt_irrefl _)
  · rfl
  · have := List.pairwise_iff_getElem.1 ordered j i hj hi hgt
    exact absurd (h ▸ this) (String.lt_irrefl _)

lemma nodup_names (ordered : Ordered name xs) : (xs.map name).Nodup := by
  rw [List.Nodup, List.pairwise_map]
  refine List.Pairwise.imp (fun {x y} (hlt : name x < name y) heq => ?_) ordered
  exact absurd (heq ▸ hlt) (String.lt_irrefl _)

lemma ext (hx : Ordered name xs) (hy : Ordered name ys) (h : ∀ x, x ∈ xs ↔ x ∈ ys) : xs = ys := by
  have hperm : xs.Perm ys :=
    (List.perm_ext_iff_of_nodup hx.nodup_names.of_map hy.nodup_names.of_map).2 h
  refine hperm.eq_of_pairwise (fun x y _ _ hxy hyx => ?_) hx hy
  exact absurd hxy (String.lt_asymm hyx)

lemma find?_eq_some_iff (ordered : Ordered name xs) :
    xs.find? (name · == key) = some a ↔ a ∈ xs ∧ name a = key := by
  constructor
  · intro hfind
    have hname := List.find?_some (p := (name · == key)) hfind
    exact ⟨List.mem_of_find?_eq_some hfind, eq_of_beq hname⟩
  · rintro ⟨ha, rfl⟩
    cases hfind : xs.find? (name · == name a) with
    | none => exact absurd (List.find?_eq_none.1 hfind a ha) (by simp)
    | some b =>
      have hname := List.find?_some (p := (name · == name a)) hfind
      rw [ordered.eq_of_name_eq (List.mem_of_find?_eq_some hfind) ha (eq_of_beq hname)]

end Ordered

/-- An element that is put in takes the place of the one of its name. -/
lemma mem_put (ordered : Ordered name xs) {x : α} :
    x ∈ put name a xs ↔ x = a ∨ x ∈ xs ∧ name x ≠ name a := by
  rw [put_eq_place ordered]
  induction xs with
  | nil => simp [place]
  | cons b xs ih =>
    obtain ⟨hb, hxs⟩ := List.pairwise_cons.1 ordered
    unfold place
    split
    · next heq =>
      have hother : ∀ y ∈ xs, name y ≠ name a := fun y hy h =>
        String.lt_irrefl _ (h ▸ heq ▸ hb y hy)
      grind
    · next hne =>
      split
      · next hlt =>
        have hother : ∀ y ∈ xs, name y ≠ name a := fun y hy h =>
          String.lt_irrefl _ (String.lt_trans hlt (h ▸ hb y hy))
        grind
      · next hnlt =>
        rw [List.mem_cons, ih hxs, List.mem_cons]
        grind

end SchemaCatalog.NameOrder
