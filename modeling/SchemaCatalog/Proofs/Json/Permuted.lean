import SchemaCatalog.Proofs.Json.Equality
import SchemaCatalog.Schema.Pointer

/-!
# Members in another order

`Json.Permuted` relates two values of which the one comes of the other by permuting the members of
objects, at any depth.  The order of items is not touched.  As long as no object repeats a name, a
path leads to such a pair of values again (`Permuted.at?`).
-/

namespace SchemaCatalog.Json

/-- Whether a value comes of another one by permuting the members of objects.  The relation `R` is
any that the relation itself contains. -/
inductive Permuted : Json → Json → Prop where
  | null : Permuted .null .null
  | bool {b : Bool} : Permuted (.bool b) (.bool b)
  | number {n : Number} : Permuted (.number n) (.number n)
  | string {s : String} : Permuted (.string s) (.string s)
  | array {items items' : List Json} {R : Json → Json → Prop}
      (sub : ∀ v w, R v w → Permuted v w) (related : List.Forall₂ R items items') :
      Permuted (.array items) (.array items')
  | object {members members' : List (String × Json)} {R : Json → Json → Prop}
      (sub : ∀ v w, R v w → Permuted v w)
      (matched : Matched (fun m m' => m.1 = m'.1 ∧ R m.2 m'.2) members members') :
      Permuted (.object members) (.object members')

variable {v w u : Json}

lemma permuted_array_iff {items : List Json} : (array items).Permuted w ↔
    ∃ items', w = .array items' ∧ List.Forall₂ Permuted items items' := by
  constructor
  · rintro (_ | _ | _ | _ | ⟨sub, related⟩)
    exact ⟨_, rfl, related.imp sub⟩
  · rintro ⟨items', rfl, related⟩
    exact .array (fun _ _ h => h) related

lemma permuted_object_iff {members : List (String × Json)} : (object members).Permuted w ↔
    ∃ members', w = .object members' ∧
      Matched (fun m m' => m.1 = m'.1 ∧ m.2.Permuted m'.2) members members' := by
  constructor
  · rintro (_ | _ | _ | _ | _ | ⟨sub, matched⟩)
    exact ⟨_, rfl, matched.mono fun m m' h => ⟨h.1, sub _ _ h.2⟩⟩
  · rintro ⟨members', rfl, matched⟩
    exact .object (fun _ _ h => h) matched

namespace Permuted

lemma refl (v : Json) : v.Permuted v := by
  induction v using induction_nested with
  | null => exact .null
  | bool b => exact .bool
  | number n => exact .number
  | string s => exact .string
  | array items ih =>
    exact permuted_array_iff.2 ⟨items, rfl, List.forall₂_same.2 ih⟩
  | object members ih =>
    refine permuted_object_iff.2 ⟨members, rfl, .of_forall₂ (List.forall₂_same.2 ?_)⟩
    exact fun m hm => ⟨rfl, ih m hm⟩

lemma symm (h : v.Permuted w) : w.Permuted v := by
  induction h with
  | null => exact .null
  | bool => exact .bool
  | number => exact .number
  | string => exact .string
  | array sub related ih =>
    exact permuted_array_iff.2 ⟨_, rfl, related.flip.imp fun _ _ h => ih _ _ h⟩
  | object sub matched ih =>
    exact permuted_object_iff.2
      ⟨_, rfl, matched.flip.mono fun _ _ h => ⟨h.1.symm, ih _ _ h.2⟩⟩

lemma hasDistinctNames (h : v.Permuted w) (hv : v.hasDistinctNames = true) :
    w.hasDistinctNames = true := by
  induction h with
  | array _ related ih =>
    rw [hasDistinctNames_array] at hv ⊢
    intro u' hu'
    obtain ⟨u, hu, hR⟩ := (Matched.of_forall₂ related).exists_left hu'
    exact ih u u' hR (hv u hu)
  | object _ matched ih =>
    rw [hasDistinctNames_object] at hv ⊢
    refine ⟨(OrderedMap.keys_perm_of_matched matched).nodup hv.1, fun m' hm' => ?_⟩
    obtain ⟨m, hm, -, hR⟩ := matched.exists_left hm'
    exact ih m.2 m'.2 hR (hv.2 m hm)
  | _ => rfl

lemma string?_eq (h : v.Permuted w) : w.string? = v.string? := by
  cases h <;> rfl

lemma member? (h : v.Permuted w) (hv : v.hasDistinctNames = true) {name : String}
    (hu : v.member? name = some u) : ∃ u', w.member? name = some u' ∧ u.Permuted u' := by
  cases v with
  | object members =>
    obtain ⟨members', rfl, matched⟩ := permuted_object_iff.1 h
    have hw := hasDistinctNames_object.1 (h.hasDistinctNames hv)
    exact OrderedMap.exists_get?_of_matched matched hw.1 hu
  | _ => cases hu

/-- A path leads to a permuted value if it leads to one. -/
theorem at? (h : v.Permuted w) (hv : v.hasDistinctNames = true) {path : List String}
    (hu : v.at? path = some u) : ∃ u', w.at? path = some u' ∧ u.Permuted u' := by
  induction path generalizing v w with
  | nil =>
    obtain rfl : v = u := by simpa [Json.at?] using hu
    exact ⟨w, by simp [Json.at?], h⟩
  | cons name rest ih =>
    cases v with
    | array items =>
      obtain ⟨items', rfl, related⟩ := permuted_array_iff.1 h
      simp only [Json.at?, Option.bind_eq_bind, Option.bind_eq_some_iff] at hu ⊢
      obtain ⟨i, hi, x, hx, hu⟩ := hu
      obtain ⟨x', hx', hxx'⟩ := exists_getElem?_of_forall₂ related hx
      have hdistinct := hasDistinctNames_array.1 hv x (List.mem_of_getElem? hx)
      obtain ⟨u', hu', hpermuted⟩ := ih hxx' hdistinct hu
      exact ⟨u', ⟨i, hi, x', hx', hu'⟩, hpermuted⟩
    | object members =>
      have hw := h.hasDistinctNames hv
      obtain ⟨members', rfl, matched⟩ := permuted_object_iff.1 h
      rw [hasDistinctNames_object] at hv hw
      simp only [Json.at?, Option.bind_eq_bind, Option.bind_eq_some_iff] at hu ⊢
      obtain ⟨x, hx, hu⟩ := hu
      obtain ⟨x', hx', hpermuted⟩ := OrderedMap.exists_get?_of_matched matched hw.1 hx
      have hdistinct := hv.2 _ (OrderedMap.mem_of_get?_eq_some hx)
      obtain ⟨u', hu', hpermuted⟩ := ih hpermuted hdistinct hu
      exact ⟨u', ⟨x', hx', hu'⟩, hpermuted⟩
    | _ => simp [Json.at?] at hu

lemma eq_of_strings {names : List String} (h : (Json.array (names.map .string)).Permuted w) :
    w = .array (names.map .string) := by
  obtain ⟨items', rfl, related⟩ := permuted_array_iff.1 h
  clear h
  congr 1
  induction names generalizing items' with
  | nil => exact List.forall₂_nil_left_iff.1 related
  | cons name names ih =>
    obtain ⟨x, items', hx, htail, rfl⟩ := List.forall₂_cons_left_iff.1 related
    cases hx
    rw [List.map_cons, ih items' htail]

end Permuted

end SchemaCatalog.Json
