import SchemaCatalog.Proofs.Json.DistinctNames
import SchemaCatalog.Proofs.OrderedMap
import SchemaCatalog.Proofs.SameElements

/-!
# Equality of JSON values is an equivalence

Objects are compared by looking the members of the one up in the other, which is an equality of
maps as long as neither of the two repeats a name (`Json.same_object_iff`).  Among values with
distinct names, those that a reader returns, `Json.same` is an equivalence
(`Json.equivalenceOn_same`).
-/

namespace SchemaCatalog.Json

/-- What holds of a value as soon as it holds of its items and of the values of its members, holds
of every value. -/
theorem induction_nested {motive : Json → Prop} (null : motive .null)
    (bool : ∀ b, motive (.bool b)) (number : ∀ n, motive (.number n))
    (string : ∀ s, motive (.string s))
    (array : ∀ items, (∀ v ∈ items, motive v) → motive (.array items))
    (object : ∀ members : List (String × Json),
      (∀ m ∈ members, motive m.2) → motive (.object members)) (v : Json) : motive v := by
  induction hsize : sizeOf v using Nat.strongRecOn generalizing v with
  | ind size ih =>
    cases v with
    | null => exact null
    | bool b => exact bool b
    | number n => exact number n
    | string s => exact string s
    | array items =>
      refine array items fun u hu => ih (sizeOf u) ?_ u rfl
      have := List.sizeOf_lt_of_mem hu
      rw [Json.array.sizeOf_spec] at hsize
      omega
    | object members =>
      refine object members fun m hm => ih (sizeOf m.2) ?_ m.2 rfl
      have := List.sizeOf_lt_of_mem hm
      have : sizeOf m = 1 + sizeOf m.1 + sizeOf m.2 := Prod.mk.sizeOf_spec m.1 m.2
      rw [Json.object.sizeOf_spec] at hsize
      omega

lemma sameItems_iff {xs ys : List Json} :
    sameItems xs ys = true ↔ List.Forall₂ (fun x y => x.same y = true) xs ys := by
  induction xs generalizing ys with
  | nil => cases ys <;> simp [sameItems]
  | cons x xs ih => cases ys <;> simp [sameItems, ih]

/-- Members with new and distinct names are looked up one by one. -/
lemma sameMembers_iff {seen : List String} {ms ns : List (String × Json)}
    (hms : (OrderedMap.keys ms).Nodup) (hnew : ∀ m ∈ ms, m.1 ∉ seen) :
    sameMembers seen ms ns = true ↔
      ∀ m ∈ ms, ∃ y, OrderedMap.get? ns m.1 = some y ∧ m.2.same y = true := by
  induction ms generalizing seen with
  | nil => simp [sameMembers]
  | cons m ms ih =>
    obtain ⟨name, x⟩ := m
    obtain ⟨hname, hms⟩ := List.nodup_cons.1 hms
    obtain ⟨hhead, hnew⟩ := List.forall_mem_cons.1 hnew
    have hfirst : seen.contains name = false := by simpa using hhead
    have hlater : ∀ m ∈ ms, m.1 ∉ name :: seen := by
      intro m hm hmem
      have hkey : m.1 ∈ OrderedMap.keys ms := OrderedMap.mem_keys_of_mem hm
      rcases List.mem_cons.1 hmem with hfirst | hmem
      · exact hname (hfirst ▸ hkey)
      · exact hnew m hm hmem
    rw [sameMembers, Bool.and_eq_true, ih hms hlater, hfirst, Bool.false_or,
      List.forall_mem_cons]
    refine and_congr_left fun _ => ?_
    cases OrderedMap.get? ns name <;> simp

/-- Objects with distinct names are equal if and only if they are as maps. -/
theorem same_object_iff {ms ns : List (String × Json)} (hms : (OrderedMap.keys ms).Nodup)
    (hns : (OrderedMap.keys ns).Nodup) :
    (object ms).same (object ns) = true ↔
      OrderedMap.SameMap (fun x y => x.same y = true) ms ns := by
  rw [same, Bool.and_eq_true, beq_iff_eq, sameMembers_iff hms fun _ _ => List.not_mem_nil]
  refine and_congr_right fun _ => forall₂_congr fun m _ => ?_
  simp only [OrderedMap.get?_eq_some_iff hns]

lemma same_symm {v w : Json} (hv : v.hasDistinctNames = true) (hw : w.hasDistinctNames = true)
    (h : v.same w = true) : w.same v = true := by
  induction v using induction_nested generalizing w with
  | array items ih =>
    cases w with
    | array items' =>
      rw [same, sameItems_iff] at h ⊢
      rw [hasDistinctNames_array] at hv hw
      exact forall₂_symm h fun x hx y hy => ih x hx (hv x hx) (hw y hy)
    | _ => cases h
  | object members ih =>
    cases w with
    | object members' =>
      rw [hasDistinctNames_object] at hv hw
      rw [same_object_iff hv.1 hw.1] at h
      rw [same_object_iff hw.1 hv.1]
      exact h.symm hv.1 hw.1 fun e he f hf hef => ih e he (hv.2 e he) (hw.2 f hf) hef
    | _ => cases h
  | number n => cases w <;> simp_all [same, Number.same_comm]
  | _ => cases w <;> simp_all [same]

lemma same_trans {u v w : Json} (hu : u.hasDistinctNames = true) (hv : v.hasDistinctNames = true)
    (hw : w.hasDistinctNames = true) (huv : u.same v = true) (hvw : v.same w = true) :
    u.same w = true := by
  induction u using induction_nested generalizing v w with
  | array items ih =>
    cases v <;> try cases huv
    cases w <;> try cases hvw
    rw [same, sameItems_iff] at huv hvw ⊢
    rw [hasDistinctNames_array] at hu hv hw
    exact forall₂_trans huv hvw fun x hx y hy z hz => ih x hx (hu x hx) (hv y hy) (hw z hz)
  | object members ih =>
    cases v <;> try cases huv
    cases w <;> try cases hvw
    rw [hasDistinctNames_object] at hu hv hw
    rw [same_object_iff hu.1 hv.1] at huv
    rw [same_object_iff hv.1 hw.1] at hvw
    rw [same_object_iff hu.1 hw.1]
    exact huv.trans hvw fun e he f hf g hg =>
      ih e he (hu.2 e he) (hv.2 f hf) (hw.2 g hg)
  | number n =>
    cases v <;> try cases huv
    cases w <;> try cases hvw
    exact Number.same_trans huv hvw
  | _ => cases v <;> cases w <;> simp_all [same]

theorem equivalenceOn_same : EquivalenceOn (fun v => v.hasDistinctNames = true) same where
  refl := same_refl
  symm := same_symm
  trans := same_trans

end SchemaCatalog.Json
