import Mathlib.Tactic.Lemma
import SchemaCatalog.Json.Reader

/-!
# Member names of what is read

A JSON value is kept with the members of its objects in a list, and nothing in the type keeps a
name from coming twice.  The reader does: a member whose name comes again takes the place of the
one before, so that no object in a value that was read repeats a name
(`hasDistinctNames_of_readBytes?`).  The proof follows the machine.  Every value in the containers
that are still open has distinct names, every open object has, and a step keeps that so.
-/

namespace SchemaCatalog.Json

mutual

/-- Whether no object in a value repeats a member name. -/
def hasDistinctNames : Json → Bool
  | .array items => itemsHaveDistinctNames items
  | .object members => decide (OrderedMap.keys members).Nodup && membersHaveDistinctNames members
  | _ => true

/-- Whether no object in one of some items repeats a member name. -/
def itemsHaveDistinctNames : List Json → Bool
  | [] => true
  | v :: items => v.hasDistinctNames && itemsHaveDistinctNames items

/-- Whether no object in the value of one of some members repeats a member name. -/
def membersHaveDistinctNames : List (String × Json) → Bool
  | [] => true
  | (_, v) :: members => v.hasDistinctNames && membersHaveDistinctNames members

end

lemma itemsHaveDistinctNames_iff {items : List Json} :
    itemsHaveDistinctNames items = true ↔ ∀ v ∈ items, v.hasDistinctNames = true := by
  induction items with
  | nil => simp [itemsHaveDistinctNames]
  | cons v items ih => simp [itemsHaveDistinctNames, ih]

lemma membersHaveDistinctNames_iff {members : List (String × Json)} :
    membersHaveDistinctNames members = true ↔ ∀ m ∈ members, m.2.hasDistinctNames = true := by
  induction members with
  | nil => simp [membersHaveDistinctNames]
  | cons m members ih => simp [membersHaveDistinctNames, ih]

@[simp] lemma hasDistinctNames_array {items : List Json} :
    (array items).hasDistinctNames = true ↔ ∀ v ∈ items, v.hasDistinctNames = true := by
  rw [hasDistinctNames, itemsHaveDistinctNames_iff]

@[simp] lemma hasDistinctNames_object {members : List (String × Json)} :
    (object members).hasDistinctNames = true ↔
      (OrderedMap.keys members).Nodup ∧ ∀ m ∈ members, m.2.hasDistinctNames = true := by
  rw [hasDistinctNames, Bool.and_eq_true, decide_eq_true_iff, membersHaveDistinctNames_iff]

/-! ## Reading -/

/-- What holds of the members of an object that is still being read. -/
def DistinctMembers (members : OrderedMap String Json) : Prop :=
  (OrderedMap.keys members).Nodup ∧ ∀ m ∈ members, m.2.hasDistinctNames = true

lemma DistinctMembers.nil : DistinctMembers [] := ⟨List.nodup_nil, by simp⟩

lemma DistinctMembers.insert {members : OrderedMap String Json} (h : DistinctMembers members)
    (name : String) {v : Json} (hv : v.hasDistinctNames = true) :
    DistinctMembers (OrderedMap.insert members name v) := by
  refine ⟨OrderedMap.nodup_keys_insert h.1 name v, fun m hm => ?_⟩
  rcases OrderedMap.eq_or_mem_of_mem_insert hm with rfl | hm
  · exact hv
  · exact h.2 m hm

/-- What holds of a container that is still open. -/
def Frame.Distinct : Frame → Prop
  | .array done => ∀ v ∈ done, v.hasDistinctNames = true
  | .object done _ => DistinctMembers done

namespace Reading

/-- What holds of a reading: no object repeats a member name, be it complete or still open. -/
def Distinct : Reading → Prop
  | .value stack | .firstItem stack | .firstName stack => ∀ f ∈ stack, f.Distinct
  | .afterItem done stack => (∀ v ∈ done, v.hasDistinctNames = true) ∧ ∀ f ∈ stack, f.Distinct
  | .nextName done stack | .colon done _ stack | .afterMember done stack =>
    DistinctMembers done ∧ ∀ f ∈ stack, f.Distinct
  | .finished v => v.hasDistinctNames = true

lemma distinct_deliver {v : Json} {stack : List Frame} (hv : v.hasDistinctNames = true)
    (hstack : ∀ f ∈ stack, f.Distinct) : (deliver v stack).Distinct := by
  match stack, hstack with
  | [], _ => exact hv
  | .array done :: stack, hstack =>
    obtain ⟨hdone, hstack⟩ := List.forall_mem_cons.1 hstack
    exact ⟨List.forall_mem_cons.2 ⟨hv, hdone⟩, hstack⟩
  | .object done name :: stack, hstack =>
    obtain ⟨hdone, hstack⟩ := List.forall_mem_cons.1 hstack
    exact ⟨DistinctMembers.insert hdone name hv, hstack⟩

lemma distinct_start {stack : List Frame} {t : Token} {r : Reading} (h : start stack t = some r)
    (hstack : ∀ f ∈ stack, f.Distinct) : r.Distinct := by
  cases t with
  | openArray | openObject =>
    simp only [start, Option.ite_none_right_eq_some, Option.some.injEq] at h
    exact h.2 ▸ hstack
  | closeArray | closeObject | comma | colon => simp [start] at h
  | _ =>
    simp only [start, Option.some.injEq] at h
    exact h ▸ distinct_deliver rfl hstack

lemma distinct_step {r r' : Reading} {t : Token} (h : step r t = some r') (hr : r.Distinct) :
    r'.Distinct := by
  unfold step at h
  split at h
  case h_1 => exact distinct_start h hr
  case h_3 =>
    refine distinct_start h (List.forall_mem_cons.2 ⟨?_, hr⟩)
    exact fun v hv => absurd hv List.not_mem_nil
  case h_12 => cases h
  all_goals cases h
  case h_2 => exact distinct_deliver (by simp) hr
  case h_4 => exact List.forall_mem_cons.2 hr
  case h_5 =>
    refine distinct_deliver ?_ hr.2
    simpa using hr.1
  case h_6 => exact distinct_deliver (by simp) hr
  case h_7 => exact ⟨.nil, hr⟩
  case h_8 => exact hr
  case h_9 => exact List.forall_mem_cons.2 hr
  case h_10 => exact hr
  case h_11 => exact distinct_deliver (hasDistinctNames_object.2 hr.1) hr.2

lemma distinct_run {tokens : List Token} {r r' : Reading} (h : tokens.foldlM step r = some r')
    (hr : r.Distinct) : r'.Distinct := by
  induction tokens generalizing r with
  | nil =>
    obtain rfl : r = r' := by simpa using h
    exact hr
  | cons t tokens ih =>
    rw [List.foldlM_cons, Option.bind_eq_bind, Option.bind_eq_some_iff] at h
    obtain ⟨next, hnext, h⟩ := h
    exact ih h (distinct_step hnext hr)

end Reading

/-- A value that was read repeats no member name. -/
theorem hasDistinctNames_of_read? {text : List Char} {v : Json} (h : read? text = some v) :
    v.hasDistinctNames = true := by
  simp only [read?, Option.bind_eq_bind, Option.bind_eq_some_iff] at h
  obtain ⟨tokens, -, r, hrun, hresult⟩ := h
  have hr : r.Distinct :=
    Reading.distinct_run hrun fun f hf => absurd hf List.not_mem_nil
  cases r with
  | finished w =>
    obtain rfl := Option.some.inj hresult
    exact hr
  | _ => cases hresult

theorem hasDistinctNames_of_readBytes? {bytes : ByteArray} {v : Json}
    (h : readBytes? bytes = some v) : v.hasDistinctNames = true := by
  simp only [readBytes?, Option.bind_eq_bind, Option.bind_eq_some_iff] at h
  obtain ⟨text, -, h⟩ := h
  exact hasDistinctNames_of_read? h

end SchemaCatalog.Json
