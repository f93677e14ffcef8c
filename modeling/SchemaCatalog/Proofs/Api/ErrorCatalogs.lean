import Mathlib.Data.List.Induction
import SchemaCatalog.Proofs.Api.Catalogs
import SchemaCatalog.Proofs.OrderedMap

/-!
# Error catalogs

The errors of a catalog come from all its `errors` keywords, one for each entry, and an error names
itself or is named by its key; so errors of different keywords and positions may meet under one
name.  They are written into a map one after the other, which goes on as long as the names are new
(`Node.addError_byName`).

Hence a catalog has its errors if and only if their names are distinct, and then the map lists them
in the order of the entries, each under its name.  Otherwise the error is the first name that is
there already (`Node.errorCatalog_iff`).
-/

namespace SchemaCatalog

open Api

/-- Errors under their names. -/
def Api.byName (errors : List Error) : OrderedMap String Error :=
  errors.map fun e => (e.name, e)

namespace Node

/-- The errors of all entries of a catalog, in order. -/
def listedErrors (n : Node) : List Api.Error :=
  (n.entries .errors).map fun e => e.2.error e.1

variable {errors before after : List Api.Error} {a : Api.Error}

/-! ## One error after the other -/

lemma keys_byName (errors : List Api.Error) :
    OrderedMap.keys (byName errors) = errors.map Api.Error.name := by
  rw [byName, OrderedMap.keys, List.map_map]
  rfl

/-- A further error goes to the end if its name is new, and is a fault if it is not. -/
lemma addError_byName (errors : List Api.Error) (a : Api.Error) :
    addError (byName errors) a =
      if a.name ∈ errors.map Api.Error.name then .error (.duplicateError a.name)
      else .ok (byName (errors ++ [a])) := by
  have htaken : OrderedMap.contains (byName errors) a.name = true ↔
      a.name ∈ errors.map Api.Error.name := by
    rw [OrderedMap.contains_iff_mem_keys, keys_byName]
  rw [addError]
  by_cases h : a.name ∈ errors.map Api.Error.name
  · rw [if_pos (htaken.2 h), if_pos h]
  · rw [if_neg (mt htaken.1 h), if_neg h, OrderedMap.insert_of_notMem (keys_byName errors ▸ h),
      byName, byName, List.map_append, List.map_singleton]

lemma foldlM_addError_of_nodup (h : (errors.map Api.Error.name).Nodup) :
    errors.foldlM addError [] = .ok (byName errors) := by
  induction errors using List.reverseRecOn with
  | nil => rfl
  | append_singleton errors a ih =>
    rw [List.map_append, List.map_singleton, ← List.concat_eq_append, List.nodup_concat] at h
    rw [List.foldlM_append, ih h.2]
    change [a].foldlM addError (byName errors) = _
    rw [List.foldlM_cons, addError_byName, if_neg h.1]
    rfl

/-- The first error whose name is there already is a fault, whatever comes after it. -/
lemma foldlM_addError_of_mem (h : (before.map Api.Error.name).Nodup)
    (ha : a.name ∈ before.map Api.Error.name) :
    (before ++ a :: after).foldlM addError [] = .error (.duplicateError a.name) := by
  rw [List.foldlM_append, foldlM_addError_of_nodup h]
  change (a :: after).foldlM addError (byName before) = _
  rw [List.foldlM_cons, addError_byName, if_pos ha]
  rfl

lemma exists_first_of_not_nodup (h : ¬ (errors.map Api.Error.name).Nodup) :
    ∃ before a after, errors = before ++ a :: after ∧ (before.map Api.Error.name).Nodup ∧
      a.name ∈ before.map Api.Error.name := by
  induction errors using List.reverseRecOn with
  | nil => exact absurd List.nodup_nil h
  | append_singleton errors a ih =>
    by_cases hfirst : (errors.map Api.Error.name).Nodup
    · refine ⟨errors, a, [], rfl, hfirst, ?_⟩
      by_contra hnew
      apply h
      rw [List.map_append, List.map_singleton, ← List.concat_eq_append]
      exact hfirst.concat hnew
    · obtain ⟨before, b, after, rfl, hbefore, hb⟩ := ih hfirst
      exact ⟨before, b, after ++ [a], by simp, hbefore, hb⟩

/-! ## The whole catalog -/

variable {n : Node}

lemma errorCatalog_eq_duplicateError (hlisted : n.listedErrors = before ++ a :: after)
    (hbefore : (before.map Api.Error.name).Nodup) (ha : a.name ∈ before.map Api.Error.name) :
    n.errorCatalog = .error (.duplicateError a.name) := by
  have hcatalog : n.errorCatalog = n.listedErrors.foldlM addError [] := rfl
  rw [hcatalog, hlisted, foldlM_addError_of_mem hbefore ha]

lemma errorCatalog_eq_ok_iff {catalog : OrderedMap String Api.Error} :
    n.errorCatalog = .ok catalog ↔
      (n.listedErrors.map Api.Error.name).Nodup ∧ catalog = byName n.listedErrors := by
  have hcatalog : n.errorCatalog = n.listedErrors.foldlM addError [] := rfl
  constructor
  · intro h
    by_cases hnodup : (n.listedErrors.map Api.Error.name).Nodup
    · rw [hcatalog, foldlM_addError_of_nodup hnodup] at h
      exact ⟨hnodup, (Except.ok.inj h).symm⟩
    · obtain ⟨before, a, after, hlisted, hbefore, ha⟩ := exists_first_of_not_nodup hnodup
      rw [errorCatalog_eq_duplicateError hlisted hbefore ha] at h
      cases h
  · rintro ⟨hnodup, rfl⟩
    rw [hcatalog, foldlM_addError_of_nodup hnodup]

/-- **What an error catalog holds.**  A catalog has errors if and only if all entries of its
`errors` keywords give errors of distinct names, and then it has one for each entry, in order, each
under its name.  Otherwise it fails with the first name that an entry before has given. -/
theorem errorCatalog_iff (n : Node) :
    ((∃ errors, n.errorCatalog = .ok errors) ↔ (n.listedErrors.map Api.Error.name).Nodup) ∧
    (∀ errors, n.errorCatalog = .ok errors ↔
      (n.listedErrors.map Api.Error.name).Nodup ∧ errors = byName n.listedErrors) ∧
    ∀ e, n.errorCatalog = .error e ↔ ∃ before a after, n.listedErrors = before ++ a :: after ∧
      (before.map Api.Error.name).Nodup ∧ a.name ∈ before.map Api.Error.name ∧
      e = .duplicateError a.name := by
  refine ⟨by simp only [errorCatalog_eq_ok_iff, exists_and_left, exists_eq, and_true],
    fun _ => errorCatalog_eq_ok_iff, fun e => ⟨fun he => ?_, ?_⟩⟩
  · have hrepeats : ¬ (n.listedErrors.map Api.Error.name).Nodup := by
      intro hnodup
      rw [errorCatalog_eq_ok_iff.2 ⟨hnodup, rfl⟩] at he
      cases he
    obtain ⟨before, a, after, hlisted, hbefore, ha⟩ := exists_first_of_not_nodup hrepeats
    rw [errorCatalog_eq_duplicateError hlisted hbefore ha] at he
    exact ⟨before, a, after, hlisted, hbefore, ha, (Except.error.inj he).symm⟩
  · rintro ⟨before, a, after, hlisted, hbefore, ha, rfl⟩
    exact errorCatalog_eq_duplicateError hlisted hbefore ha

end Node

end SchemaCatalog
