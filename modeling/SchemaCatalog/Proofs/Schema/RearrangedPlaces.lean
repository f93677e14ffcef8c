import SchemaCatalog.Proofs.Schema.Rearranged

/-!
# Places in rearranged schemas

The order of members does not decide where a path leads, for no two keywords of a schema and no two
of its named schemas have one name: in a rearranged schema a path leads to a rearranged schema
(`Node.Rearranged.at?`).  So it is inside unrecognized members, whose plain JSON is decoded where
the path ends (`Node.Rearranged.buried`).
-/

namespace SchemaCatalog

/-- In unrecognized members a path leads to a rearranged schema. -/
lemma Facet.Rearranged.at? {a a' : Facet} (h : a.Rearranged a') {path : List String} {m : Node}
    (hm : a.at? path = some m) : ∃ m', a'.at? path = some m' ∧ m.Rearranged m' := by
  cases h with
  | unrecognized distinct permuted =>
    simp only [Facet.at?, Option.bind_eq_bind, Option.bind_eq_some_iff] at hm ⊢
    obtain ⟨w, hw, hm⟩ := hm
    obtain ⟨w', hw', hpermuted⟩ := permuted.at? distinct hw
    have hdistinct := (Json.within_at? hw).distinct distinct
    obtain ⟨m', hm', hrearranged⟩ :=
      Node.exists_decode_of_permuted hpermuted hdistinct (toOption_eq_some.1 hm)
    exact ⟨m', ⟨w', hw', toOption_eq_some.2 hm'⟩, hrearranged⟩
  | same known =>
    cases a with
    | unrecognized name v => exact absurd rfl (known name v)
    | _ => cases hm
  | _ => cases hm

/-- Under rearranged keywords a path leads to a rearranged schema, if that is so in the schemas. -/
lemma Keyword.Rearranged.keywordAt? {R : Node → Node → Prop} {k k' : Keyword}
    (h : Keyword.Rearranged R k k')
    (schemas : ∀ c c', R c c' → ∀ path m, c.at? path = some m →
      ∃ m', c'.at? path = some m' ∧ m.Rearranged m')
    {rest : List String} {m : Node} (hm : keywordAt? k rest = some m) :
    ∃ m', SchemaCatalog.keywordAt? k' rest = some m' ∧ m.Rearranged m' := by
  have lone {ns ns' : List Node} (hns : List.Forall₂ R ns ns') {rest : List String}
      (hm : loneAt? ns rest = some m) : ∃ m', loneAt? ns' rest = some m' ∧ m.Rearranged m' := by
    cases hns with
    | nil => cases hm
    | cons hc htail =>
      cases htail with
      | nil => exact schemas _ _ hc rest m hm
      | cons _ _ => cases hm
  cases h with
  | keyed distinct matched =>
    cases rest with
    | nil => cases hm
    | cons key rest =>
      simp only [SchemaCatalog.keywordAt?, memberAt?_eq, Option.bind_eq_some_iff] at hm ⊢
      obtain ⟨c, hc, hm⟩ := hm
      have hdistinct := (OrderedMap.keys_perm_of_matched matched).nodup distinct
      obtain ⟨c', hc', hR⟩ := OrderedMap.exists_get?_of_matched matched hdistinct hc
      obtain ⟨m', hm', hrearranged⟩ := schemas c c' hR rest m hm
      exact ⟨m', ⟨c', hc', hm'⟩, hrearranged⟩
  | @ordered kind ns ns' related =>
    cases rest with
    | nil => exact lone related hm
    | cons segment inner =>
      simp only [SchemaCatalog.keywordAt?] at hm ⊢
      cases hindex : index? segment with
      | none =>
        rw [hindex] at hm
        exact lone related hm
      | some i =>
        rw [hindex] at hm
        simp only [schemaAt?_eq, Option.bind_eq_some_iff] at hm ⊢
        obtain ⟨c, hc, hm⟩ := hm
        obtain ⟨c', hc', hR⟩ := exists_getElem?_of_forall₂ related hc
        obtain ⟨m', hm', hrearranged⟩ := schemas c c' hR inner m hm
        exact ⟨m', ⟨c', hc', hm'⟩, hrearranged⟩
  | additionalProperties related => exact schemas _ _ related rest m hm
  | ref => cases hm
  | facet rearranged => exact rearranged.at? hm

namespace Node.Rearranged

variable {n n' m : Node}

theorem at? (h : n.Rearranged n') {path : List String} (hm : n.at? path = some m) :
    ∃ m', n'.at? path = some m' ∧ m.Rearranged m' := by
  induction h generalizing path m with
  | @mk n n' R sub truth distinct matched ih =>
    have h : n.Rearranged n' := .mk sub truth distinct matched
    cases path with
    | nil =>
      rw [at?_nil] at hm ⊢
      obtain rfl := Option.some.inj hm
      exact ⟨n', rfl, h⟩
    | cons name rest =>
      rw [at?_cons] at hm
      obtain ⟨k, hk, hm⟩ := List.exists_of_findSome?_eq_some hm
      split at hm
      case isFalse => cases hm
      case isTrue hname =>
        obtain ⟨k', hk', hrel⟩ := matched.exists_right hk
        obtain ⟨m', hm', hrearranged⟩ :=
          hrel.keywordAt? (fun c c' hR path m => ih c c' hR) hm
        have hplace : n'.at? (k'.name :: rest) = some m' :=
          at?_of_mem_keywords (h.names_perm.nodup distinct) hk' hm'
        rw [← hrel.name_eq, hname] at hplace
        exact ⟨m', hplace, hrearranged⟩

lemma buried (h : n.Rearranged n') (hm : n.Buried m) : ∃ m', n'.Buried m' ∧ m.Rearranged m' := by
  obtain ⟨l, hl, a, ha, path, hm⟩ := hm
  obtain ⟨l', hl', hrearranged⟩ := h.exists_mem_nodes hl
  obtain ⟨k, hk, hfacet⟩ := List.mem_filterMap.1 ha
  obtain ⟨k', hk', hrel⟩ := (rearranged_iff.1 hrearranged).2.2.exists_right hk
  cases hrel with
  | @facet a₁ a' hfacets =>
    obtain rfl := Option.some.inj hfacet
    obtain ⟨m', hm', hm⟩ := hfacets.at? hm
    exact ⟨m', ⟨l', hl', a', List.mem_filterMap.2 ⟨_, hk', rfl⟩, path, hm'⟩, hm⟩
  | _ => cases hfacet

end Node.Rearranged

end SchemaCatalog
