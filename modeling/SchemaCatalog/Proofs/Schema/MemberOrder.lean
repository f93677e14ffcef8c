import SchemaCatalog.Proofs.Schema.Likewise
import SchemaCatalog.Proofs.Schema.Rearranged

/-!
# Decoding does not depend on the order of members

Values that differ in the order of members alone are the same value (`Json.same_of_permuted`), and the
schemas that are decoded from them are the same schema (`Node.same_of_rearranged`): no keyword comes
twice in them, so folding changes nothing and the keywords can be compared one by one.  Whether
there is a schema at all does not depend on the order either
(`Node.exists_decode_of_permuted`).

What all this needs is that no object repeats a name, which holds of every value that was read.
-/

namespace SchemaCatalog

lemma OrderedMap.SameMap.of_matched {κ α : Type} {R : α → α → Prop} {a b : OrderedMap κ α}
    (h : Matched (fun e f => e.1 = f.1 ∧ R e.2 f.2) a b) : SameMap R a b := by
  refine ⟨?_, fun e he => ?_⟩
  · obtain ⟨c, hac, hcb⟩ := h
    exact hac.length_eq.trans hcb.length_eq
  · obtain ⟨⟨key, y⟩, hy, rfl, hR⟩ := h.exists_right he
    exact ⟨y, hy, hR⟩

/-- **Members in another order make no other value.** -/
theorem Json.same_of_permuted {v w : Json} (h : v.Permuted w) (hv : v.hasDistinctNames = true) :
    v.same w = true := by
  induction h with
  | @array items items' R _ related ih =>
    rw [hasDistinctNames_array] at hv
    rw [Json.same, sameItems_iff]
    exact forall₂_imp_of_mem related fun u hu u' _ hR => ih u u' hR (hv u hu)
  | @object members members' R sub matched ih =>
    have hw := (Json.Permuted.object sub matched).hasDistinctNames hv
    rw [hasDistinctNames_object] at hv hw
    rw [same_object_iff hv.1 hw.1]
    refine .of_matched (matched.imp_of_mem fun m hm m' _ h => ⟨h.1, ?_⟩)
    exact ih m.2 m'.2 h.2 (hv.2 m hm)
  | _ => exact Json.same_refl _

lemma Facet.same_of_rearranged {a a' : Facet} (h : a.Rearranged a') (ha : a.Comparable) :
    a.same a' = true := by
  cases h with
  | unrecognized distinct permuted =>
    rw [Facet.same, Json.same_of_permuted permuted distinct, beq_self_eq_true, Bool.and_self]
  | enum permuted =>
    have hvalues := Json.permuted_array_iff.2 ⟨_, rfl, permuted⟩
    exact Json.same_of_permuted hvalues (Json.hasDistinctNames_array.2 ha)
  | default permuted => exact Json.same_of_permuted permuted ha
  | same _ => exact Facet.same_refl a

lemma Keyword.sameWith_of_rearranged {R : Node → Node → Prop} {eq : Node → Node → Bool}
    {k k' : Keyword} (h : Keyword.Rearranged R k k') (hk : k.Comparable) (hk' : k'.Comparable)
    (nested : ∀ c ∈ k.nested, ∀ c' ∈ k'.nested, R c c' → eq c c' = true) :
    k.sameWith eq k' = true := by
  cases h with
  | keyed _ matched =>
    have hmap := matched.imp_of_mem fun e he e' he' h =>
      And.intro h.1 (nested e.2 (List.mem_map_of_mem he) e'.2 (List.mem_map_of_mem he') h.2)
    rw [Keyword.sameWith, (sameMembersWith_iff hk hk').2 (.of_matched hmap), beq_self_eq_true,
      Bool.and_self]
  | ordered related =>
    rw [Keyword.sameWith, sameSchemasWith_iff.2 (forall₂_imp_of_mem related nested),
      beq_self_eq_true, Bool.and_self]
  | additionalProperties related =>
    exact nested _ (List.mem_singleton_self _) _ (List.mem_singleton_self _) related
  | ref => exact beq_self_eq_true _
  | facet rearranged => exact Facet.same_of_rearranged rearranged hk

namespace Node

/-- **Schemas with keywords and named schemas in another order are the same schema.** -/
theorem same_of_rearranged {n n' : Node} (h : n.Rearranged n') (hn : n.Single) (hn' : n'.Single) :
    n.same n' = true := by
  induction h with
  | @mk n n' R sub truth _ matched ih =>
    rw [same_eq_sameWith,
      equivalenceOn_same.sameWith_iff hn.comparable_keywords hn'.comparable_keywords]
    refine ⟨truth, .inl ⟨n.keywords, n'.keywords, Keyword.foldWith_of_nodup hn.names,
      Keyword.foldWith_of_nodup hn'.names, matched.imp_of_mem fun k hk k' hk' h => ?_⟩⟩
    refine Keyword.sameWith_of_rearranged h (hn.keywords k hk) (hn'.keywords k' hk') fun c hc c' hc' hR => ?_
    exact ih c c' hR (hn.nested hk hc) (hn'.nested hk' hc')

/-- **Decoding does not depend on the order of members.**  Of two values without repeated names
that differ in the order of members alone, at any depth and in any part, both are schemas or none
is, and the schemas are equal both ways. -/
theorem decode_of_permuted {v w : Json} (h : v.Permuted w) (hv : v.hasDistinctNames = true) :
    ((∃ n, decode v = .ok n) ↔ ∃ m, decode w = .ok m) ∧
      ∀ n m, decode v = .ok n → decode w = .ok m → n.same m = true ∧ m.same n = true := by
  have hw : w.hasDistinctNames = true := h.hasDistinctNames hv
  refine ⟨⟨fun ⟨n, hn⟩ => ?_, fun ⟨m, hm⟩ => ?_⟩, fun n m hn hm => ?_⟩
  · obtain ⟨m, hm, -⟩ := exists_decode_of_permuted h hv hn
    exact ⟨m, hm⟩
  · obtain ⟨n, hn, -⟩ := exists_decode_of_permuted h.symm hw hm
    exact ⟨n, hn⟩
  · obtain ⟨m', hm', hrearranged⟩ := exists_decode_of_permuted h hv hn
    obtain rfl : m' = m := Except.ok.inj (hm'.symm.trans hm)
    have hsn := single_of_decode hv hn
    have hsm := single_of_decode hw hm
    exact ⟨same_of_rearranged hrearranged hsn hsm, same_of_rearranged hrearranged.symm hsm hsn⟩

/-- An object of members in two orders, in a default with members in two orders. -/
theorem decode_swapped_members :
    let v : Json := .object [("type", .string "object"),
      ("default", .object [("a", .null), ("b", .bool true)])]
    let w : Json := .object [("default", .object [("b", .bool true), ("a", .null)]),
      ("type", .string "object")]
    (v.Permuted w ∧ v.hasDistinctNames = true) ∧ ∃ n m, decode v = .ok n ∧ decode w = .ok m ∧
      n.same m = true ∧ m.same n = true := by
  intro v w
  have hdefault : (Json.object [("a", .null), ("b", .bool true)]).Permuted
      (.object [("b", .bool true), ("a", .null)]) :=
    Json.permuted_object_iff.2
      ⟨_, rfl, _, List.forall₂_same.2 fun m _ => ⟨rfl, .refl m.2⟩, .swap _ _ _⟩
  have hpermuted : v.Permuted w := by
    refine Json.permuted_object_iff.2 ⟨_, rfl, _, ?_, .swap _ _ _⟩
    exact .cons ⟨rfl, .string⟩ (.cons ⟨rfl, hdefault⟩ .nil)
  have hdistinct : v.hasDistinctNames = true := by decide
  obtain ⟨⟨n, hn⟩, m, hm⟩ : (∃ n, decode v = .ok n) ∧ ∃ m, decode w = .ok m :=
    ⟨⟨_, rfl⟩, _, rfl⟩
  exact ⟨⟨hpermuted, hdistinct⟩, n, m, hn, hm, (decode_of_permuted hpermuted hdistinct).2 n m hn hm⟩

end Node

end SchemaCatalog
