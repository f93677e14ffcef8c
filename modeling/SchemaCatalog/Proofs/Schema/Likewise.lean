import SchemaCatalog.Proofs.Schema.Equivalence

/-!
# What equal schemas have in common

Where no keyword comes twice, folding leaves a schema as it is, and so equal schemas have keywords
that can be matched one by one (`Node.likewise_of_same`): facets that are equal, named schemas that
are equal under the same names, and listed schemas that are equal place by place
(`Keyword.Likewise`).  Schemas that are decoded from values without repeated names are such schemas,
at every depth (`Node.single_of_decode`).  Neither identities nor base addresses count
(`Node.same_of_forget`).
-/

namespace SchemaCatalog

/-- Keywords that are equal where the schemas in them are related by `R`. -/
inductive Keyword.Likewise (R : Node → Node → Prop) : Keyword → Keyword → Prop where
  | keyed {kind : KeyedKind} {members members' : List (String × Node)}
      (matched : Matched (fun e e' => e.1 = e'.1 ∧ R e.2 e'.2) members members') :
      Likewise R (.keyed kind members) (.keyed kind members')
  | ordered {kind : OrderedKind} {schemas schemas' : List Node}
      (related : List.Forall₂ R schemas schemas') :
      Likewise R (.ordered kind schemas) (.ordered kind schemas')
  | additionalProperties {schema schema' : Node} (related : R schema schema') :
      Likewise R (.additionalProperties schema) (.additionalProperties schema')
  | ref {target : String} : Likewise R (.ref target) (.ref target)
  | facet {a a' : Facet} (same : a.same a' = true) : Likewise R (.facet a) (.facet a')

/-- Whether no keyword comes twice in a schema, at any depth, and everything in it can be
compared. -/
def Node.Single (n : Node) : Prop :=
  ∀ c ∈ n.nodes, (c.keywords.map Keyword.name).Nodup ∧ ∀ k ∈ c.keywords, k.Comparable

namespace Node

variable {m n c : Node}

namespace Single

lemma names (h : n.Single) : (n.keywords.map Keyword.name).Nodup := (h n n.self_mem_nodes).1

lemma keywords (h : n.Single) : ∀ k ∈ n.keywords, k.Comparable := (h n n.self_mem_nodes).2

lemma comparable (h : n.Single) : n.Comparable := fun c hc => (h c hc).2

lemma of_mem_nodes (h : n.Single) (hc : c ∈ n.nodes) : c.Single :=
  fun d hd => h d (mem_nodes_trans hc hd)

lemma nested (h : n.Single) {k : Keyword} (hk : k ∈ n.keywords) (hc : c ∈ k.nested) : c.Single :=
  h.of_mem_nodes (mem_nodes_of_nested hk hc c.self_mem_nodes)

/-- What `EquivalenceOn.sameWith_iff` needs of a schema. -/
lemma comparable_keywords (h : n.Single) : ∀ k ∈ n.keywords, k.Comparable ∧ k.All Node.Comparable :=
  fun k hk => ⟨h.keywords k hk, fun _ hc => (h.nested hk hc).comparable⟩

end Single

/-- What is decoded from a value without repeated names has no repeated keywords. -/
theorem single_of_decode {v : Json} (hv : v.hasDistinctNames = true) (h : decode v = .ok n) :
    n.Single := by
  have hthroughout : n.Throughout fun c =>
      (c.keywords.map Keyword.name).Nodup ∧ ∀ k ∈ c.keywords, k.Comparable := by
    refine throughout_of_decode (Q := fun v => v.hasDistinctNames = true)
      (fun _ _ hv hu => hu.hasDistinctNames hv) (fun v n hv h => ?_) hv h
    obtain ⟨b, rfl, rfl⟩ | ⟨members, ks, rfl, rfl, hks⟩ := decode_cases h
    · exact ⟨List.nodup_nil, fun k hk => absurd hk List.not_mem_nil⟩
    · obtain ⟨hnodup, hdistinct⟩ := Json.hasDistinctNames_object.1 hv
      refine ⟨?_, fun k hk => ?_⟩
      · rwa [ofKeywords, Keyword.names_of_reads hks]
      · obtain ⟨m, hm, hread⟩ := Keyword.exists_rel_of_mem hks.flip hk
        exact hread.comparable (hdistinct m hm)
  exact fun c hc => (hthroughout.of_mem_nodes hc).self

lemma single_of_ofBytes {bytes : ByteArray} (h : ofBytes bytes = .ok n) : n.Single := by
  obtain ⟨v, -, hv, hn⟩ := ofBytes_eq_ok_iff.1 h
  exact single_of_decode hv hn

lemma Single.of_forget (h : n.Single) (hforget : n.forget = m.forget) : m.Single := by
  intro c hc
  obtain ⟨d, hd, hdc⟩ := exists_mem_nodes hforget.symm hc
  have hrelated := related_of_forget hdc
  refine ⟨?_, fun k hk => ?_⟩
  · rw [Keyword.names_of_related hrelated]
    exact (h d hd).1
  · obtain ⟨j, hj, hjk⟩ := Keyword.exists_rel_of_mem hrelated.flip hk
    exact ((h d hd).2 j hj).related hjk

lemma same_of_forget (hn : n.Single) (h : n.forget = m.forget) : n.same m = true := by
  induction n using induction_nested generalizing m with
  | step n ih =>
    have hm := hn.of_forget h
    obtain ⟨htruth, hkeywords⟩ := forget_eq_forget_iff.1 h
    rw [same_eq_sameWith,
      equivalenceOn_same.sameWith_iff hn.comparable_keywords hm.comparable_keywords]
    refine ⟨htruth, .inl ⟨n.keywords, m.keywords, Keyword.foldWith_of_nodup hn.names,
      Keyword.foldWith_of_nodup hm.names, .of_forall₂ ?_⟩⟩
    refine forall₂_imp_of_mem hkeywords fun j hj k _ hjk => ?_
    exact Keyword.sameWith_of_related (hjk.mono fun c hc d hcd => ih j hj c hc (hn.nested hj hc) hcd)

end Node

/-- Keywords that are the same are likewise. -/
lemma Keyword.likewise_of_sameWith {eq : Node → Node → Bool} {j k : Keyword} (hj : j.Comparable)
    (hk : k.Comparable) (h : j.sameWith eq k = true) :
    Likewise (fun m n => m ∈ j.nested ∧ n ∈ k.nested ∧ eq m n = true) j k := by
  cases j <;> cases k <;> first | cases h | skip
  case keyed.keyed kind members kind' members' =>
    simp only [sameWith, Bool.and_eq_true, beq_iff_eq] at h
    obtain ⟨rfl, h⟩ := h
    refine .keyed ((((sameMembersWith_iff hj hk).1 h).matched hj).imp_of_mem fun e he f hf hef => ?_)
    exact ⟨hef.1, List.mem_map_of_mem he, List.mem_map_of_mem hf, hef.2⟩
  case ordered.ordered kind schemas kind' schemas' =>
    simp only [sameWith, Bool.and_eq_true, beq_iff_eq] at h
    obtain ⟨rfl, h⟩ := h
    exact .ordered (forall₂_imp_of_mem (sameSchemasWith_iff.1 h) fun m hm n hn hmn => ⟨hm, hn, hmn⟩)
  case additionalProperties.additionalProperties m n =>
    exact .additionalProperties ⟨List.mem_singleton_self m, List.mem_singleton_self n, h⟩
  case ref.ref =>
    simp only [sameWith, beq_iff_eq] at h
    subst h
    exact .ref
  case facet.facet => exact .facet h

namespace Keyword.Likewise

variable {R S : Node → Node → Prop} {j k : Keyword}

lemma mono (h : Likewise R j k) (sub : ∀ m n, R m n → S m n) : Likewise S j k := by
  cases h with
  | keyed matched => exact .keyed (matched.mono fun _ _ h => ⟨h.1, sub _ _ h.2⟩)
  | ordered related => exact .ordered (related.imp sub)
  | additionalProperties related => exact .additionalProperties (sub _ _ related)
  | ref => exact .ref
  | facet same => exact .facet same

end Keyword.Likewise

/-- **Equal schemas without repeated keywords have likewise keywords**, in some order. -/
theorem Node.likewise_of_same {m n : Node} (hm : m.Single) (hn : n.Single)
    (h : m.same n = true) : m.truth = n.truth ∧
      Matched (Keyword.Likewise fun c d => c.Single ∧ d.Single ∧ c.same d = true)
        m.keywords n.keywords := by
  rw [same_eq_sameWith,
    equivalenceOn_same.sameWith_iff hm.comparable_keywords hn.comparable_keywords] at h
  obtain ⟨htruth, ⟨a, b, ha, hb, hmatched⟩ | ⟨-, -, hmatched⟩⟩ := h
  · rw [Keyword.foldWith_of_nodup hm.names] at ha
    rw [Keyword.foldWith_of_nodup hn.names] at hb
    obtain rfl := Except.ok.inj ha
    obtain rfl := Except.ok.inj hb
    refine ⟨htruth, hmatched.imp_of_mem fun j hj k hk hjk => ?_⟩
    refine (Keyword.likewise_of_sameWith (hm.keywords j hj) (hn.keywords k hk) hjk).mono ?_
    exact fun c d ⟨hc, hd, hcd⟩ => ⟨hm.nested hj hc, hn.nested hk hd, hcd⟩
  · refine ⟨htruth, hmatched.imp_of_mem fun j hj k hk hjk => ?_⟩
    refine (Keyword.likewise_of_sameWith (hm.keywords j hj) (hn.keywords k hk) hjk).mono ?_
    exact fun c d ⟨hc, hd, hcd⟩ => ⟨hm.nested hj hc, hn.nested hk hd, hcd⟩

end SchemaCatalog
