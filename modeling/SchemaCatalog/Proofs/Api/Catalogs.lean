import SchemaCatalog.Api.Catalog
import SchemaCatalog.Proofs.Api.Shapes

/-!
# Projecting catalogs

The model of resolved documents is made of methods, whose parameters and responses have shapes,
and of errors.  Shapes fail where properties share a name, and nothing else in a catalog can fail
but that a name of a method or of an error comes twice.  So of documents in which no properties
share a name there is a model, or there are two methods or two errors of one name
(`Api.ofDocuments_cases`).
-/

namespace SchemaCatalog

open Api

/-! ## Methods -/

namespace Node

variable {n : Node}

lemma exists_shape_of_nodes (h : ∀ c ∈ n.nodes, ¬ c.RepeatsProperty) (name : Option String) :
    ∃ o, n.shape name = .ok o :=
  exists_shape_iff.2 fun c hc => h c hc.mem_nodes

lemma exists_namedShapes {members : List (String × Node)}
    (h : ∀ c ∈ OrderedMap.values members, ∀ d ∈ c.nodes, ¬ d.RepeatsProperty) :
    ∃ shapes, namedShapes members = .ok shapes :=
  exists_mapM_eq_ok_iff.2 fun e he => exists_shape_of_nodes (h e.2 (List.mem_map_of_mem he)) _

lemma exists_signature {ks : List Keyword}
    (h : ∀ k ∈ ks, ∀ c ∈ k.nested, ∀ d ∈ c.nodes, ¬ d.RepeatsProperty) :
    ∃ p, signature ks = .ok p := by
  induction ks with
  | nil => exact ⟨([], []), rfl⟩
  | cons k ks ih =>
    obtain ⟨hk, hks⟩ := List.forall_mem_cons.1 h
    obtain ⟨⟨parameters, responses⟩, hlater⟩ := ih hks
    have skip (heq : signature (k :: ks) = signature ks) : ∃ p, signature (k :: ks) = .ok p :=
      ⟨_, heq.trans hlater⟩
    cases k with
    | keyed kind members =>
      cases kind with
      | parameters =>
        obtain ⟨here, hhere⟩ := exists_namedShapes hk
        refine ⟨(here ++ parameters, responses), ?_⟩
        rw [signature, hhere, hlater]
        rfl
      | responses =>
        obtain ⟨here, hhere⟩ := exists_namedShapes hk
        refine ⟨(parameters, here ++ responses), ?_⟩
        rw [signature, hhere, hlater]
        rfl
      | _ => exact skip rfl
    | _ => exact skip rfl

variable (h : ∀ c ∈ n.nodes, ¬ c.RepeatsProperty)
include h

lemma exists_method (fullName : String) : ∃ m, n.method fullName = .ok m := by
  obtain ⟨⟨parameters, responses⟩, hsignature⟩ := exists_signature fun k hk c hc d hd =>
    h d (mem_nodes_of_nested hk hc hd)
  rw [method, hsignature]
  exact ⟨_, rfl⟩

theorem exists_methodCatalog : ∃ methods, n.methodCatalog = .ok methods := by
  refine exists_bind_eq_ok (exists_mapM_eq_ok_iff.2 fun e he => ?_) fun _ => ⟨_, rfl⟩
  obtain ⟨k, hk, hnested⟩ := exists_nested_of_mem_entries he
  have hschema : ∀ c ∈ e.2.nodes, ¬ c.RepeatsProperty := fun c hc =>
    h c (mem_nodes_of_nested hk hnested hc)
  exact exists_bind_eq_ok (exists_method hschema e.1) fun _ => ⟨_, rfl⟩

omit h in
/-- The only fault of an error catalog is that a name comes twice. -/
lemma errorCatalog_eq_error {e : ProjectError} (h : n.errorCatalog = .error e) :
    ∃ name, e = .duplicateError name := by
  obtain ⟨error, -, errors, h⟩ := foldlM_eq_error h
  unfold addError at h
  split at h
  · exact ⟨_, (Except.error.inj h).symm⟩
  · cases h

end Node

/-! ## Documents -/

namespace Api

variable {o : Options} {docs : List (Document × Node)}

/-- The only fault of a document in which no properties share a name is that it has a method of
a name that there is. -/
lemma addDocument_eq_error {c : Collected} {d : Document × Node} {e : ParseError}
    (hd : ∀ c ∈ d.2.nodes, ¬ c.RepeatsProperty) (h : addDocument o c d = .error e) :
    ∃ name, e = .project d.1.name (.duplicateMethod name) := by
  obtain ⟨catalog, hcatalog⟩ := Node.exists_methodCatalog hd
  unfold addDocument at h
  split at h
  · cases h
  dsimp only at h
  split at h
  · cases h
  rw [hcatalog] at h
  obtain ⟨m, -, c', h⟩ := foldlM_eq_error h
  unfold addMethod at h
  split at h
  · exact ⟨_, (Except.error.inj h).symm⟩
  · cases h

lemma errorsOf_eq_error {e : ParseError} (h : errorsOf o docs = .error e) :
    ∃ document name, e = .project document (.duplicateError name) := by
  unfold errorsOf at h
  split at h
  · cases h
  split at h
  case h_1 => cases h
  case h_2 d _ _ e' he' =>
    obtain ⟨name, rfl⟩ := Node.errorCatalog_eq_error he'
    exact ⟨d.1.name, name, (Except.error.inj h).symm⟩

/-- **Of documents in which no properties share a name there is a model, unless two methods or two
errors share one.** -/
theorem ofDocuments_cases (o : Options)
    (h : ∀ d ∈ docs, ∀ c ∈ d.2.nodes, ¬ c.RepeatsProperty) :
    (∃ api, ofDocuments o docs = .ok api) ∨ ∃ document name,
      ofDocuments o docs = .error (.project document (.duplicateMethod name)) ∨
      ofDocuments o docs = .error (.project document (.duplicateError name)) := by
  rcases hdocs : ofDocuments o docs with e | api
  · rw [ofDocuments] at hdocs
    rcases bind_eq_error_iff.1 hdocs with hmethods | ⟨_, -, hdocs⟩
    · obtain ⟨d, hd, _, hmethods⟩ := foldlM_eq_error hmethods
      obtain ⟨name, rfl⟩ := addDocument_eq_error (h d hd) hmethods
      exact .inr ⟨_, name, .inl rfl⟩
    rcases bind_eq_error_iff.1 hdocs with herrors | ⟨_, -, hdocs⟩
    · obtain ⟨document, name, rfl⟩ := errorsOf_eq_error herrors
      exact .inr ⟨document, name, .inr rfl⟩
    · cases hdocs
  · exact .inl ⟨api, rfl⟩

end Api

end SchemaCatalog
