import SchemaCatalog.Proofs.Resolution.Produced
import SchemaCatalog.Proofs.Resolution.Session

/-!
# What is produced is read back from its value

A node that comes of decoding and resolving repeats keywords where a reference stood in company.
It is written as one keyword for each name and reading the value gives the same node back, but for
the keys of entries that go by position (`Produced.decode_of_encode`).  All that documents must have
for this lasts through resolution: `Keyword.Proper` for the first part of the theorem and
`Keyword.ListsEntries` for the second.
-/

namespace SchemaCatalog

open Resolution

theorem Produced.proper {D : Json → Prop} {n : Node} (h : Produced D n) :
    n.Throughout (Node.Carries Keyword.Proper) :=
  h.throughout Keyword.lasting_proper fun _ _ hv _ hdecode => Node.proper_of_decode hv hdecode

/-- **Decoding undoes encoding, for merged nodes too.**  If a node that is produced from documents
has a value, then there is a node `m` that is the same as it, and the value is decoded to `m` with
the entries that go by position under their positions.  If all documents have such entries in
arrays, what is decoded is the same as the node itself. -/
theorem Produced.decode_of_encode {D : Json → Prop} {n : Node} {v : Json} (tree : Produced D n)
    (hv : n.encode = .ok v) :
    ∃ m, (m.same n = true ∧ n.same m = true) ∧ Node.decode v = .ok m.positional ∧
      ((∀ d, D d → d.ListsEntries) →
        m.positional.same n = true ∧ n.same m.positional = true) := by
  obtain ⟨m, hfolds, hback⟩ := Node.readsBack_of_encode tree.proper hv
  refine ⟨m, hfolds.same.symm, hback.decode, fun hD => ?_⟩
  have hlists : n.Throughout (Node.Carries Keyword.ListsEntries) :=
    tree.throughout Keyword.lasting_listsEntries
      fun d _ _ hd hdecode => Node.listsEntries_of_decode (hD d hd) hdecode
  have hpositional : m.positional = m := Node.positional_eq_self <|
    hfolds.listsEntries fun c hc => (hlists.of_mem_nodes hc).self.keywords
  rw [hpositional]
  exact hfolds.same.symm

/-! ## Entries of two schemas in one -/

/-- A document with entries of its own and those of a schema that it refers to. -/
def Json.sharedErrors : Json :=
  .object [("errors", .array [.bool true]), ("$ref", .string "#/definitions/base"),
    ("definitions", .object [("base", .object [("errors", .array [.bool false])])])]

/-- The document as a node. -/
def Node.sharedErrors : Node :=
  .ofKeywords [.keyed .errors [("0", .ofBool true)], .ref "#/definitions/base",
    .keyed .definitions [("base", .ofKeywords [.keyed .errors [("0", .ofBool false)]])]]

/-- The schemas of the document are the document, the one it refers to and their entries. -/
lemma Json.listsEntries_sharedErrors : sharedErrors.ListsEntries := by
  have base {u : Json} (h : HasSchema (.object [("errors", .array [.bool false])]) u) :
      u = .bool false := by
    obtain ⟨_, ⟨⟩, m, hm, hu⟩ := h
    obtain rfl := List.mem_singleton.1 hm
    exact List.mem_singleton.1 hu
  have all {u : Json} (h : Relation.ReflTransGen HasSchema sharedErrors u) :
      u = sharedErrors ∨ u = .object [("errors", .array [.bool false])] ∨ ∃ b, u = .bool b := by
    induction h with
    | refl => exact .inl rfl
    | tail _ hu ih =>
      rcases ih with rfl | rfl | ⟨b, rfl⟩
      · obtain ⟨_, ⟨⟩, m, hm, hu⟩ := hu
        simp only [List.mem_cons, List.not_mem_nil, or_false] at hm
        rcases hm with rfl | rfl | rfl
        · exact .inr (.inr ⟨true, List.mem_singleton.1 hu⟩)
        · exact hu.elim
        · exact .inr (.inl (List.mem_singleton.1 hu))
      · exact .inr (.inr ⟨false, base hu⟩)
      · obtain ⟨_, ⟨⟩, -⟩ := hu
  intro members h m hm hname
  rcases all h with hobject | hobject | ⟨b, hb⟩
  · obtain rfl := Json.object.inj hobject
    simp only [List.mem_cons, List.not_mem_nil, or_false] at hm
    rcases hm with rfl | rfl | rfl
    · exact ⟨_, rfl⟩
    · simp at hname
    · simp at hname
  · obtain rfl := Json.object.inj hobject
    obtain rfl := List.mem_singleton.1 hm
    exact ⟨_, rfl⟩
  · cases hb

/-- Resolved, the document has two lists of entries, and it is read back from its value, which has
one. -/
theorem Resolution.readBack_sharedErrors :
    ∃ n v n', Produced Json.ListsEntries n ∧
      n.keywords.map Keyword.name = ["errors", "definitions", "errors"] ∧ n.encode = .ok v ∧
      Node.decode v = .ok n' ∧ n'.same n = true ∧ n.same n' = true := by
  have hdecode : Node.decode Json.sharedErrors = .ok Node.sharedErrors := by cbv
  have hdistinct : Json.sharedErrors.hasDistinctNames = true := by decide +kernel
  obtain ⟨n, hproduced, hn⟩ := Produced.of_document 3 (.inMemory "shared")
    (fun n => n.keywords.map Keyword.name == ["errors", "definitions", "errors"] &&
      n.encodeFully.isOk) hdistinct Json.listsEntries_sharedErrors hdecode (by decide +kernel)
  obtain ⟨hnames, hok⟩ := Bool.and_eq_true_iff.1 hn
  obtain ⟨v, hv⟩ := exists_eq_ok_of_isOk hok
  rw [← Node.encode_eq_encodeFully] at hv
  obtain ⟨m, -, hback, hsame⟩ := Produced.decode_of_encode hproduced hv
  exact ⟨n, v, m.positional, hproduced, eq_of_beq hnames, hv, hback, hsame fun _ hd => hd⟩

end SchemaCatalog
