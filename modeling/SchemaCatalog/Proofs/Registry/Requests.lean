import SchemaCatalog.Proofs.Api.Runs
import SchemaCatalog.Proofs.OrderedMap
import SchemaCatalog.Proofs.Resolution.Compositional

/-!
# What is asked of the source

A registry asks its source for a document when there is none under its address, and keeps what it
gets.  So as long as nothing goes wrong there is a document under every address that was asked for,
and no address can be asked for again (`Registry.Attentive`).  Where the source has no document or
none that can be decoded, the address has been asked for and there is still nothing under it; but
that is an error, and it ends the run.  What is left to say then is `Registry.AsksOnce`, and it
holds at the end of every run over a corpus, successful or not (`Corpus.run_asksOnce`).
-/

namespace SchemaCatalog

namespace Registry

/-- Whether no address was asked of the source twice, none with a fragment, and none of certain
addresses at all. -/
structure AsksOnce (own : List Address) (r : Registry) : Prop where
  nodup : r.requested.Nodup
  fragment : ∀ a ∈ r.requested, a.fragment = none
  foreign : ∀ a ∈ r.requested, a ∉ own

/-- Whether there is a document under every address that was asked for and under those that must
not be. -/
structure Attentive (own : List Address) (r : Registry) : Prop where
  asksOnce : r.AsksOnce own
  kept : ∀ a ∈ r.requested, a ∈ OrderedMap.keys r.documents
  present : ∀ a ∈ own, a ∈ OrderedMap.keys r.documents

variable {own : List Address} {r r' : Registry}

lemma AsksOnce.of_eq (h : r.AsksOnce own) (hrequested : r'.requested = r.requested) :
    r'.AsksOnce own :=
  ⟨hrequested ▸ h.nodup, hrequested ▸ h.fragment, hrequested ▸ h.foreign⟩

lemma Attentive.of_eq (h : r.Attentive own) (hrequested : r'.requested = r.requested)
    (hdocuments : r'.documents = r.documents) : r'.Attentive own where
  asksOnce := h.asksOnce.of_eq hrequested
  kept := by
    rw [hrequested, hdocuments]
    exact h.kept
  present := by
    rw [hdocuments]
    exact h.present

lemma Attentive.request (h : r.Attentive own) {address : Address}
    (hnone : OrderedMap.get? r.documents address.withoutFragment = none) :
    (r.request address.withoutFragment).2.AsksOnce own := by
  have hmissing := OrderedMap.get?_eq_none_iff.1 hnone
  unfold Registry.request
  cases r.source with
  | none => exact h.asksOnce
  | some source =>
    refine ⟨List.nodup_cons.2 ⟨fun hmem => hmissing (h.kept _ hmem), h.asksOnce.nodup⟩, ?_, ?_⟩
    · exact List.forall_mem_cons.2 ⟨address.fragment_withoutFragment, h.asksOnce.fragment⟩
    · exact List.forall_mem_cons.2 ⟨fun hmem => hmissing (h.present _ hmem), h.asksOnce.foreign⟩

/-- A document that was asked for is kept under its address. -/
lemma Attentive.register (h : r.Attentive own) {address : Address}
    (hnone : OrderedMap.get? r.documents address.withoutFragment = none) (n : Node) :
    ((r.request address.withoutFragment).2.register address.withoutFragment n).2.Attentive own := by
  have hdocuments := documents_request r address.withoutFragment
  have hrequested : ∀ a ∈ (r.request address.withoutFragment).2.requested,
      a = address.withoutFragment ∨ a ∈ r.requested := by
    unfold Registry.request
    cases r.source with
    | none => exact fun a ha => .inr ha
    | some source => exact fun a ha => List.mem_cons.1 ha
  have hkeys {a : Address} (ha : a = address.withoutFragment ∨ a ∈ OrderedMap.keys r.documents) :
      a ∈ OrderedMap.keys
        ((r.request address.withoutFragment).2.register address.withoutFragment n).2.documents := by
    unfold Registry.register
    dsimp only
    rwa [OrderedMap.mem_keys_insert, Address.withoutFragment_idem, hdocuments]
  exact ⟨(h.request hnone).of_eq rfl, fun a ha => hkeys ((hrequested a ha).imp_right (h.kept a)),
    fun a ha => hkeys (.inr (h.present a ha))⟩

/-! ## Look-ups -/

lemma Attentive.adopt (h : r.Attentive own) (n : Node) : (r.adopt n).2.Attentive own := by
  unfold Registry.adopt
  split
  · exact h
  · exact h.of_eq rfl rfl

/-- A document is asked for if there is none, and then it is there or the look-up fails. -/
lemma maintains_document (own : List Address) (address : Address) :
    Maintains (Attentive own) (AsksOnce own) (document address) := by
  intro r hr
  rcases document_cases r address with ⟨n, hkept, hrun⟩ | ⟨hnone, ⟨-, hrun⟩ |
    ⟨bytes, -, ⟨e, -, hrun⟩ | ⟨n, -, hrun⟩⟩⟩
  all_goals
    rw [hrun]
  · exact hr
  · exact hr.request hnone
  · exact hr.request hnone
  · exact hr.register hnone n

/-- What the operations on a registry maintain of what it has asked for. -/
theorem conduct_attentive (own : List Address) : Conduct (Attentive own) (AsksOnce own) where
  stop _ hr := hr.asksOnce
  lookup address fragment := by
    refine maintains_bind (maintains_document own address) fun doc => ?_
    refine maintains_bind maintains_get fun r => ?_
    split
    · exact maintains_pure _
    · split
      · exact maintains_modifyGet fun r hr => hr.adopt _
      · exact maintains_throw (fun r hr => hr.asksOnce) _
  adopt r n hr := hr.adopt n
  renew _ _ hr := hr.of_eq rfl rfl
  setAnchor _ _ _ _ hr := hr.of_eq rfl rfl

/-! ## Runs -/

lemma attentive_registerAll (source : Address → Option ByteArray) (docs : List (Document × Node)) :
    ((withSource source).registerAll docs).Attentive
      (docs.map fun d => d.1.address.withoutFragment) := by
  have hregister (docs : List (Document × Node)) (r : Registry) :
      (r.registerAll docs).requested = r.requested ∧
        ∀ a, a ∈ OrderedMap.keys (r.registerAll docs).documents ↔
          a ∈ docs.map (fun d => d.1.address.withoutFragment) ∨ a ∈ OrderedMap.keys r.documents := by
    induction docs generalizing r with
    | nil => exact ⟨rfl, fun a => by simp [registerAll]⟩
    | cons d docs ih =>
      obtain ⟨hrequested, hkeys⟩ := ih (r.register d.1.address d.2).2
      refine ⟨hrequested, fun a => (hkeys a).trans ?_⟩
      unfold register
      dsimp only
      rw [OrderedMap.mem_keys_insert, List.map_cons, List.mem_cons]
      tauto
  obtain ⟨hrequested, hkeys⟩ := hregister docs (withSource source)
  have hnone : ((withSource source).registerAll docs).requested = [] := hrequested
  refine ⟨⟨?_, ?_, ?_⟩, ?_, fun a ha => (hkeys a).2 (.inl ha)⟩
  all_goals
    rw [hnone]
    simp

end Registry

lemma Run.maintains_resolve {α : Type} {fine spent : Resolver → Prop} {x : Resolution α}
    (h : Maintains fine spent x) : Maintains fine spent (Run.resolve x) := by
  intro s hs
  have h := h s hs
  unfold Run.resolve
  rw [ExceptT.run_mk, StateT.run_bind]
  rcases hrun : x.run.run s with ⟨e | a, s'⟩
  all_goals
    rw [hrun] at h
    exact h

/-- The model of a corpus is made of its resolved documents without another look at anything. -/
lemma Api.run_ofCorpus_snd (limit : Nat) (c : Corpus) (o : Options) (s : Resolver) :
    ((Api.ofCorpus limit c o).run.run s).2 = ((c.resolve limit).run.run s).2 := by
  unfold Api.ofCorpus
  rw [ExceptT.run_bind, StateT.run_bind]
  rcases (c.resolve limit).run.run s with ⟨e | docs, s'⟩ <;> rfl

/-- **Documents are fetched on demand and once.**  A run over a corpus, be it to resolve its
documents or to make a model of them, successful or not, asks the source of a fresh registry for no
address twice, for none with a fragment, and for the address of no document of the corpus. -/
theorem Corpus.run_asksOnce (limit : Nat) (c : Corpus) (o : Options)
    (source : Address → Option ByteArray) :
    let start := Resolver.ofRegistry (.withSource source)
    let own := c.documents.map fun d => d.address.withoutFragment
    ((c.resolve limit).run.run start).2.registry.AsksOnce own ∧
      ((Api.ofCorpus limit c o).run.run start).2.registry.AsksOnce own := by
  intro start own
  rw [Api.run_ofCorpus_snd, and_self]
  unfold Corpus.resolve
  rw [ExceptT.run_bind, StateT.run_bind]
  cases hdocs : c.documents.mapM Document.decode with
  | error e =>
    have hstart : start.registry.AsksOnce own :=
      ⟨List.nodup_nil, fun a ha => absurd ha List.not_mem_nil, fun a ha => absurd ha List.not_mem_nil⟩
    exact hstart
  | ok docs =>
    have hown : own = docs.map fun d => d.1.address.withoutFragment := by
      unfold own
      rw [← Document.map_fst_of_mapM_decode hdocs, List.map_map]
      rfl
    have hregistered := Registry.attentive_registerAll source docs
    rw [← hown] at hregistered
    have hresolutions := (Registry.conduct_attentive own).compositional
    have heach (d : Document) : Maintains (fun s : Resolver => s.registry.Attentive own)
        (fun s => s.registry.AsksOnce own)
        (do return (d, ← Run.resolve (Resolution.document limit d.address)) :
          Run (Document × Node)) :=
      maintains_bind (Run.maintains_resolve (hresolutions.document limit d.address))
        fun n => maintains_pure (d, n)
    exact (maintains_mapM heach c.documents).final (fun _ hs => hs.asksOnce)
      (start.withRegistry (start.registry.registerAll docs)) hregistered

end SchemaCatalog
