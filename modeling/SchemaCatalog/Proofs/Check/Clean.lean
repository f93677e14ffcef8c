import SchemaCatalog.Proofs.Api.Catalogs
import SchemaCatalog.Proofs.Api.Runs
import SchemaCatalog.Proofs.Check.Findings
import SchemaCatalog.Proofs.Resolution.Session

/-!
# A clean check

A check that finds no errors in a corpus promises that the corpus resolves and that there is a
model of it, but for methods or errors that share a name, which the check does not look at
(`Check.parses_of_clean`).

The check registers the documents before it looks at any of them, as a run does, so the two start
from like resolvers if all documents can be decoded (`mapM_decode_of_ok`).  From there on they go
through the documents side by side (`resolveAll_of_clean`).
-/

namespace SchemaCatalog

open Resolution Resolver

namespace Check

variable {W : Roster} {s t : Resolver} {limit : Nat} {o : Options}

/-! ## Decoding -/

/-- Where all documents can be decoded, the check registers what a run does. -/
lemma mapM_decode_of_ok {ds : List Document}
    (h : ∀ p ∈ ((ds.mapM decode).run s).1, ∃ n, p.2 = .ok n) :
    ∃ docs, ds.mapM Document.decode = .ok docs ∧
      ((ds.mapM decode).run s).2 = s.withRegistry (s.registry.registerAll docs) := by
  induction ds generalizing s with
  | nil => exact ⟨[], rfl, rfl⟩
  | cons d ds ih =>
    rw [run_mapM_cons] at h ⊢
    obtain ⟨⟨n, hn⟩, hds⟩ := List.forall_mem_cons.1 h
    obtain ⟨docs, hdocs, hstate⟩ := ih hds
    rw [run_decode] at hn hstate ⊢
    cases hbytes : Node.ofBytes d.content with
    | error e =>
      rw [hbytes] at hn
      cases hn
    | ok m =>
      have hdecode : d.decode = .ok (d, m) := Document.decode_eq_ok_iff.2 ⟨rfl, hbytes⟩
      rw [hbytes] at hstate
      refine ⟨(d, m) :: docs, ?_, hstate⟩
      rw [List.mapM_cons, hdecode, hdocs]
      rfl

lemma coherentIn_registerAll {r : Registry} (h : r.CoherentIn W) (docs : List (Document × Node)) :
    ∃ W', W.Grows W' ∧ (r.registerAll docs).CoherentIn W' := by
  induction docs generalizing W r with
  | nil => exact ⟨W, .refl W, h⟩
  | cons d docs ih =>
    obtain ⟨W₁, grows₁, h₁, -⟩ := h.register d.1.address d.2
    obtain ⟨W₂, grows₂, h₂⟩ := ih h₁
    exact ⟨W₂, grows₁.trans grows₂, h₂⟩

/-! ## All documents -/

/-- Whether a file has no errors. -/
def FileResult.Clean (f : FileResult) : Prop := ∀ d ∈ f.diagnostics, d.severity ≠ .error

lemma decoded_of_clean {p : Document × Except DecodeError Node}
    (clean : ((result limit o p).run s).1.Clean) : ∃ n, p.2 = .ok n := by
  rw [run_result] at clean
  cases hp : p.2 with
  | error e =>
    rw [hp] at clean
    exact absurd rfl (clean _ (List.mem_singleton_self _))
  | ok n => exact ⟨n, rfl⟩

/-! ## Corpora without errors -/

/-- Documents without errors resolve one after the other wherever the same trees are held. -/
lemma resolveAll_of_clean {ps : List (Document × Except DecodeError Node)} (like : Like W s t)
    (clean : ∀ f ∈ ((ps.mapM (result limit o)).run s).1, f.Clean) :
    ∃ docs t', (Run.resolveEach limit (ps.map Prod.fst)).run.run t = (.ok docs, t') ∧
      ∀ d ∈ docs, ∀ c ∈ d.2.nodes, ¬ c.RepeatsProperty := by
  induction ps generalizing W s t with
  | nil => exact ⟨[], t, rfl, fun d hd => absurd hd List.not_mem_nil⟩
  | cons p ps ih =>
    rw [run_mapM_cons] at clean
    obtain ⟨hp, hps⟩ := List.forall_mem_cons.1 clean
    obtain ⟨n, hn⟩ := decoded_of_clean hp
    rw [run_result, hn] at hp hps
    obtain ⟨W₁, m, t₁, -, like₁, hm, hmodel⟩ := resolves_of_clean like hp
    obtain ⟨docs, t₂, hdocs, hmodels⟩ := ih like₁ hps
    refine ⟨(p.1, m) :: docs, t₂, ?_, List.forall_mem_cons.2 ⟨hmodel, hmodels⟩⟩
    exact Run.resolveEach_cons_eq_ok.2 ⟨m, t₁, docs, hm, hdocs, rfl⟩

/-- **A corpus in which a check finds no errors resolves**, and no properties share a name in what
it resolves to. -/
theorem resolve_of_clean {c : Corpus} {strict : Bool} {r : Registry} (coherent : r.Coherent)
    (clean : ∀ f ∈ ((corpus limit c o strict).run (.ofRegistry r)).1.results, f.Clean) :
    ∃ docs s, (c.resolve limit).run.run (.ofRegistry r) = (.ok docs, s) ∧
      ∀ d ∈ docs, ∀ c ∈ d.2.nodes, ¬ c.RepeatsProperty := by
  obtain ⟨W, hr⟩ := coherent
  let ps := ((c.documents.mapM decode).run (.ofRegistry r)).1
  let start := ((c.documents.mapM decode).run (.ofRegistry r)).2
  have hclean : ∀ f ∈ ((ps.mapM (result limit o)).run start).1, f.Clean := clean
  have hok : ∀ p ∈ ps, ∃ n, p.2 = .ok n := by
    intro p hp
    obtain ⟨s, hs⟩ := exists_mem_mapM (f := result limit o) hp start
    exact decoded_of_clean (hclean _ hs)
  -- Both runs start over the registry with all documents.
  obtain ⟨docs, hdocs, hstart⟩ := mapM_decode_of_ok hok
  have hstart : start = .ofRegistry (r.registerAll docs) := hstart
  obtain ⟨W₁, -, hcoherent⟩ := coherentIn_registerAll hr docs
  have like : Like W₁ start (.ofRegistry (r.registerAll docs)) := hstart ▸ .ofRegistry hcoherent
  obtain ⟨resolved, t, hresolved, hmodels⟩ := resolveAll_of_clean like hclean
  rw [fst_mapM_decode] at hresolved
  exact ⟨resolved, t, Corpus.run_resolve_eq_ok.2 ⟨docs, hdocs, hresolved⟩, hmodels⟩

/-! ## A small corpus -/

end Check

/-- A catalog of one method, with a reference in its response. -/
def Document.oneMethod : Document where
  name := "users/methods.json"
  address := .inMemory "users"
  content := ("\x7b\"definitions\": \x7b\"name\": \x7b\"type\": \"string\"\x7d\x7d, " ++
    "\"methods\": [\x7b\"name\": \"users.get\", \"responses\": \x7b\"response\": " ++
    "\x7b\"$ref\": \"#/definitions/name\"\x7d\x7d\x7d]\x7d").toUTF8

/-- The corpus of that catalog alone. -/
def Corpus.oneMethod : Corpus := ⟨.inMemory "", [.oneMethod]⟩

namespace Check

lemma oneMethod_clean :
    ∀ f ∈ ((corpus 3 .oneMethod {} true).run (.ofRegistry {})).1.results,
      ∀ d ∈ f.diagnostics, d.severity ≠ .error := by
  obtain ⟨f, hresults, n, hn, hfound⟩ := exists_found_of_one 3 {} true (.inMemory "")
    (d := .oneMethod) (P := fun n => n.nodes.all fun c => (duplicates c).isEmpty)
    (by decide +kernel)
  rw [Corpus.oneMethod, hresults]
  refine List.forall_mem_singleton.2 (hfound.clean_iff.2 fun c hc => ?_)
  exact List.isEmpty_iff.1 (List.all_eq_true.1 hn c hc)

/-! ## The promise of a clean check -/

/-- **A clean check means that the corpus parses.**  If a check finds no errors in a corpus, over a
coherent registry (`Registry.Made.coherent`) and under any limit, then the corpus resolves over that
registry, and there is a model of it unless two of its methods or two errors of its catalog have one
name. -/
theorem parses_of_clean (limit : Nat) (c : Corpus) (o : Options) (strict : Bool) {r : Registry}
    (coherent : r.Coherent)
    (clean : ∀ f ∈ ((corpus limit c o strict).run (.ofRegistry r)).1.results,
      ∀ d ∈ f.diagnostics, d.severity ≠ .error) :
    (∃ docs s, (c.resolve limit).run.run (.ofRegistry r) = (.ok docs, s)) ∧
    ((∃ api s, (Api.ofCorpus limit c o).run.run (.ofRegistry r) = (.ok api, s)) ∨
      ∃ document name s,
        (Api.ofCorpus limit c o).run.run (.ofRegistry r) =
            (.error (.project document (.duplicateMethod name)), s) ∨
        (Api.ofCorpus limit c o).run.run (.ofRegistry r) =
            (.error (.project document (.duplicateError name)), s)) := by
  obtain ⟨docs, s, hresolve, hmodels⟩ := resolve_of_clean coherent clean
  have hmodel : (Api.ofCorpus limit c o).run.run (.ofRegistry r) =
      (Api.ofDocuments o docs, s) := by
    rw [Api.ofCorpus, Run.run_bind_of_ok hresolve]
    rfl
  refine ⟨⟨docs, s, hresolve⟩, ?_⟩
  rw [hmodel]
  rcases Api.ofDocuments_cases o hmodels with ⟨api, hapi⟩ | ⟨document, name, herror | herror⟩
  · exact .inl ⟨api, s, by rw [hapi]⟩
  · exact .inr ⟨document, name, s, .inl (by rw [herror])⟩
  · exact .inr ⟨document, name, s, .inr (by rw [herror])⟩

/-- The corpus of one catalog is clean over an empty registry, so it resolves. -/
theorem parses_of_clean_oneMethod :
    ∃ docs s, (Corpus.oneMethod.resolve 3).run.run (.ofRegistry {}) = (.ok docs, s) :=
  (parses_of_clean 3 .oneMethod {} true (Registry.coherent_source none) oneMethod_clean).1

end Check

end SchemaCatalog
