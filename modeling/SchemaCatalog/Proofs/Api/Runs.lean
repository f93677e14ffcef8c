import SchemaCatalog.Api.Catalog
import SchemaCatalog.Proofs.Resolution.Outcome
import SchemaCatalog.Proofs.Schema.Decoding

/-!
# Runs that succeed

A run over a corpus decodes all documents, registers them and then resolves them one after the
other.  It succeeds exactly if each of these steps does, and the lemmas here say so: for two
programs in a row (`Run.run_bind_eq_ok`), for a list of documents (`Run.resolveEach_cons_eq_ok`)
and for a corpus (`Corpus.run_resolve_eq_ok`).
-/

namespace SchemaCatalog

open Resolution

lemma Registry.anchors_source_registerAll (r : Registry) (docs : List (Document × Node)) :
    (r.registerAll docs).anchors = r.anchors ∧ (r.registerAll docs).source = r.source := by
  unfold registerAll
  induction docs generalizing r with
  | nil => exact ⟨rfl, rfl⟩
  | cons d docs ih => exact ih (r.register d.1.address d.2).2

namespace Document

/-- A document is decoded to the schema of its bytes. -/
lemma decode_eq_ok_iff {d : Document} {p : Document × Node} :
    d.decode = .ok p ↔ p.1 = d ∧ Node.ofBytes d.content = .ok p.2 := by
  unfold Document.decode
  cases Node.ofBytes d.content with
  | ok n => simp only [Except.ok.injEq, Prod.ext_iff, eq_comm]
  | error e => simp

lemma forall₂_of_mapM_decode {ds : List Document} {docs : List (Document × Node)}
    (h : ds.mapM decode = .ok docs) :
    List.Forall₂ (fun d p => p.1 = d ∧ Node.ofBytes d.content = .ok p.2) ds docs :=
  (mapM_eq_ok_iff.1 h).imp fun _ _ => decode_eq_ok_iff.1

lemma map_fst_of_mapM_decode {ds : List Document} {docs : List (Document × Node)}
    (h : ds.mapM decode = .ok docs) : docs.map Prod.fst = ds := by
  have hdocs := forall₂_of_mapM_decode h
  clear h
  induction hdocs with
  | nil => rfl
  | cons h _ ih => rw [List.map_cons, h.1, ih]

end Document

namespace Run

variable {α β : Type} {s s' : Resolver}

lemma run_bind_of_ok {x : Run α} {a : α} (h : x.run.run s = (.ok a, s')) (f : α → Run β) :
    (x >>= f).run.run s = (f a).run.run s' := by
  rw [ExceptT.run_bind, StateT.run_bind, h]
  rfl

lemma run_pure_eq_ok {a b : α} :
    (pure a : Run α).run.run s = (.ok b, s') ↔ a = b ∧ s = s' := by
  change (Except.ok a, s) = (.ok b, s') ↔ _
  rw [Prod.mk.injEq, Except.ok.injEq]

lemma run_bind_eq_ok {x : Run α} {f : α → Run β} {b : β} {s₂ : Resolver} :
    (x >>= f).run.run s = (.ok b, s₂) ↔
      ∃ a s₁, x.run.run s = (.ok a, s₁) ∧ (f a).run.run s₁ = (.ok b, s₂) := by
  constructor
  · intro h
    rcases hx : x.run.run s with ⟨e | a, s₁⟩
    · rw [ExceptT.run_bind, StateT.run_bind, hx] at h
      cases (Prod.ext_iff.1 h).1
    · rw [run_bind_of_ok hx] at h
      exact ⟨a, s₁, rfl, h⟩
  · rintro ⟨a, s₁, hx, hf⟩
    rw [run_bind_of_ok hx, hf]

/-- A resolution succeeds in a run if it does by itself. -/
lemma run_resolve_eq_ok {x : Resolution α} {a : α} :
    (Run.resolve x).run.run s = (.ok a, s') ↔ outcome x s = (.ok a, s') := by
  unfold Run.resolve outcome
  rw [ExceptT.run_mk, StateT.run_bind]
  rcases x.run.run s with ⟨e | b, s₁⟩
  · constructor
    · intro h
      cases (Prod.ext_iff.1 h).1
    · intro h
      cases (Prod.ext_iff.1 h).1
  · change (Except.ok b, s₁) = (.ok a, s') ↔ (Except.ok b, s₁) = (.ok a, s')
    simp only [Prod.mk.injEq, Except.ok.injEq]

/-- Documents resolved one after the other. -/
def resolveEach (limit : Nat) (ds : List Document) : Run (List (Document × Node)) :=
  ds.mapM fun d => do return (d, ← Run.resolve (Resolution.document limit d.address))

variable {limit : Nat} {d : Document} {ds : List Document} {docs : List (Document × Node)}

lemma resolveEach_cons_eq_ok : (resolveEach limit (d :: ds)).run.run s = (.ok docs, s') ↔
    ∃ m s₁ rest, outcome (Resolution.document limit d.address) s = (.ok m, s₁) ∧
      (resolveEach limit ds).run.run s₁ = (.ok rest, s') ∧ docs = (d, m) :: rest := by
  unfold resolveEach
  rw [List.mapM_cons]
  constructor
  · intro h
    obtain ⟨p, s₁, hfirst, hothers⟩ := run_bind_eq_ok.1 h
    obtain ⟨m, s₂, hm, hp⟩ := run_bind_eq_ok.1 hfirst
    obtain ⟨rfl, rfl⟩ := run_pure_eq_ok.1 hp
    obtain ⟨rest, s₃, hrest, hdocs⟩ := run_bind_eq_ok.1 hothers
    obtain ⟨rfl, rfl⟩ := run_pure_eq_ok.1 hdocs
    exact ⟨m, s₂, rest, run_resolve_eq_ok.1 hm, hrest, rfl⟩
  · rintro ⟨m, s₁, rest, hm, hrest, rfl⟩
    refine run_bind_eq_ok.2 ⟨(d, m), s₁, ?_, run_bind_eq_ok.2 ⟨rest, s', hrest, rfl⟩⟩
    exact run_bind_eq_ok.2 ⟨m, s₁, run_resolve_eq_ok.2 hm, rfl⟩

lemma map_fst_of_resolveEach (h : (resolveEach limit ds).run.run s = (.ok docs, s')) :
    docs.map Prod.fst = ds := by
  induction ds generalizing docs s with
  | nil =>
    obtain ⟨rfl, -⟩ := run_pure_eq_ok.1 h
    rfl
  | cons d ds ih =>
    obtain ⟨m, s₁, rest, -, hrest, rfl⟩ := resolveEach_cons_eq_ok.1 h
    rw [List.map_cons, ih hrest]

end Run

/-- A corpus resolves if its documents can be decoded and then resolve one after the other over the
registry that has them all. -/
lemma Corpus.run_resolve_eq_ok {limit : Nat} {c : Corpus} {r : Registry}
    {resolved : List (Document × Node)} {s : Resolver} :
    (c.resolve limit).run.run (.ofRegistry r) = (.ok resolved, s) ↔
      ∃ docs, c.documents.mapM Document.decode = .ok docs ∧
        (Run.resolveEach limit c.documents).run.run (.ofRegistry (r.registerAll docs)) =
          (.ok resolved, s) := by
  unfold Corpus.resolve
  constructor
  · intro h
    obtain ⟨docs, s₁, hdocs, h⟩ := Run.run_bind_eq_ok.1 h
    obtain ⟨_, s₂, hregister, h⟩ := Run.run_bind_eq_ok.1 h
    obtain ⟨hdocs, rfl⟩ := Prod.ext_iff.1 hdocs
    obtain ⟨-, rfl⟩ := Prod.ext_iff.1 hregister
    exact ⟨docs, hdocs, h⟩
  · rintro ⟨docs, hdocs, h⟩
    refine Run.run_bind_eq_ok.2 ⟨docs, .ofRegistry r, Prod.ext hdocs rfl, ?_⟩
    exact Run.run_bind_eq_ok.2 ⟨⟨⟩, .ofRegistry (r.registerAll docs), rfl, h⟩

lemma Corpus.map_fst_of_run_resolve {limit : Nat} {c : Corpus} {r : Registry}
    {resolved : List (Document × Node)} {s : Resolver}
    (h : (c.resolve limit).run.run (.ofRegistry r) = (.ok resolved, s)) :
    resolved.map Prod.fst = c.documents := by
  obtain ⟨_, -, h⟩ := Corpus.run_resolve_eq_ok.1 h
  exact Run.map_fst_of_resolveEach h

end SchemaCatalog
