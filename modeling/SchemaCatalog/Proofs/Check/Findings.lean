import SchemaCatalog.Proofs.Check.Documents

/-!
# What a check finds in a document

A check has two ways with a document.  If the document is no schema, a reference of it is broken or
it does not resolve, the check says so and nothing else.  Otherwise what it finds are the judgements
on the nodes of the resolved document, on each of them, at the paths of the walk
(`Check.found_of_mem_results`).  So what a check says about properties and enumerations is told by
`Check.judge`, node by node, whatever the corpus is.

The walk misses no node because the resolver holds listed trees at all times; every part of a check
keeps that (`Check.Holds`).
-/

namespace SchemaCatalog

open Resolution Resolver

lemma Resolver.Like.self {W : Roster} {s t : Resolver} (like : Like W s t) : Like W s s where
  coherent := like.coherent
  same := .refl _
  listed := like.listed
  expansions _ := rfl
  active := rfl
  cut := rfl

namespace Check

/-- Whether a finding is that a document has no resolved form. -/
def Finding.Blocks : Finding → Prop
  | .undecodable _ | .unresolved _ => True
  | _ => False

/-- Whether a check resolved a document to a tree, and found in it what its nodes are judged. -/
structure Found (limit : Nat) (o : Options) (d : Document) (n : Node) (f : FileResult) :
    Prop where
  resolved : ∃ s s', outcome (Resolution.document limit d.address) s = (.ok n, s')
  diagnostics : f.diagnostics = n.visits.flatMap fun v => judge (d.fileName == o.methodsFile) v.1 v.2
  visited : ∀ c, c ∈ n.nodes ↔ ∃ path, (c, path) ∈ n.visits

/-- What is found in a resolved document has no errors exactly if no properties share a name in any
of its nodes. -/
lemma Found.clean_iff {limit : Nat} {o : Options} {d : Document} {n : Node} {f : FileResult}
    (h : Found limit o d n f) :
    (∀ e ∈ f.diagnostics, e.severity ≠ .error) ↔ ∀ c ∈ n.nodes, duplicates c = [] := by
  rw [h.diagnostics]
  constructor
  · intro clean c hc
    obtain ⟨path, hvisit⟩ := (h.visited c).1 hc
    exact clean_judge_iff.1 fun e he => clean e (List.mem_flatMap.2 ⟨(c, path), hvisit, he⟩)
  · intro distinct e he
    obtain ⟨v, hv, he⟩ := List.mem_flatMap.1 he
    exact clean_judge_iff.2 (distinct v.1 ((h.visited v.1).2 ⟨v.2, hv⟩)) e he

/-- Whether all that a resolver holds is listed. -/
def Holds (s : Resolver) : Prop := ∃ W, Like W s s

variable {limit : Nat} {o : Options} {d : Document} {raw : Node} {s : Resolver}

/-! ## One document -/

lemma Holds.references (h : Holds s) (current : Address) (raw : Node) :
    Holds ((references current raw).run s).2 := by
  obtain ⟨W, like⟩ := h
  obtain ⟨W', -, like'⟩ := stays_references current raw W s s like
  exact ⟨W', like'.self⟩

lemma Holds.resolve (h : Holds s) (limit : Nat) (address : Address) :
    Holds (outcome (Resolution.document limit address) s).2 := by
  obtain ⟨W, like⟩ := h
  obtain ⟨W', -, like', -⟩ := corresponds_document limit address like
  exact ⟨W', like'⟩

lemma Holds.document (h : Holds s) (limit : Nat) (o : Options) (d : Document) (raw : Node) :
    Holds ((document limit o d raw).run s).2 := by
  have hreferences := h.references d.address raw
  rw [run_document]
  generalize (Check.references d.address raw).run s = p at hreferences ⊢
  obtain ⟨_ | ⟨e, broken⟩, s₁⟩ := p
  · have hresolved := hreferences.resolve limit d.address
    dsimp only
    generalize outcome (Resolution.document limit d.address) s₁ = q at hresolved ⊢
    obtain ⟨e | n, s₂⟩ := q <;> exact hresolved
  · exact hreferences

lemma Holds.visited (h : Holds s) {n : Node} {s' : Resolver} {address : Address}
    (hrun : outcome (Resolution.document limit address) s = (.ok n, s')) (c : Node) :
    c ∈ n.nodes ↔ ∃ path, (c, path) ∈ n.visits := by
  obtain ⟨W, like⟩ := h
  obtain ⟨W', -, -, result⟩ := corresponds_document limit address like
  rw [hrun] at result
  cases result with
  | ok hmatches => exact Node.mem_nodes_iff_visits hmatches.listed

/-- **A document is found not to resolve, or what is found are the judgements on its nodes.** -/
theorem found_of_document (h : Holds s) (name : String) :
    (∀ e ∈ ((document limit o d raw).run s).1, e.finding.Blocks) ∨
      ∃ n, Found limit o d n ⟨name, ((document limit o d raw).run s).1⟩ := by
  have hreferences := h.references d.address raw
  have hbroken (e : Diagnostic) (he : e ∈ ((references d.address raw).run s).1) :
      e.finding.Blocks := by
    obtain ⟨cause, hcause⟩ := finding_of_mem_references he
    rw [hcause]
    trivial
  rw [run_document]
  generalize (Check.references d.address raw).run s = p at hreferences hbroken ⊢
  obtain ⟨_ | ⟨e, broken⟩, s₁⟩ := p
  · dsimp only
    cases hrun : outcome (Resolution.document limit d.address) s₁ with
    | mk result s₂ =>
      cases result with
      | error e => exact .inl (List.forall_mem_singleton.2 trivial)
      | ok n => exact .inr ⟨n, ⟨s₁, s₂, hrun⟩, rfl, hreferences.visited hrun⟩
  · exact .inl hbroken

/-- Where the references of a document are kept and it resolves, what is found are the judgements on
its nodes. -/
lemma found_of_keeps {W : Roster} {n : Node} {s' : Resolver} (like : Like W s s)
    (hraw : raw.Listed W)
    (hkeeps : ∀ c ∈ raw.nodes, ∀ text ∈ c.references, keeps s d.address text = true)
    (hrun : outcome (Resolution.document limit d.address) s = (.ok n, s')) (name : String) :
    Found limit o d n ⟨name, ((document limit o d raw).run s).1⟩ where
  resolved := ⟨s, s', hrun⟩
  diagnostics := by
    rw [run_document, run_references_of_keeps hraw hkeeps]
    dsimp only
    rw [hrun]
  visited := Holds.visited ⟨W, like⟩ hrun

/-! ## A corpus -/

lemma run_decode (d : Document) (s : Resolver) : (decode d).run s =
    match Node.ofBytes d.content with
    | .error e => ((d, .error e), s)
    | .ok n => ((d, .ok (s.registry.register d.address n).1),
        s.withRegistry (s.registry.register d.address n).2) := by
  unfold decode
  cases Node.ofBytes d.content <;> rfl

lemma fst_mapM_decode (ds : List Document) (s : Resolver) :
    ((ds.mapM decode).run s).1.map Prod.fst = ds := by
  induction ds generalizing s with
  | nil => rfl
  | cons d ds ih =>
    rw [run_mapM_cons, List.map_cons, ih, run_decode]
    cases Node.ofBytes d.content <;> rfl

lemma run_result (p : Document × Except DecodeError Node) (s : Resolver) :
    (result limit o p).run s =
      match p.2 with
      | .error e => (⟨p.1.name, [⟨[], .undecodable e⟩]⟩, s)
      | .ok n => (⟨p.1.name, ((document limit o p.1 n).run s).1⟩,
          ((document limit o p.1 n).run s).2) := by
  unfold result
  cases p.2 <;> rfl

lemma Holds.decode (h : Holds s) (d : Document) : Holds ((decode d).run s).2 := by
  obtain ⟨W, like⟩ := h
  rw [run_decode]
  cases Node.ofBytes d.content with
  | error e => exact ⟨W, like⟩
  | ok n =>
    obtain ⟨W', grows, coherent, -⟩ := like.coherent.register d.address n
    exact ⟨W', like.withRegistry grows coherent (.refl _)⟩

lemma Holds.mapM {α β : Type} {f : α → Checking β} {l : List α}
    (kept : ∀ a ∈ l, ∀ s, Holds s → Holds ((f a).run s).2) (h : Holds s) :
    Holds ((l.mapM f).run s).2 := by
  induction l generalizing s with
  | nil => exact h
  | cons a l ih =>
    obtain ⟨ha, hl⟩ := List.forall_mem_cons.1 kept
    rw [run_mapM_cons]
    exact ih hl (ha s h)

lemma Holds.result (h : Holds s) (p : Document × Except DecodeError Node) :
    Holds ((result limit o p).run s).2 := by
  rw [run_result]
  cases p.2 with
  | error e => exact h
  | ok n => exact h.document limit o p.1 n

/-- **What a check finds in the documents of a corpus**, over a coherent registry: of each document
that it has no resolved form, or the judgements on the nodes of what it resolves to. -/
theorem found_of_mem_results {c : Corpus} {strict : Bool} {r : Registry} (coherent : r.Coherent)
    {f : FileResult} (hf : f ∈ ((corpus limit c o strict).run (.ofRegistry r)).1.results) :
    ∃ d ∈ c.documents, f.file = d.name ∧
      ((∀ e ∈ f.diagnostics, e.finding.Blocks) ∨ ∃ n, Found limit o d n f) := by
  obtain ⟨W, hr⟩ := coherent
  have hstart : Holds (.ofRegistry r) := ⟨W, .ofRegistry hr⟩
  have hdecoded : Holds ((c.documents.mapM decode).run (.ofRegistry r)).2 :=
    hstart.mapM fun d _ s hs => hs.decode d
  obtain ⟨p, hp, s, hs, rfl⟩ := exists_of_mem_mapM_of_kept (f := result limit o)
    (fun p _ s hs => hs.result p) hdecoded hf
  have hd : p.1 ∈ c.documents := by
    rw [← fst_mapM_decode c.documents (.ofRegistry r)]
    exact List.mem_map_of_mem hp
  refine ⟨p.1, hd, ?_⟩
  rw [run_result]
  cases hdecode : p.2 with
  | error e => exact ⟨rfl, .inl (List.forall_mem_singleton.2 trivial)⟩
  | ok raw => exact ⟨rfl, found_of_document hs p.1.name⟩

/-- The check of a corpus of one document is that of the document, once it is registered. -/
lemma results_of_one (limit : Nat) (o : Options) (strict : Bool) (r : Registry) (base : Address)
    {d : Document} {m : Node} (hbytes : Node.ofBytes d.content = .ok m) :
    ((corpus limit ⟨base, [d]⟩ o strict).run (.ofRegistry r)).1.results =
      [⟨d.name, ((document limit o d (r.register d.address m).1).run
        (.ofRegistry (r.register d.address m).2)).1⟩] := by
  have hdecode : ([d].mapM decode).run (.ofRegistry r) =
      ([(d, .ok (r.register d.address m).1)], .ofRegistry (r.register d.address m).2) := by
    rw [run_mapM_cons, run_decode, hbytes]
    rfl
  calc ((corpus limit ⟨base, [d]⟩ o strict).run (.ofRegistry r)).1.results
    _ = (((([d].mapM decode).run (.ofRegistry r)).1.mapM (result limit o)).run
          (([d].mapM decode).run (.ofRegistry r)).2).1 := rfl
    _ = _ := by
      rw [hdecode, run_mapM_cons, run_result]
      rfl

/-- What the check of a corpus of one document finds over an empty registry, if all references of
the document stay inside it and it resolves. -/
lemma exists_found_of_one (limit : Nat) (o : Options) (strict : Bool) (base : Address)
    {d : Document} {P : Node → Bool}
    (evaluated : ((Node.ofBytes d.content).toOption.any fun m =>
      let p := Registry.register {} d.address m
      p.1.nodes.all (fun c => c.references.all (keeps (.ofRegistry p.2) d.address)) &&
        (outcome (Resolution.document limit d.address) (.ofRegistry p.2)).1.toOption.any P) =
      true) :
    ∃ f, ((corpus limit ⟨base, [d]⟩ o strict).run (.ofRegistry {})).1.results = [f] ∧
      ∃ n, P n = true ∧ Found limit o d n f := by
  obtain ⟨m, hm, evaluated⟩ := exists_of_any_toOption evaluated
  rw [Bool.and_eq_true, List.all_eq_true] at evaluated
  obtain ⟨hkeeps, hresolved⟩ := evaluated
  obtain ⟨n, hn, hP⟩ := exists_of_any_toOption hresolved
  obtain ⟨W, hempty⟩ := Registry.coherent_source none
  obtain ⟨W', -, hcoherent, hlisted⟩ := hempty.register d.address m
  refine ⟨_, results_of_one limit o strict {} base hm, n, hP, ?_⟩
  exact found_of_keeps (.ofRegistry hcoherent) hlisted
    (fun c hc => List.all_eq_true.1 (hkeeps c hc)) (Prod.ext hn rfl) d.name

end Check

end SchemaCatalog
