import SchemaCatalog.Check.Basic
import SchemaCatalog.Proofs.Api.Shapes
import SchemaCatalog.Proofs.Check.Visits
import SchemaCatalog.Proofs.Resolution.Correspondence

/-!
# The check of one document

The check of a document and a run that resolves the document are two runs of a resolver.  Before
it resolves the document the check looks its references up, so other documents are asked of the
source at other times and get other identities; the two resolvers stay like one another all the
same (`stays_references`).  What the check resolves is walked, and the walk misses no node
(`Node.mem_nodes_iff_visits`).  So a document without errors resolves in the other run as well, and
no properties share a name in what it resolves to there (`resolves_of_clean`).

No reference is broken in a document if all of them lead into documents that are kept
(`run_references_of_keeps`).
-/

namespace SchemaCatalog

open Resolution Resolver

namespace Check

variable {W : Roster} {α β : Type} {s t : Resolver}

/-! ## Programs over lists -/

lemma run_mapM_cons (f : α → Checking β) (a : α) (l : List α) (s : Resolver) :
    ((a :: l).mapM f).run s =
      (((f a).run s).1 :: ((l.mapM f).run ((f a).run s).2).1,
        ((l.mapM f).run ((f a).run s).2).2) := by
  rw [List.mapM_cons]
  rfl

/-- Each result of a list is that of an element, run at some time, when what every element keeps
still holds. -/
lemma exists_of_mem_mapM_of_kept {I : Resolver → Prop} {f : α → Checking β} {l : List α} {b : β}
    (kept : ∀ a ∈ l, ∀ s, I s → I ((f a).run s).2) (hs : I s)
    (hb : b ∈ ((l.mapM f).run s).1) : ∃ a ∈ l, ∃ s', I s' ∧ ((f a).run s').1 = b := by
  induction l generalizing s with
  | nil => exact absurd hb List.not_mem_nil
  | cons a l ih =>
    obtain ⟨ha, hl⟩ := List.forall_mem_cons.1 kept
    rw [run_mapM_cons] at hb
    rcases List.mem_cons.1 hb with rfl | hb
    · exact ⟨a, List.mem_cons_self, s, hs, rfl⟩
    · obtain ⟨a', ha', h⟩ := ih hl (ha s hs) hb
      exact ⟨a', List.mem_cons_of_mem _ ha', h⟩

lemma exists_of_mem_mapM {f : α → Checking β} {l : List α} {b : β}
    (hb : b ∈ ((l.mapM f).run s).1) : ∃ a ∈ l, ∃ s', ((f a).run s').1 = b := by
  obtain ⟨a, ha, s', -, h⟩ :=
    exists_of_mem_mapM_of_kept (I := fun _ => True) (fun _ _ _ _ => trivial) trivial hb
  exact ⟨a, ha, s', h⟩

lemma exists_mem_mapM {f : α → Checking β} {l : List α} {a : α} (ha : a ∈ l) (s : Resolver) :
    ∃ s', ((f a).run s').1 ∈ ((l.mapM f).run s).1 := by
  induction l generalizing s with
  | nil => exact absurd ha List.not_mem_nil
  | cons b l ih =>
    rw [run_mapM_cons]
    rcases List.mem_cons.1 ha with rfl | ha
    · exact ⟨s, List.mem_cons_self⟩
    · obtain ⟨s', h⟩ := ih ha ((f b).run s).2
      exact ⟨s', List.mem_cons_of_mem _ h⟩

lemma run_mapM_of_run {f : α → Checking β} {g : α → β} {l : List α}
    (h : ∀ a ∈ l, (f a).run s = (g a, s)) : (l.mapM f).run s = (l.map g, s) := by
  induction l with
  | nil => rfl
  | cons a l ih =>
    obtain ⟨ha, hl⟩ := List.forall_mem_cons.1 h
    rw [run_mapM_cons, ha, ih hl, List.map_cons]

/-- Whether a part of a check leaves a resolver that is like another one so. -/
def Stays (x : Checking α) : Prop :=
  ∀ W s t, Like W s t → ∃ W', W.Grows W' ∧ Like W' (x.run s).2 t

lemma Stays.mapM {f : α → Checking β} {l : List α} (h : ∀ a ∈ l, Stays (f a)) :
    Stays (l.mapM f) := by
  intro W s t like
  induction l generalizing W s with
  | nil => exact ⟨W, .refl W, like⟩
  | cons a l ih =>
    obtain ⟨ha, hl⟩ := List.forall_mem_cons.1 h
    obtain ⟨W₁, grows₁, like₁⟩ := ha W s t like
    obtain ⟨W₂, grows₂, like₂⟩ := ih hl W₁ _ like₁
    rw [run_mapM_cons]
    exact ⟨W₂, grows₁.trans grows₂, like₂⟩

/-! ## References -/

/-- The way from a reference to its place. -/
def followReference (current : Address) (text : String) : Resolution Unit := do
  let target ← Resolution.ofExcept (current.target text)
  let fragment ← Resolution.ofExcept target.fragmentText
  let _ ← lift (Registry.lookup target.withoutFragment fragment)

/-- Looking a reference up leaves what the look-up does, be it a failure. -/
lemma run_reference (current : Address) (text : String) (s : Resolver) :
    (reference current text).run s =
      match outcome (followReference current text) s with
      | (.ok _, s') => (none, s')
      | (.error e, s') => (some e, s') := by
  unfold reference outcome
  dsimp only
  rw [StateT.run_bind]
  change (StateT.run (ExceptT.run (followReference current text)) s >>= _) = _
  generalize StateT.run (ExceptT.run (followReference current text)) s = p
  obtain ⟨e | _, s'⟩ := p <;> rfl

lemma outcome_followReference (current : Address) (text : String) (s : Resolver) :
    outcome (followReference current text) s =
      match current.target text >>= fun target => (target, ·) <$> target.fragmentText with
      | .error e => (.error e, s)
      | .ok (target, fragment) =>
        let p := (Registry.lookup target.withoutFragment fragment).run.run s.registry
        (p.1.map fun _ => (), s.withRegistry p.2) := by
  unfold followReference
  rw [outcome_bind, outcome_ofExcept]
  cases current.target text with
  | error e => rfl
  | ok target =>
    simp only [bind, Except.bind]
    change outcome (Resolution.ofExcept target.fragmentText >>= _) s = _
    rw [outcome_bind, outcome_ofExcept]
    cases target.fragmentText with
    | error e => rfl
    | ok fragment =>
      change outcome (lift _ >>= _) s = _
      rw [outcome_bind, outcome_lift]
      simp only [Functor.map, Except.map]
      generalize (Registry.lookup target.withoutFragment fragment).run.run s.registry = p
      obtain ⟨e | n, r⟩ := p <;> rfl

lemma stays_reference (current : Address) (text : String) : Stays (reference current text) := by
  intro W s t like
  have hstate : ((reference current text).run s).2 =
      (outcome (followReference current text) s).2 := by
    rw [run_reference]
    split <;> simp_all
  rw [hstate, outcome_followReference]
  split
  case h_1 => exact ⟨W, .refl W, like⟩
  case h_2 target fragment _ => exact like.lookup target.withoutFragment fragment

/-- What is wrong with the references of a node at a path. -/
def brokenAt (current : Address) (v : Node × List String) : Checking (List Diagnostic) := do
  let faults ← v.1.references.mapM (reference current)
  return (faults.filterMap id).map fun e => ⟨v.2, .unresolved e⟩

lemma run_references (current : Address) (raw : Node) (s : Resolver) :
    (references current raw).run s =
      (((raw.visits.mapM (brokenAt current)).run s).1.flatten,
        ((raw.visits.mapM (brokenAt current)).run s).2) := rfl

lemma stays_references (current : Address) (raw : Node) : Stays (references current raw) := by
  have hnode (v : Node × List String) : Stays (brokenAt current v) :=
    Stays.mapM fun text _ => stays_reference current text
  exact Stays.mapM fun v _ => hnode v

lemma finding_of_mem_references {current : Address} {raw : Node} {d : Diagnostic}
    (hd : d ∈ ((references current raw).run s).1) : ∃ e, d.finding = .unresolved e := by
  rw [run_references] at hd
  obtain ⟨found, hfound, hd⟩ := List.mem_flatten.1 hd
  obtain ⟨v, -, s', rfl⟩ := exists_of_mem_mapM hfound
  obtain ⟨e, -, rfl⟩ := List.mem_map.1 hd
  exact ⟨e, rfl⟩

lemma severity_of_mem_references {current : Address} {raw : Node} {d : Diagnostic}
    (hd : d ∈ ((references current raw).run s).1) : d.severity = .error := by
  obtain ⟨e, he⟩ := finding_of_mem_references hd
  rw [Diagnostic.severity, he, Finding.severity]

/-! ## Properties that share a name -/

lemma keys_entries_forget (n : Node) (kind : KeyedKind) :
    OrderedMap.keys (n.forget.entries kind) = OrderedMap.keys (n.entries kind) := by
  rw [Node.entries_eq, Node.entries_eq, Node.keywords_forget, OrderedMap.keys, OrderedMap.keys,
    List.flatMap_map, List.map_flatMap, List.map_flatMap]
  refine List.flatMap_congr fun k _ => ?_
  cases k with
  | keyed kind' members =>
    simp only [Keyword.map, Keyword.entriesOf]
    split
    · simp
    · rfl
  | _ => rfl

lemma duplicates_congr {n m : Node} (h : n.forget = m.forget) : duplicates n = duplicates m := by
  unfold duplicates
  simp only [← keys_entries_forget n, h, keys_entries_forget m]

/-- Where no properties share a name, none of those that are projected do. -/
lemma not_repeatsProperty_of_duplicates {n : Node} (h : duplicates n = []) :
    ¬ n.RepeatsProperty := by
  rintro ⟨kind, hkind, hrepeats⟩
  have hmem : kind ∈ [KeyedKind.properties, .patternProperties] := by simpa using hkind
  have hnone := List.filterMap_eq_nil_iff.1 h kind hmem
  have hrepeated : Node.repeatedNames (OrderedMap.keys (n.entries kind)) = [] := by
    split at hnone
    · assumption
    · cases hnone
  refine hrepeats (Node.repeatedNames_eq_nil.1 hrepeated |>.sublist ?_)
  exact (List.filter_sublist).map Prod.fst

/-- A judgement is about names that properties share, about an enumeration, or, at the root of a
catalog, about a method. -/
lemma mem_judge_iff {catalog : Bool} {n : Node} {path : List String} {d : Diagnostic} :
    d ∈ judge catalog n path ↔
      (∃ names ∈ duplicates n, ⟨path, .duplicateProperties names⟩ = d) ∨
      (∃ values names, unmatched? n = some (values, names) ∧
        ⟨path, .unmatchedNames values names⟩ = d) ∨
      ((catalog = true ∧ path = []) ∧
        ∃ name ∈ uncategorized n, ⟨["methods", name], .uncategorized name⟩ = d) := by
  have hcatalog : (d ∈ if (catalog && path.isEmpty) = true then
        (uncategorized n).map fun name => ⟨["methods", name], .uncategorized name⟩ else []) ↔
      (catalog = true ∧ path = []) ∧
        ∃ name ∈ uncategorized n, ⟨["methods", name], .uncategorized name⟩ = d := by
    have hroot : (catalog && path.isEmpty) = true ↔ catalog = true ∧ path = [] := by simp
    rw [← hroot]
    split <;> simp [*]
  unfold judge
  rw [List.mem_append, List.mem_append, List.mem_map, List.mem_map, hcatalog, or_assoc]
  simp only [Option.mem_toList, Prod.exists]

lemma clean_judge_iff {catalog : Bool} {n : Node} {path : List String} :
    (∀ d ∈ judge catalog n path, d.severity ≠ .error) ↔ duplicates n = [] := by
  constructor
  · intro h
    rw [List.eq_nil_iff_forall_not_mem]
    exact fun names hnames => h _ (mem_judge_iff.2 (.inl ⟨names, hnames, rfl⟩)) rfl
  · intro hn d hd
    rcases mem_judge_iff.1 hd with ⟨names, hnames, -⟩ | ⟨_, _, -, rfl⟩ | ⟨-, _, -, rfl⟩
    · rw [hn] at hnames
      exact absurd hnames List.not_mem_nil
    · exact Severity.noConfusion
    · exact Severity.noConfusion

/-! ## One document -/

variable {limit : Nat} {o : Options} {d : Document} {raw : Node}

/-- The check of a document looks its references up, resolves it and judges what it resolves to,
and stops where it finds errors. -/
lemma run_document (limit : Nat) (o : Options) (d : Document) (raw : Node) (s : Resolver) :
    (document limit o d raw).run s =
      match (references d.address raw).run s with
      | ([], s₁) =>
        match outcome (Resolution.document limit d.address) s₁ with
        | (.error e, s₂) => ([⟨[], .unresolved e⟩], s₂)
        | (.ok n, s₂) =>
          (n.visits.flatMap fun v => judge (d.fileName == o.methodsFile) v.1 v.2, s₂)
      | (e :: broken, s₁) => (e :: broken, s₁) := by
  unfold document outcome
  rw [StateT.run_bind]
  generalize (references d.address raw).run s = p
  obtain ⟨_ | ⟨e, broken⟩, s₁⟩ := p
  · change (StateT.run (_ >>= _) s₁) = _
    rw [StateT.run_bind]
    dsimp only
    generalize (Resolution.document limit d.address : Resolution Node).run.run s₁ = q
    obtain ⟨e | n, s₂⟩ := q <;> rfl
  · rfl

/-- Where a check finds no errors in a document, no reference is broken and it resolves, and what
it finds then is found in the nodes of the resolved document. -/
lemma document_of_clean (clean : ∀ e ∈ ((document limit o d raw).run s).1, e.severity ≠ .error) :
    ∃ n, outcome (Resolution.document limit d.address) ((references d.address raw).run s).2 =
        (.ok n, ((document limit o d raw).run s).2) ∧ ∀ v ∈ n.visits, duplicates v.1 = [] := by
  have hbroken : ∀ e ∈ ((references d.address raw).run s).1, e.severity = .error :=
    fun e he => severity_of_mem_references he
  rw [run_document] at clean ⊢
  generalize (references d.address raw).run s = p at hbroken clean ⊢
  obtain ⟨_ | ⟨e, broken⟩, s₁⟩ := p
  · dsimp only at clean ⊢
    generalize outcome (Resolution.document limit d.address) s₁ = q at clean ⊢
    obtain ⟨e | n, s₂⟩ := q
    · exact absurd rfl (clean _ (List.mem_singleton_self _))
    · refine ⟨n, rfl, fun v hv => ?_⟩
      exact clean_judge_iff.1 fun e he => clean e (List.mem_flatMap.2 ⟨v, hv, he⟩)
  · exact absurd (hbroken e List.mem_cons_self) (clean e List.mem_cons_self)

/-- **A document in which a check finds no errors resolves wherever the same trees are held**, and
no properties share a name in what it resolves to. -/
theorem resolves_of_clean (like : Like W s t)
    (clean : ∀ e ∈ ((document limit o d raw).run s).1, e.severity ≠ .error) :
    ∃ W' m t', W.Grows W' ∧ Like W' ((document limit o d raw).run s).2 t' ∧
      outcome (Resolution.document limit d.address) t = (.ok m, t') ∧
      ∀ c ∈ m.nodes, ¬ c.RepeatsProperty := by
  obtain ⟨n, hn, hvisits⟩ := document_of_clean clean
  obtain ⟨W₁, grows₁, like₁⟩ := stays_references d.address raw W s t like
  obtain ⟨W₂, grows₂, like₂, result⟩ := corresponds_document limit d.address like₁
  rw [hn] at like₂ result
  obtain ⟨m, t', hrun, hmatches⟩ : ∃ m t',
      outcome (Resolution.document limit d.address) t = (.ok m, t') ∧ n.Matches W₂ m := by
    generalize outcome (Resolution.document limit d.address) t = q at result ⊢
    obtain ⟨r, t'⟩ := q
    cases result with
    | ok hmatches => exact ⟨_, t', rfl, hmatches⟩
  rw [hrun] at like₂ ⊢
  refine ⟨W₂, m, t', grows₁.trans grows₂, like₂, rfl, fun c hc => ?_⟩
  obtain ⟨c', hc', hforget⟩ := Node.exists_mem_nodes hmatches.forget.symm hc
  obtain ⟨path, hvisit⟩ := (Node.mem_nodes_iff_visits hmatches.listed).1 hc'
  apply not_repeatsProperty_of_duplicates
  rw [← duplicates_congr hforget]
  exact hvisits _ hvisit

/-! ## References into documents that are kept -/

/-- Whether a reference leads to a node with an identity in a document that is kept, so that
looking it up changes nothing. -/
def keeps (s : Resolver) (current : Address) (text : String) : Bool :=
  match current.target text >>= fun target => (target, ·) <$> target.fragmentText with
  | .error _ => false
  | .ok (target, fragment) =>
    (s.registry.anchor? target.withoutFragment fragment).isNone &&
      (OrderedMap.get? s.registry.documents target.withoutFragment.withoutFragment).any fun doc =>
        (Registry.placeIn doc fragment).any fun n => n.identity.isSome

lemma run_reference_of_keeps {current : Address} {text : String} (h : keeps s current text = true) :
    (reference current text).run s = (none, s) := by
  rw [run_reference, outcome_followReference]
  unfold keeps at h
  split at h
  case h_1 => cases h
  case h_2 target fragment htarget =>
    rw [Bool.and_eq_true, Option.isNone_iff_eq_none, Option.any_eq_true] at h
    obtain ⟨hanchor, doc, hdoc, h⟩ := h
    rw [Option.any_eq_true] at h
    obtain ⟨n, hn, hidentity⟩ := h
    have hadopt : s.registry.adopt n = (n, s.registry) := by
      unfold Registry.adopt
      split
      · rfl
      · rw [‹n.identity = none›] at hidentity
        cases hidentity
    have hlookup : (Registry.lookup target.withoutFragment fragment).run.run s.registry =
        (.ok n, s.registry) := by
      unfold Registry.lookup Registry.document
      simp only [Registry.run_bind, Registry.run_get, hdoc, Registry.run_pure, hanchor, hn,
        Registry.run_modifyGet, hadopt]
    dsimp only
    rw [hlookup]
    rfl

lemma run_references_of_keeps {current : Address} {raw : Node} (hraw : raw.Listed W)
    (h : ∀ c ∈ raw.nodes, ∀ text ∈ c.references, keeps s current text = true) :
    (references current raw).run s = ([], s) := by
  have hnode : ∀ v ∈ raw.visits, (brokenAt current v).run s = ([], s) := by
    intro v hv
    have htexts := h v.1 ((Node.mem_nodes_iff_visits hraw).2 ⟨v.2, hv⟩)
    have hfaults := run_mapM_of_run (g := fun _ => none) fun text htext =>
      run_reference_of_keeps (htexts text htext)
    unfold brokenAt
    rw [StateT.run_bind, hfaults]
    change (((v.1.references.map fun _ => none).filterMap id).map _, s) = ([], s)
    rw [List.filterMap_map]
    simp
  rw [run_references, run_mapM_of_run (g := fun _ => []) hnode]
  simp

end Check

end SchemaCatalog
