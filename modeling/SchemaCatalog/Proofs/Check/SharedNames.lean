import SchemaCatalog.Proofs.Check.Findings
import SchemaCatalog.Proofs.Resolution.Session

/-!
# Properties that share a name

Merging may give a schema two properties of one name.  Projection fails then, and the check reports
the names as an error, in the words of projection.  But the check goes by all members of
`properties` and `patternProperties`, whereas projection leaves those out that have no keywords.

So the check misses no failure: the names that projection stumbles over are among those that the
check reports (`Node.subset_duplicates_of_error`).  If no schema without keywords shares its name
with another member, check and projection agree, down to the list of names
(`Node.shape_error_iff_duplicates`).  If a schema is projected all the same, each of the names that
are reported is that of a schema without keywords (`Node.placeholder_of_duplicates`).  That a
property and a placeholder for it suffice for an error is shown by `Check.duplicate_false`.
-/

namespace SchemaCatalog

open Api

/-- The keyed keywords whose members become properties. -/
def propertyKinds : List KeyedKind := [.properties, .patternProperties]

/-- The lists of names that are shared, for each kind of properties. -/
def sharedNames (keys : KeyedKind → List String) : List (List String) :=
  propertyKinds.filterMap fun kind =>
    match Node.repeatedNames (keys kind) with
    | [] => none
    | names => some names

lemma mem_propertyKinds {kind : KeyedKind} :
    kind ∈ propertyKinds ↔ kind = .properties ∨ kind = .patternProperties := by
  simp [propertyKinds]

lemma mem_sharedNames {keys : KeyedKind → List String} {names : List String} :
    names ∈ sharedNames keys ↔
      names ≠ [] ∧ ∃ kind ∈ propertyKinds, Node.repeatedNames (keys kind) = names := by
  simp only [sharedNames, List.mem_filterMap]
  constructor
  · rintro ⟨kind, hkind, h⟩
    split at h
    case h_1 => cases h
    case h_2 hnames =>
      obtain rfl := Option.some.inj h
      exact ⟨hnames, kind, hkind, rfl⟩
  · rintro ⟨hnames, kind, hkind, rfl⟩
    refine ⟨kind, hkind, ?_⟩
    split
    · contradiction
    · rfl

namespace Node

variable {n : Node} {name : Option String}

lemma duplicates_eq (n : Node) :
    Check.duplicates n = sharedNames fun kind => OrderedMap.keys (n.entries kind) := rfl

/-! ## What projection reports -/

lemma exists_shownShapes (h : ∀ c, n.Shows c → ∃ o, c.shape none = .ok o) {kind : KeyedKind}
    (hkind : kind ∈ propertyKinds) : ∃ shapes, n.shownShapes kind = .ok shapes ∧
      shapes.filterMap Shape.name = OrderedMap.keys (n.shownEntries kind) := by
  have hall : ∀ e ∈ n.shownEntries kind, ∃ s,
      (requireNamed n.requiredNames e.1 <$> e.2.shape (some e.1)) = .ok s := by
    intro e he
    obtain ⟨o, ho⟩ : ∃ o, e.2.shape (some e.1) = .ok o :=
      exists_shape_congr (h e.2 (.inl ⟨kind, mem_propertyKinds.1 hkind, List.mem_map_of_mem he⟩))
    exact ⟨_, map_eq_ok_iff.2 ⟨o, ho, rfl⟩⟩
  obtain ⟨shapes, hshapes⟩ := exists_mapM_eq_ok_iff.2 hall
  exact ⟨shapes, hshapes, names_of_shownShapes hshapes⟩

/-- If all that a schema shows is projected, its own projection fails with the names that the shown
properties share, or else the shown pattern properties. -/
theorem shape_error_iff (h : ∀ c, n.Shows c → ∃ o, c.shape none = .ok o) {names : List String} :
    n.shape name = .error (.duplicateProperty names) ↔
      (sharedNames fun kind => OrderedMap.keys (n.shownEntries kind)).head? = some names := by
  obtain ⟨ps, hps, hpnames⟩ := exists_shownShapes h (mem_propertyKinds.2 (.inl rfl))
  obtain ⟨qs, hqs, hqnames⟩ := exists_shownShapes h (mem_propertyKinds.2 (.inr rfl))
  have branches {kind : OrderedKind} (hkind : kind = .allOf ∨ kind = .oneOf) :
      ∃ bs, (n.shownBranches kind).mapM (shape none) = .ok bs :=
    exists_mapM_eq_ok_iff.2 fun c hc => h c (.inr (.inr ⟨kind, hkind, hc⟩))
  obtain ⟨bs, hbs⟩ := branches (.inl rfl)
  obtain ⟨cs, hcs⟩ := branches (.inr rfl)
  obtain ⟨i, hi⟩ : ∃ i, n.shownItem?.mapM (shape none) = .ok i := by
    cases hitem : n.shownItem? with
    | none => exact ⟨none, rfl⟩
    | some c =>
      obtain ⟨o, ho⟩ := h c (.inr (.inl hitem))
      exact ⟨some o, by rw [Option.mapM_some, ho]; rfl⟩
  rw [shape_eq, hi, hps, hqs, hbs, hcs, sharedNames, propertyKinds]
  simp only [List.filterMap_cons, List.filterMap_nil, bind, Except.bind, distinct, hpnames, hqnames]
  cases repeatedNames (OrderedMap.keys (n.shownEntries .properties)) with
  | cons s names => simp
  | nil =>
    cases repeatedNames (OrderedMap.keys (n.shownEntries .patternProperties)) with
    | cons s names => simp
    | nil => simp [pure, Except.pure]

/-! ## What the check reports -/

/-- Whether no schema without keywords has the name of another property. -/
def PlaceholdersApart (n : Node) : Prop :=
  ∀ kind ∈ propertyKinds, ∀ e ∈ n.entries kind, e.2.isEmpty = true →
    (OrderedMap.keys (n.entries kind)).count e.1 = 1

/-- To leave out members whose names come once changes nothing about the names that come again. -/
lemma repeatedNames_filter {p : String × Node → Bool} {l : List (String × Node)}
    (h : ∀ e ∈ l, p e = false → (OrderedMap.keys l).count e.1 = 1) :
    repeatedNames (OrderedMap.keys (l.filter p)) = repeatedNames (OrderedMap.keys l) := by
  -- The names seen may differ in those of members that were left out, which do not come again.
  suffices run : ∀ seen seen' twice, (∀ e ∈ l, e.1 ∈ seen' ↔ e.1 ∈ seen) →
      (∀ e ∈ l, p e = false → e.1 ∉ seen) →
      ((OrderedMap.keys (l.filter p)).foldl note (seen', twice)).2 =
        ((OrderedMap.keys l).foldl note (seen, twice)).2 by
    exact run [] [] [] (fun _ _ => Iff.rfl) fun _ _ _ => List.not_mem_nil
  induction l with
  | nil => exact fun _ _ _ _ _ => rfl
  | cons e l ih =>
    intro seen seen' twice hseen hnew
    have hothers (e' : String × Node) (he' : e' ∈ l) (hp : p e = false ∨ p e' = false) :
        e'.1 ≠ e.1 := by
      intro heq
      have hmem : e'.1 ∈ OrderedMap.keys l := List.mem_map_of_mem he'
      have hcount : (OrderedMap.keys (e :: l)).count e.1 = 1 := by
        rcases hp with hp | hp
        · exact h e List.mem_cons_self hp
        · rw [← heq]
          exact h e' (List.mem_cons_of_mem _ he') hp
      rw [OrderedMap.keys_cons, List.count_cons_self, ← heq] at hcount
      have := List.one_le_count_iff.2 hmem
      omega
    have hl : ∀ e' ∈ l, p e' = false → (OrderedMap.keys l).count e'.1 = 1 := by
      intro e' he' hp
      have hcount := h e' (List.mem_cons_of_mem _ he') hp
      rwa [OrderedMap.keys_cons, List.count_cons_of_ne (hothers e' he' (.inr hp)).symm] at hcount
    obtain ⟨hhead, hseen⟩ := List.forall_mem_cons.1 hseen
    obtain ⟨hheadnew, hnew⟩ := List.forall_mem_cons.1 hnew
    cases hp : p e with
    | true =>
      rw [List.filter_cons_of_pos hp, OrderedMap.keys_cons, OrderedMap.keys_cons, List.foldl_cons,
        List.foldl_cons]
      simp only [note, hhead]
      split
      · exact ih hl seen seen' _ hseen hnew
      · refine ih hl _ _ _ (fun e' he' => ?_) fun e' he' hp' => ?_
        · simp only [List.mem_cons, hseen e' he']
        · simp only [List.mem_cons, not_or]
          exact ⟨hothers e' he' (.inr hp'), hnew e' he' hp'⟩
    | false =>
      rw [List.filter_cons_of_neg (by simp [hp]), OrderedMap.keys_cons, List.foldl_cons]
      simp only [note, hheadnew hp, if_false]
      refine ih hl _ _ _ (fun e' he' => ?_) fun e' he' hp' => ?_
      · simp only [List.mem_cons, hothers e' he' (.inl hp), false_or, hseen e' he']
      · simp only [List.mem_cons, not_or]
        exact ⟨hothers e' he' (.inl hp), hnew e' he' hp'⟩

lemma sharedNames_shownEntries (h : n.PlaceholdersApart) :
    (sharedNames fun kind => OrderedMap.keys (n.shownEntries kind)) = Check.duplicates n := by
  rw [duplicates_eq, sharedNames, sharedNames]
  refine List.filterMap_congr fun kind hkind => ?_
  rw [shownEntries, repeatedNames_filter]
  intro e he hempty
  exact h kind hkind e he (by simpa using hempty)

section Shown

variable (h : ∀ c, n.Shows c → ∃ o, c.shape none = .ok o) {names : List String}

include h

/-- **The check misses no failure of projection**, and none of the names. -/
theorem subset_duplicates_of_error (herror : n.shape name = .error (.duplicateProperty names)) :
    ∃ reported ∈ Check.duplicates n, names ⊆ reported := by
  have hnames := List.mem_of_head? ((shape_error_iff h).1 herror)
  obtain ⟨hnil, kind, hkind, rfl⟩ := mem_sharedNames.1 hnames
  have hsubset : repeatedNames (OrderedMap.keys (n.shownEntries kind)) ⊆
      repeatedNames (OrderedMap.keys (n.entries kind)) := by
    intro s hs
    rw [mem_repeatedNames] at hs ⊢
    exact hs.trans ((List.filter_sublist.map Prod.fst).count_le s)
  refine ⟨_, mem_sharedNames.2 ⟨fun hempty => hnil ?_, kind, hkind, rfl⟩, hsubset⟩
  rw [hempty] at hsubset
  exact List.subset_nil.1 hsubset

/-- **Where placeholders stand apart, the check and projection agree**: projection fails with the
first list of names that the check reports, and it fails wherever the check reports one. -/
theorem shape_error_iff_duplicates (apart : n.PlaceholdersApart) :
    n.shape name = .error (.duplicateProperty names) ↔
      (Check.duplicates n).head? = some names := by
  rw [shape_error_iff h, sharedNames_shownEntries apart]

end Shown

/-- If a schema is projected, each name that the check reports is that of a placeholder. -/
theorem placeholder_of_duplicates {o : Shape} (ho : n.shape name = .ok o) {reported : List String}
    (hreported : reported ∈ Check.duplicates n) {s : String} (hs : s ∈ reported) :
    ∃ kind ∈ propertyKinds, ∃ e ∈ n.entries kind, e.1 = s ∧ e.2.isEmpty = true := by
  rw [duplicates_eq, mem_sharedNames] at hreported
  obtain ⟨-, kind, hkind, rfl⟩ := hreported
  by_contra hnone
  have hshown (e : String × Node) (he : e ∈ n.entries kind) (hname : e.1 = s) :
      e ∈ n.shownEntries kind :=
    List.mem_filter.2 ⟨he, by simpa using fun hempty => hnone ⟨kind, hkind, e, he, hname, hempty⟩⟩
  have hcount : (OrderedMap.keys (n.entries kind)).count s =
      (OrderedMap.keys (n.shownEntries kind)).count s := by
    rw [shownEntries, OrderedMap.keys, OrderedMap.keys, List.count_eq_countP, List.count_eq_countP,
      List.countP_map, List.countP_map, List.countP_filter]
    refine List.countP_congr fun e he => ?_
    simp only [Function.comp_apply, beq_iff_eq, Bool.and_eq_true, iff_self_and]
    exact fun hname => (List.mem_filter.1 (hshown e he hname)).2
  obtain ⟨hrepeats, -⟩ := exists_shape_iff_shows.1 ⟨o, ho⟩
  refine hrepeats ⟨kind, mem_propertyKinds.1 hkind, fun hnodup => ?_⟩
  have htwice := mem_repeatedNames.1 hs
  have hone := List.nodup_iff_count_le_one.1 hnodup s
  omega

end Node

namespace Check

/-- **How true the error of shared names is.**  In each document of a corpus that a check resolves,
each node is judged, and the judgement reports the lists of names that properties share.  If all
that the node shows is projected, then the names with which its own projection fails are among those
that are reported; where placeholders stand apart, its projection fails exactly if names are
reported, and the first list is the one that projection fails with; and where it is projected, the
names that are reported are those of placeholders. -/
theorem duplicates_true_iff {limit : Nat} {c : Corpus} {o : Options} {strict : Bool} {r : Registry}
    (coherent : r.Coherent) {f : FileResult}
    (hf : f ∈ ((corpus limit c o strict).run (.ofRegistry r)).1.results) :
    ∃ d ∈ c.documents, f.file = d.name ∧
      ((∀ e ∈ f.diagnostics, e.finding.Blocks) ∨ ∃ n, Found limit o d n f) ∧
      ∀ n, Found limit o d n f → ∀ m ∈ n.nodes, (∃ path, (m, path) ∈ n.visits) ∧
        (∀ path names, (⟨path, .duplicateProperties names⟩ : Diagnostic) ∈
            judge (d.fileName == o.methodsFile) m path ↔ names ∈ duplicates m) ∧
        ((∀ c, m.Shows c → ∃ s, c.shape none = .ok s) → ∀ name,
          (∀ names, m.shape name = .error (.duplicateProperty names) →
            ∃ reported ∈ duplicates m, names ⊆ reported) ∧
          (m.PlaceholdersApart → ∀ names, m.shape name = .error (.duplicateProperty names) ↔
            (duplicates m).head? = some names) ∧
          ∀ s, m.shape name = .ok s → ∀ reported ∈ duplicates m, ∀ key ∈ reported,
            ∃ kind ∈ propertyKinds, ∃ e ∈ m.entries kind, e.1 = key ∧ e.2.isEmpty = true) := by
  obtain ⟨d, hd, hname, hfound⟩ := found_of_mem_results coherent hf
  refine ⟨d, hd, hname, hfound, fun n hn m hm => ⟨(hn.visited m).1 hm, ?_, ?_⟩⟩
  · intro path names
    simp [mem_judge_iff]
  · intro hshown name
    exact ⟨fun names => Node.subset_duplicates_of_error hshown,
      fun apart names => Node.shape_error_iff_duplicates hshown apart,
      fun s hs reported hreported key => Node.placeholder_of_duplicates hs hreported⟩

end Check

/-! ## Accounts -/

/-- A schema of accounts, whose identifier is a string, on top of one that says something else of
it. -/
def Document.account (shared : String) : Document where
  name := "account.json"
  address := .inMemory "account"
  content := ("\x7b\"properties\": \x7b\"id\": \x7b\"type\": \"string\"\x7d\x7d, " ++
    "\"$ref\": \"#/definitions/base\", " ++
    "\"definitions\": \x7b\"base\": \x7b\"properties\": \x7b\"id\": " ++ shared ++
    "\x7d\x7d\x7d\x7d").toUTF8

/-- The corpus of that schema alone. -/
def Corpus.account (shared : String) : Corpus := ⟨.inMemory "", [.account shared]⟩

namespace Check

/-- If both schemas of an account say of its identifier what it is, it has no shape, and the check
reports just what projection fails with. -/
theorem duplicates_true_iff_account :
    ∃ f ∈ ((corpus 3 (.account "\x7b\"type\": \"integer\"\x7d") {} true).run
        (.ofRegistry {})).1.results, ∃ n path,
      Found 3 {} (.account "\x7b\"type\": \"integer\"\x7d") n f ∧ (n, path) ∈ n.visits ∧
        ⟨path, .duplicateProperties ["id"]⟩ ∈ judge false n path ∧
        n.shape none = .error (.duplicateProperty ["id"]) := by
  obtain ⟨f, hresults, n, hn, hfound⟩ := exists_found_of_one 3 {} true (.inMemory "")
    (d := .account "\x7b\"type\": \"integer\"\x7d") (P := fun n =>
      (duplicates n).head? == some ["id"] &&
      propertyKinds.all (fun kind => (n.entries kind).all fun e => !e.2.isEmpty) &&
      n.keywords.all fun k => k.nested.all fun c => (c.shape none).isOk)
    (by decide +kernel)
  have hf : f ∈ ((corpus 3 (.account "\x7b\"type\": \"integer\"\x7d") {} true).run
      (.ofRegistry {})).1.results := by
    rw [Corpus.account, hresults]
    exact List.mem_singleton_self f
  simp only [Bool.and_eq_true, beq_iff_eq, List.all_eq_true, Bool.not_eq_true'] at hn
  obtain ⟨⟨hreported, hempty⟩, hnested⟩ := hn
  have apart : n.PlaceholdersApart := by
    intro kind hkind e he hplaceholder
    rw [hempty kind hkind e he] at hplaceholder
    cases hplaceholder
  have hshown (c : Node) (hc : n.Shows c) : ∃ s, c.shape none = .ok s := by
    obtain ⟨k, hk, hc⟩ := hc.nested
    exact exists_eq_ok_of_isOk (hnested k hk c hc)
  obtain ⟨d, hd, -, -, hjudged⟩ := duplicates_true_iff (Registry.coherent_source none) hf
  obtain rfl := List.mem_singleton.1 hd
  obtain ⟨⟨path, hvisit⟩, hreports, hagree⟩ := hjudged n hfound n n.self_mem_nodes
  refine ⟨f, hf, n, path, hfound, hvisit, ?_, ?_⟩
  · exact (hreports path ["id"]).2 (List.mem_of_head? hreported)
  · exact ((hagree hshown none).2.1 apart ["id"]).2 hreported

/-- If the shared schema of an account leaves its identifier open, the check reports the identifier,
but the account has a shape. -/
theorem duplicate_false :
    ∃ f ∈ ((corpus 3 (.account "\x7b\x7d") {} true).run (.ofRegistry {})).1.results, ∃ n path s,
      Found 3 {} (.account "\x7b\x7d") n f ∧ (n, path) ∈ n.visits ∧
        ⟨path, .duplicateProperties ["id"]⟩ ∈ judge false n path ∧ n.shape none = .ok s := by
  obtain ⟨f, hresults, n, hn, hfound⟩ := exists_found_of_one 3 {} true (.inMemory "")
    (d := .account "\x7b\x7d") (P := fun n =>
      (duplicates n).head? == some ["id"] && (n.shape none).isOk)
    (by decide +kernel)
  rw [Bool.and_eq_true, beq_iff_eq] at hn
  obtain ⟨hreported, hshape⟩ := hn
  obtain ⟨s, hs⟩ := exists_eq_ok_of_isOk hshape
  obtain ⟨path, hvisit⟩ := (hfound.visited n).1 n.self_mem_nodes
  refine ⟨f, ?_, n, path, s, hfound, hvisit, ?_, hs⟩
  · rw [Corpus.account, hresults]
    exact List.mem_singleton_self f
  · exact mem_judge_iff.2 (.inl ⟨["id"], List.mem_of_head? hreported, rfl⟩)

end Check

end SchemaCatalog
