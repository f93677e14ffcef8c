import SchemaCatalog.Proofs.Api.FoldedShapes
import SchemaCatalog.Proofs.Resolution.DecodeEncode

/-!
# The shapes of merged schemas and of their values

A merged schema and the value it is written as are projected alike but in two cases.  Where two
properties have one name the schema has no shape, even if they are defined alike and the value has
them once; and where a later `required` requires more than the first one, the value requires it too,
for its lists are united.  `Produced.shape_of_encode` says so of everything that decoding and
resolving produce.

The way from the schema to the decoded value is that of `Node.Folds` and `Node.positional`: keywords
are folded, which keeps the shape of one level (`Node.shape_fold`), the schemas inside are folded in
turn, and entries that go by position, which projection does not look at, get new keys
(`Keyword.ShownLike`).
-/

namespace SchemaCatalog

open Api Relation

/-! ## Schemas that differ inside -/

/-- Two keywords that are alike for projection: they hold related schemas, or entries by position,
which are not projected. -/
def Keyword.ShownLike (R : Node → Node → Prop) (k l : Keyword) : Prop :=
  Related R k l ∨ ∃ kind members members', KeyedKind.isPositional kind = true ∧
    k = .keyed kind members ∧ l = .keyed kind members'

namespace Keyword

variable {R : Node → Node → Prop} {k l : Keyword}

lemma ShownLike.facet?_eq (h : ShownLike R k l) : l.facet? = k.facet? := by
  rcases h with h | ⟨kind, a, b, -, rfl, rfl⟩
  · cases h <;> rfl
  · rfl

lemma ShownLike.entriesOf (h : ShownLike R k l) {kind : KeyedKind}
    (hkind : kind.isPositional = false) :
    List.Forall₂ (fun e e' => e.1 = e'.1 ∧ R e.2 e'.2) (k.entriesOf kind) (l.entriesOf kind) := by
  rcases h with h | ⟨kind', a, b, hkind', rfl, rfl⟩
  · cases h with
    | @keyed kind' members members' h =>
      by_cases hk : kind' = kind
      · simpa [Keyword.entriesOf, hk] using h
      · simp [Keyword.entriesOf, hk]
    | _ => exact .nil
  · have hne : kind' ≠ kind := by
      rintro rfl
      rw [hkind] at hkind'
      cases hkind'
    simp [Keyword.entriesOf, hne]

lemma ShownLike.branchesOf (h : ShownLike R k l) (kind : OrderedKind) :
    List.Forall₂ R (k.branchesOf kind) (l.branchesOf kind) := by
  rcases h with h | ⟨kind', a, b, -, rfl, rfl⟩
  · cases h with
    | @ordered kind' schemas schemas' h =>
      by_cases hk : kind' = kind
      · simpa [Keyword.branchesOf, hk] using h
      · simp [Keyword.branchesOf, hk]
    | _ => exact .nil
  · exact .nil

lemma ShownLike.itemOf? (h : ShownLike R k l) :
    Option.Rel (Option.Rel R) k.itemOf? l.itemOf? := by
  rcases h with h | ⟨kind', a, b, -, rfl, rfl⟩
  · cases h with
    | @ordered kind' schemas schemas' h =>
      cases kind' with
      | items =>
        refine .some ?_
        cases h with
        | nil => exact .none
        | cons h _ => exact .some h
      | _ => exact .none
    | _ => exact .none
  · exact .none

end Keyword

namespace Node

variable {R : Node → Node → Prop} {a b : Node}

lemma facets_of_shownLike (h : List.Forall₂ (Keyword.ShownLike R) a.keywords b.keywords) :
    b.facets = a.facets := by
  rw [facets, facets]
  generalize a.keywords = ks, b.keywords = ls at h
  induction h with
  | nil => rfl
  | cons h _ ih => rw [List.filterMap_cons, List.filterMap_cons, h.facet?_eq, ih]

lemma shownEntries_of_shownLike (h : List.Forall₂ (Keyword.ShownLike R) a.keywords b.keywords)
    (hR : ∀ c d, R c d → c.isEmpty = d.isEmpty) {kind : KeyedKind}
    (hkind : kind.isPositional = false) :
    List.Forall₂ (fun e e' => e.1 = e'.1 ∧ R e.2 e'.2) (a.shownEntries kind)
      (b.shownEntries kind) := by
  rw [shownEntries, shownEntries, entries_eq, entries_eq]
  refine List.rel_filter (fun e e' h => ?_) (List.rel_flatMap h fun k l h => h.entriesOf hkind)
  simp only [hR _ _ h.2]

lemma shownBranches_of_shownLike (h : List.Forall₂ (Keyword.ShownLike R) a.keywords b.keywords)
    (hR : ∀ c d, R c d → c.isEmpty = d.isEmpty) (kind : OrderedKind) :
    List.Forall₂ R (a.shownBranches kind) (b.shownBranches kind) := by
  refine List.rel_filter (fun c d h => ?_) (List.rel_flatMap h fun k l h => h.branchesOf kind)
  simp only [hR _ _ h]

lemma shownItem?_of_shownLike (h : List.Forall₂ (Keyword.ShownLike R) a.keywords b.keywords)
    (hR : ∀ c d, R c d → c.isEmpty = d.isEmpty) :
    Option.Rel R a.shownItem? b.shownItem? := by
  have hjoin : Option.Rel R (a.keywords.findSome? Keyword.itemOf?).join
      (b.keywords.findSome? Keyword.itemOf?).join := by
    generalize a.keywords = ks, b.keywords = ls at h
    induction h with
    | nil => exact .none
    | @cons k l ks ls h _ ih =>
      have hitem := h.itemOf?
      rw [List.findSome?_cons, List.findSome?_cons]
      generalize k.itemOf? = x, l.itemOf? = y at hitem
      cases hitem with
      | none => exact ih
      | some h => exact h
  rw [shownItem?, shownItem?]
  generalize (a.keywords.findSome? Keyword.itemOf?).join = x,
    (b.keywords.findSome? Keyword.itemOf?).join = y at hjoin
  cases hjoin with
  | none => exact .none
  | @some c d h =>
    rw [Option.filter_some, Option.filter_some, hR _ _ h]
    split
    · exact .some h
    · exact .none

lemma mapM_eq_of_forall₂ {α β γ ε : Type} {f : α → Except ε γ} {g : β → Except ε γ} {l : List α}
    {l' : List β} (h : List.Forall₂ (fun x y => g y = f x) l l') : l'.mapM g = l.mapM f := by
  induction h with
  | nil => rfl
  | cons h _ ih => rw [List.mapM_cons, List.mapM_cons, h, ih]

/-- Schemas have one shape if they are alike for projection and the schemas that they show have. -/
theorem shape_of_shownLike (h : List.Forall₂ (Keyword.ShownLike R) a.keywords b.keywords)
    (hframe : b.FrameLike a) (hR : ∀ c d, R c d → c.isEmpty = d.isEmpty)
    (hshape : ∀ c d, a.Shows c → R c d → ∀ name, d.shape name = c.shape name)
    (name : Option String) : b.shape name = a.shape name := by
  have entries {kind : KeyedKind} (hkind : kind = .properties ∨ kind = .patternProperties) :
      b.shownShapes kind = a.shownShapes kind := by
    have hpositional : kind.isPositional = false := by rcases hkind with rfl | rfl <;> rfl
    refine mapM_eq_of_forall₂ (forall₂_imp_of_mem (shownEntries_of_shownLike h hR hpositional)
      fun e he e' _ hrel => ?_)
    have hshows : a.Shows e.2 := .inl ⟨kind, hkind, List.mem_map_of_mem he⟩
    rw [hshape _ _ hshows hrel.2, hrel.1, requiredNames, requiredNames, hframe.required?]
  have branches {kind : OrderedKind} (hkind : kind = .allOf ∨ kind = .oneOf) :
      (b.shownBranches kind).mapM (shape none) = (a.shownBranches kind).mapM (shape none) := by
    refine mapM_eq_of_forall₂ (forall₂_imp_of_mem (shownBranches_of_shownLike h hR kind)
      fun c hc d _ hrel => ?_)
    exact hshape _ _ (.inr (.inr ⟨kind, hkind, hc⟩)) hrel none
  have item : b.shownItem?.mapM (shape none) = a.shownItem?.mapM (shape none) := by
    have hrel := shownItem?_of_shownLike h hR
    cases ha : a.shownItem? with
    | none =>
      rw [ha] at hrel
      generalize b.shownItem? = y at hrel
      cases hrel
      rfl
    | some c =>
      rw [ha] at hrel
      generalize b.shownItem? = y at hrel
      cases hrel with
      | some hrel =>
        rw [Option.mapM_some, Option.mapM_some, hshape _ _ (.inr (.inl ha)) hrel]
  rw [shape_eq, shape_eq, item, entries (.inl rfl), entries (.inr rfl), branches (.inl rfl),
    branches (.inr rfl), hframe.frame_eq]

/-- Schemas are framed alike if they are alike for projection and related schemas have one truth
value and are empty together. -/
lemma frameLike_of_shownLike (h : List.Forall₂ (Keyword.ShownLike R) a.keywords b.keywords)
    (hR : ∀ c d, R c d → c.truth = d.truth ∧ c.isEmpty = d.isEmpty) : b.FrameLike a := by
  have hfacets := facets_of_shownLike h
  have facet {α : Type} (f : Facet → Option α) : b.firstFacet? f = a.firstFacet? f := by
    rw [firstFacet?, firstFacet?, hfacets]
  exact {
    isEmpty := by
      rw [isEmpty, isEmpty]
      generalize a.keywords = ks, b.keywords = ls at h
      cases h <;> rfl
    typeNames := by rw [typeNames, typeNames, hfacets]
    required? := facet _
    count? := fun _ => facet _
    limit? := fun _ => facet _
    label? := fun _ => facet _
    flag := fun _ => congrArg (Option.getD · false) (facet _)
    defaultText? := facet _
    declaredValues? := facet _
    declaredNames? := facet _
    allowsMore := by
      rw [allowsMore, allowsMore]
      congr 1
      generalize a.keywords = ks, b.keywords = ls at h
      clear facet hfacets
      induction h with
      | nil => rfl
      | @cons k l ks ls h _ ih =>
        rw [List.findSome?_cons, List.findSome?_cons, ih]
        rcases h with h | ⟨kind, c, d, -, rfl, rfl⟩
        · cases h with
          | @additionalProperties schema schema' h =>
            obtain ⟨htruth, hempty⟩ := hR _ _ h
            simp only [htruth, hempty]
          | _ => rfl
        · rfl }

/-! ## Folded trees -/

variable {n m : Node}

lemma Folds.truth_eq (h : n.Folds m) : n.truth = m.positional.truth := by
  cases h
  rw [positional_eq]

lemma Folds.isEmpty_eq (h : n.Folds m) : n.isEmpty = m.positional.isEmpty := by
  cases h with
  | fold _ folded keywords =>
    rw [positional_eq, isEmpty, isEmpty, ← Keyword.isEmpty_foldWith folded]
    cases keywords <;> rfl

/-- Related keywords are alike for projection, with their entries under their positions. -/
lemma shownLike_positional {P : Node → Node → Prop} {ks ks' : List Keyword}
    (h : List.Forall₂ (Keyword.Related P) ks ks') :
    List.Forall₂ (Keyword.ShownLike fun c d => ∃ d', P c d' ∧ d = d'.positional) ks
      (ks'.map fun k => (k.map positional).rekeyed) := by
  rw [List.forall₂_map_right_iff]
  refine h.imp fun k k' hrel => ?_
  cases hrel with
  | @keyed kind members members' h =>
    cases hkind : kind.isPositional with
    | true => exact .inr ⟨kind, members, _, hkind, rfl, rfl⟩
    | false =>
      left
      rw [Keyword.map, Keyword.rekeyed, KeyedKind.rekey, hkind]
      refine .keyed ?_
      rw [if_neg Bool.false_ne_true, List.forall₂_map_right_iff]
      exact h.imp fun e e' h => ⟨h.1, e'.2, h.2, rfl⟩
  | ordered h =>
    refine .inl (.ordered ?_)
    rw [List.forall₂_map_right_iff]
    exact h.imp fun c d h => ⟨d, h, rfl⟩
  | additionalProperties h => exact .inl (.additionalProperties ⟨_, h, rfl⟩)
  | ref => exact .inl .ref
  | facet => exact .inl .facet

section Fold

variable {ks : List Keyword} (hn : ¬ n.RepeatsProperty) (hks : ∀ k ∈ n.keywords, k.Proper)
  (hfold : n.foldedKeywords = .ok ks)

include hn hks hfold

lemma shownEntries_fold_of_distinct {kind : KeyedKind}
    (hkind : kind = .properties ∨ kind = .patternProperties) :
    (ofKeywords ks).shownEntries kind = n.shownEntries kind := by
  refine shownEntries_fold ?_ (not_not.1 fun h => hn ⟨kind, hkind, h⟩) hks hfold
  rcases hkind with rfl | rfl <;> rfl

lemma shows_fold {c : Node} : (ofKeywords ks).Shows c ↔ n.Shows c := by
  refine or_congr (exists_congr fun kind => and_congr_right fun hkind => ?_)
    (or_congr ?_ (exists_congr fun kind => and_congr_right fun hkind => ?_))
  · rw [shownEntries_fold_of_distinct hn hks hfold hkind]
  · rw [shownItem?_fold hks hfold]
  · rw [shownBranches_fold (by rcases hkind with rfl | rfl <;> decide) hks hfold]

/-- A schema has the shape of its folded keywords, if its properties have distinct names and no
later `required` requires more. -/
theorem shape_fold (hmore : n.requiresMore = false) (name : Option String) :
    (ofKeywords ks).shape name = n.shape name := by
  have hframe := frameLike_fold hmore hks hfold
  have entries {kind : KeyedKind} (hkind : kind = .properties ∨ kind = .patternProperties) :
      (ofKeywords ks).shownShapes kind = n.shownShapes kind := by
    rw [shownShapes, shownShapes, shownEntries_fold_of_distinct hn hks hfold hkind, requiredNames,
      requiredNames, hframe.required?]
  rw [shape_eq, shape_eq, entries (.inl rfl), entries (.inr rfl), shownItem?_fold hks hfold,
    shownBranches_fold (by decide) hks hfold, shownBranches_fold (by decide) hks hfold,
    hframe.frame_eq]

end Fold

/-- **Folding keeps shapes.**  A tree has the shape of its folded tree, unless somewhere in what is
projected two properties have one name or a later `required` requires more. -/
theorem Folds.shape_eq (h : n.Folds m) (hn : n.Throughout (Carries Keyword.Proper))
    (hprojects : ∀ c, n.Projects c → ¬ c.RepeatsProperty ∧ c.requiresMore = false)
    (name : Option String) : m.positional.shape name = n.shape name := by
  induction h generalizing name with
  | @fold n ks ks' P sub folded keywords ih =>
    obtain ⟨hrepeats, hmore⟩ := hprojects n .refl
    have hks := hn.self.keywords
    rw [← shape_fold hrepeats hks folded hmore, positional_eq]
    have hlike := shownLike_positional keywords
    have hR : ∀ c d, (∃ d', P c d' ∧ d = d'.positional) →
        c.truth = d.truth ∧ c.isEmpty = d.isEmpty := by
      rintro c _ ⟨d, hd, rfl⟩
      exact ⟨(sub c d hd).truth_eq, (sub c d hd).isEmpty_eq⟩
    refine shape_of_shownLike (a := ofKeywords ks) hlike
      (frameLike_of_shownLike (a := ofKeywords ks) hlike hR) (fun c d h => (hR c d h).2) ?_ name
    rintro c _ hc ⟨d, hd, rfl⟩ name
    have hshows := (shows_fold hrepeats hks folded).1 hc
    obtain ⟨k, hk, hnested⟩ := hshows.nested
    exact ih c d hd (hn.nested hk hnested) (fun e he => hprojects e (.head hshows he)) name

/-- A schema repeats no property if its keywords have distinct names and the schemas of each have
distinct keys. -/
lemma not_repeatsProperty (hnames : (n.keywords.map Keyword.name).Nodup)
    (hkeys : ∀ kind members, .keyed kind members ∈ n.keywords → kind.isPositional = false →
      (OrderedMap.keys members).Nodup) : ¬ n.RepeatsProperty := by
  rintro ⟨kind, hkind, hrepeats⟩
  have hpositional : kind.isPositional = false := by rcases hkind with rfl | rfl <;> rfl
  have hentries : (OrderedMap.keys (n.entries kind)).Nodup := by
    rw [entries_eq]
    clear hrepeats
    generalize n.keywords = ks at hnames hkeys
    induction ks with
    | nil => exact List.nodup_nil
    | cons k ks ih =>
      obtain ⟨hnew, hnames⟩ := List.nodup_cons.1 hnames
      rw [List.flatMap_cons]
      by_cases hk : ∃ members, k = .keyed kind members
      · obtain ⟨members, rfl⟩ := hk
        have hothers : ks.flatMap (Keyword.entriesOf kind) = [] := by
          rw [List.flatMap_eq_nil_iff]
          intro l hl
          refine Keyword.entriesOf_eq_nil fun members' hl' => hnew ?_
          exact List.mem_map.2 ⟨l, hl, hl' ▸ rfl⟩
        rw [hothers, List.append_nil, Keyword.entriesOf, if_pos rfl]
        exact hkeys kind members List.mem_cons_self hpositional
      · rw [Keyword.entriesOf_eq_nil fun members h => hk ⟨members, h⟩]
        exact ih hnames fun kind members hmem => hkeys kind members (.tail _ hmem)
  exact hrepeats (hentries.sublist (List.filter_sublist.map _))

theorem Folds.exists_shape (h : n.Folds m) (hn : n.Throughout (Carries Keyword.Proper))
    (name : Option String) : ∃ o, m.positional.shape name = .ok o := by
  induction h generalizing name with
  | @fold n ks ks' P sub folded keywords ih =>
    rw [positional_eq, exists_shape_iff_shows]
    constructor
    · apply not_repeatsProperty
      · have hname : (fun k : Keyword => (k.map positional).rekeyed.name) = Keyword.name := by
          funext k
          rw [Keyword.name_rekeyed, Keyword.name_map]
        rw [List.map_map, Function.comp_def, hname, Keyword.names_of_related keywords]
        exact Keyword.names_foldWith_nodup folded
      · intro kind members hmem hpositional
        obtain ⟨k, hk, hlike⟩ :=
          Keyword.exists_rel_of_mem (shownLike_positional keywords).flip hmem
        have hproper := Keyword.Proper.fold folded hn.self.keywords k hk
        rcases hlike with hrel | ⟨kind', a, b, hkind', rfl, hb⟩
        · cases hrel with
          | keyed hmembers =>
            rw [OrderedMap.keys_eq_of_forall₂ hmembers fun _ _ h => h.1]
            exact hproper.1 hpositional
        · obtain ⟨rfl, -⟩ := Keyword.keyed.inj hb
          rw [hpositional] at hkind'
          cases hkind'
    · intro c hc
      obtain ⟨l, hl, hnested⟩ := hc.nested
      obtain ⟨k', hk', rfl⟩ := List.mem_map.1 hl
      obtain ⟨k, hk, hrel⟩ := Keyword.exists_rel_of_mem keywords.flip hk'
      rw [Keyword.nested_rekeyed, Keyword.nested_map] at hnested
      obtain ⟨d', hd', rfl⟩ := List.mem_map.1 hnested
      obtain ⟨d, hd, hP⟩ := Keyword.exists_rel_of_mem hrel.nested.flip hd'
      obtain ⟨j, hj, hd⟩ := nested_foldedKeywords folded hk hd
      exact ih d d' hP (hn.nested hj hd) none

end Node

/-! ## Merged schemas and their values -/

/-- **Projection and encoding.**  The value of a node that is produced from documents always has a
shape.  The node itself has none exactly if two properties, or two pattern properties, of some
schema that is projected have one name.  Otherwise it has the shape of its value, provided that no
schema that is projected has a later `required` that requires more than its first. -/
theorem Produced.shape_of_encode {D : Json → Prop} {n : Node} {v : Json} (tree : Produced D n)
    (hv : n.encode = .ok v) (name : Option String) :
    ∃ n', Node.decode v = .ok n' ∧ (∃ o, n'.shape name = .ok o) ∧
      ((∃ names, n.shape name = .error (.duplicateProperty names)) ↔
        ∃ c, n.Projects c ∧ c.RepeatsProperty) ∧
      ((∀ c, n.Projects c → ¬ c.RepeatsProperty ∧ c.requiresMore = false) →
        n'.shape name = n.shape name) := by
  obtain ⟨m, hfolds, hback⟩ := Node.readsBack_of_encode tree.proper hv
  refine ⟨m.positional, hback.decode, hfolds.exists_shape tree.proper name, ?_,
    fun h => hfolds.shape_eq tree.proper h name⟩
  have hok : (∃ o, n.shape name = .ok o) ↔ ∀ c, n.Projects c → ¬ c.RepeatsProperty :=
    Node.exists_shape_iff
  constructor
  · rintro ⟨names, herror⟩
    by_contra hnone
    obtain ⟨o, ho⟩ := hok.2 fun c hc hrepeats => hnone ⟨c, hc, hrepeats⟩
    rw [herror] at ho
    cases ho
  · rintro ⟨c, hc, hrepeats⟩
    cases hshape : n.shape name with
    | ok o => exact absurd hrepeats (hok.1 ⟨o, hshape⟩ c hc)
    | error e =>
      obtain ⟨names, rfl⟩ := Node.shape_eq_error hshape
      exact ⟨names, rfl⟩

/-- A document with a property of its own and one of the schema that it refers to. -/
def Json.ownAndShared (own shared : String) : Json :=
  .object [("properties", .object [(own, .object [("type", .string "integer")])]),
    ("required", .array [.string "id"]), ("$ref", .string "#/definitions/base"),
    ("definitions", .object [("base",
      .object [("properties", .object [(shared, .object [("type", .string "integer")])]),
        ("required", .array [.string "id"])])])]

/-- The document as a node. -/
def Node.ownAndShared (own shared : String) : Node :=
  .ofKeywords [.keyed .properties [(own, .ofKeywords [.facet (.type ["integer"])])],
    .facet (.required (.properties ["id"])), .ref "#/definitions/base",
    .keyed .definitions [("base",
      .ofKeywords [.keyed .properties [(shared, .ofKeywords [.facet (.type ["integer"])])],
        .facet (.required (.properties ["id"]))])]]

/-- Whether a node has no shape because properties of these names come twice. -/
def Node.repeats (n : Node) (names : List String) : Bool :=
  match n.shape none with
  | .error e => e == .duplicateProperty names
  | .ok _ => false

/-- Resolved, a document that defines one property twice in the same way has a value, and the value
has a shape, but the document has none. -/
theorem Produced.shape_ne_of_encode :
    ∃ n v n', Produced (fun _ => True) n ∧ n.encode = .ok v ∧ Node.decode v = .ok n' ∧
      (∃ o, n'.shape none = .ok o) ∧
      n.shape none = .error (.duplicateProperty ["id"]) := by
  have hdecode : Node.decode (.ownAndShared "id" "id") = .ok (.ownAndShared "id" "id") := by cbv
  obtain ⟨n, hproduced, hn⟩ : ∃ n, Produced (fun _ => True) n ∧
      (n.encodeFully.isOk && n.repeats ["id"]) = true :=
    Produced.of_document 3 (.inMemory "shared") _ (by decide +kernel) trivial hdecode
      (by decide +kernel)
  obtain ⟨hencode, hshape⟩ := Bool.and_eq_true_iff.1 hn
  obtain ⟨v, hv⟩ := exists_eq_ok_of_isOk hencode
  rw [← Node.encode_eq_encodeFully] at hv
  obtain ⟨m, hfolds, hback⟩ := Node.readsBack_of_encode hproduced.proper hv
  refine ⟨n, v, m.positional, hproduced, hv, hback.decode,
    hfolds.exists_shape hproduced.proper none, ?_⟩
  unfold Node.repeats at hshape
  cases h : n.shape none with
  | error e =>
    rw [h] at hshape
    rw [eq_of_beq hshape]
  | ok o =>
    rw [h] at hshape
    cases hshape

/-- Resolved, a document with a property of its own and another one of the schema it refers to has
the shape of its value. -/
theorem Produced.shape_of_encode_ownAndShared :
    ∃ n v n', Produced (fun _ => True) n ∧
      n.keywords.map Keyword.name =
        ["properties", "required", "definitions", "properties", "required"] ∧
      n.encode = .ok v ∧ Node.decode v = .ok n' ∧ n'.shape none = n.shape none ∧
      ∃ o, n.shape none = .ok o := by
  have hdecode : Node.decode (.ownAndShared "id" "name") = .ok (.ownAndShared "id" "name") := by
    cbv
  obtain ⟨n, hproduced, hn⟩ : ∃ n, Produced (fun _ => True) n ∧
      (n.keywords.map Keyword.name ==
        ["properties", "required", "definitions", "properties", "required"] &&
      (n.encodeFully.isOk && ((n.shape none).isOk && n.nodes.all fun c => !c.requiresMore))) =
        true :=
    Produced.of_document 3 (.inMemory "shared") _ (by decide +kernel) trivial hdecode
      (by decide +kernel)
  simp only [Bool.and_eq_true, List.all_eq_true, Bool.not_eq_true', beq_iff_eq] at hn
  obtain ⟨hnames, hencode, hok, hmore⟩ := hn
  obtain ⟨v, hv⟩ := exists_eq_ok_of_isOk hencode
  rw [← Node.encode_eq_encodeFully] at hv
  obtain ⟨o, ho⟩ := exists_eq_ok_of_isOk hok
  obtain ⟨n', hn', -, -, hshape⟩ := Produced.shape_of_encode hproduced hv none
  refine ⟨n, v, n', hproduced, hnames, hv, hn', hshape fun c hc => ⟨?_, ?_⟩, o, ho⟩
  · exact Node.exists_shape_iff.1 ⟨o, ho⟩ c hc
  · exact hmore c hc.mem_nodes

end SchemaCatalog
