import SchemaCatalog.Proofs.Api.CatalogEntries

/-!
# Names of methods

Several documents may add methods to one category, from any depth below its directory, and a method
is looked up by its full name in all categories.  So a full name has to be free in all of them when
a method is added, and the collection stops where it is not.  It looks for the name among those that
it has noted, which are the names of the methods in all categories (`Api.Collected.Tied`).

What a document adds is its methods, in its own category, and nothing else (`Api.Adds`).  By this
the categories of a corpus list exactly the names that its method catalogs define, each once and in
the category of its document, and open the categories of all documents in the order of the corpus
(`Api.Indexed`).  If two catalogs define one name, the second one is where the collection stops
(`Api.methods_indexed`).
-/

namespace SchemaCatalog

open Api

namespace Api

variable {o : Options} {document category name : String} {m : Method}
  {categories : OrderedMap String Category} {c c' c'' : Collected}

/-! ## Full names -/

/-- The full names of the methods of all categories. -/
def methodNames (categories : OrderedMap String Category) : List String :=
  categories.flatMap fun c => OrderedMap.keys c.2

lemma Lists.mem_methodNames (h : Lists categories category name m) :
    name ∈ methodNames categories := by
  obtain ⟨methods, hmethods, hm⟩ := h
  exact List.mem_flatMap.2 ⟨_, OrderedMap.mem_of_get?_eq_some hmethods,
    OrderedMap.mem_keys_of_mem (OrderedMap.mem_of_get?_eq_some hm)⟩

lemma mem_methodNames_iff_lists (h : (OrderedMap.keys categories).Nodup) :
    name ∈ methodNames categories ↔ ∃ category m, Lists categories category name m := by
  constructor
  · intro hname
    obtain ⟨⟨category, methods⟩, hc, hname⟩ := List.mem_flatMap.1 hname
    obtain ⟨m, hm⟩ := OrderedMap.exists_get?_of_mem_keys hname
    exact ⟨category, m, methods, (OrderedMap.get?_eq_some_iff h).2 hc, hm⟩
  · rintro ⟨category, m, hm⟩
    exact hm.mem_methodNames

/-- Writing a category that has some more names adds these. -/
lemma methodNames_insert {methods : Category} {more : List String}
    (h : (OrderedMap.keys methods).Perm
      (more ++ OrderedMap.keys ((OrderedMap.get? categories category).getD []))) :
    (methodNames (OrderedMap.insert categories category methods)).Perm
      (more ++ methodNames categories) := by
  unfold methodNames
  fun_induction OrderedMap.insert categories category methods with
  | case1 => simpa using h
  | case2 before rest category methods =>
    simp only [OrderedMap.get?, if_true, Option.getD_some] at h
    rw [List.flatMap_cons, List.flatMap_cons, ← List.append_assoc]
    exact h.append_right _
  | case3 first before rest category methods hne ih =>
    simp only [OrderedMap.get?, hne, if_false] at h
    rw [List.flatMap_cons, List.flatMap_cons]
    exact ((ih h).append_left _).trans (List.perm_append_comm_assoc _ _ _)

lemma lists_insert_iff {written : String} {methods : Category} :
    Lists (OrderedMap.insert categories written methods) category name m ↔
      (category = written ∧ OrderedMap.get? methods name = some m) ∨
      (category ≠ written ∧ Lists categories category name m) := by
  unfold Lists
  by_cases hwritten : category = written
  · subst hwritten
    simp [OrderedMap.get?_insert_self]
  · rw [OrderedMap.get?_insert_of_ne _ _ (Ne.symm hwritten)]
    simp [hwritten]

lemma get?_getD_iff :
    OrderedMap.get? ((OrderedMap.get? categories category).getD []) name = some m ↔
      Lists categories category name m := by
  unfold Lists
  cases OrderedMap.get? categories category with
  | none => simp
  | some methods => simp

/-! ## What is added to the categories -/

/-- The names of the categories, with one that may be new. -/
def opened (names : List String) (category : String) : List String :=
  if category ∈ names then names else names ++ [category]

/-- Whether the names that are noted are those of the methods of all categories, each once. -/
structure Collected.Tied (c : Collected) : Prop where
  names : (methodNames c.categories).Perm c.names
  nodup : c.names.Nodup

lemma Collected.Tied.mem_names (h : c.Tied) (hlists : Lists c.categories category name m) :
    name ∈ c.names :=
  h.names.subset hlists.mem_methodNames

/-- Whether methods have been added, all under new names and in one category, which is opened if it
was not there. -/
structure Adds (category : String) (ps : List (String × Method)) (c c' : Collected) : Prop where
  keys : OrderedMap.keys c'.categories = opened (OrderedMap.keys c.categories) category
  names : c'.names.Perm (OrderedMap.keys ps ++ c.names)
  tied : c'.Tied
  lists : ∀ other name m, Lists c'.categories other name m ↔
    (other = category ∧ (name, m) ∈ ps) ∨ Lists c.categories other name m

namespace Adds

variable {ps qs : List (String × Method)}

lemma trans (h : Adds category ps c c') (h' : Adds category qs c' c'') :
    Adds category (ps ++ qs) c c'' where
  keys := by
    rw [h'.keys, h.keys, opened, opened]
    split <;> simp [*]
  names := by
    refine h'.names.trans ((h.names.append_left _).trans ?_)
    rw [OrderedMap.keys, OrderedMap.keys, OrderedMap.keys, List.map_append, List.append_assoc]
    exact List.perm_append_comm_assoc _ _ _
  tied := h'.tied
  lists other name m := by
    rw [h'.lists, h.lists, List.mem_append]
    tauto

lemma notMem (h : Adds category ps c c') (hname : name ∈ OrderedMap.keys ps) : name ∉ c.names := by
  have hdistinct := h.names.nodup_iff.1 h.tied.nodup
  exact fun htaken => (List.nodup_append.1 hdistinct).2.2 name hname name htaken rfl

end Adds

lemma adds_open (htied : c.Tied) (category : String) :
    Adds category [] c (c.openCategory category) := by
  have hnames : (methodNames (c.openCategory category).categories).Perm
      ([] ++ methodNames c.categories) := methodNames_insert (.refl _)
  refine ⟨OrderedMap.keys_insert _ _ _, .refl _, ⟨hnames.trans htied.names, htied.nodup⟩,
    fun other name m => ?_⟩
  rw [Collected.openCategory, lists_insert_iff, get?_getD_iff]
  by_cases h : other = category <;> simp [h]

lemma adds_addMethod {p : String × Method} (htied : c.Tied)
    (h : addMethod document category c p = .ok c') : Adds category [p] c c' := by
  obtain ⟨hfree, rfl⟩ := addMethod_eq_ok h
  have hunlisted : ∀ other m, ¬ Lists c.categories other p.1 m :=
    fun other m hm => hfree (htied.mem_names hm)
  have hkey : p.1 ∉ OrderedMap.keys ((OrderedMap.get? c.categories category).getD []) := by
    intro hkey
    obtain ⟨m, hm⟩ := OrderedMap.exists_get?_of_mem_keys hkey
    exact hunlisted category m (get?_getD_iff.1 hm)
  have hnames : (methodNames (OrderedMap.insert c.categories category (OrderedMap.insert
      ((OrderedMap.get? c.categories category).getD []) p.1 p.2))).Perm
        ([p.1] ++ methodNames c.categories) := by
    refine methodNames_insert ?_
    rw [OrderedMap.keys_insert, if_neg hkey]
    exact List.perm_append_comm
  refine ⟨OrderedMap.keys_insert _ _ _, .refl _, ⟨hnames.trans (htied.names.cons p.1),
    List.nodup_cons.2 ⟨hfree, htied.nodup⟩⟩, fun other name m => ?_⟩
  rw [lists_insert_iff, OrderedMap.get?_insert_eq_some_iff, get?_getD_iff, List.mem_singleton,
    Prod.ext_iff]
  by_cases hother : other = category
  · subst hother
    by_cases hname : name = p.1
    · subst hname
      simp [hunlisted]
    · simp [hname]
  · simp [hother]

lemma adds_foldlM_addMethod {ps qs : List (String × Method)} (h : Adds category ps c c')
    (hqs : qs.foldlM (addMethod document category) c' = .ok c'') :
    Adds category (ps ++ qs) c c'' := by
  induction qs generalizing ps c' with
  | nil =>
    obtain rfl := Except.ok.inj hqs
    rwa [List.append_nil]
  | cons q qs ih =>
    rw [List.foldlM_cons] at hqs
    obtain ⟨next, hnext, hqs⟩ := bind_eq_ok_iff.1 hqs
    rw [List.append_cons]
    exact ih (h.trans (adds_addMethod h.tied hnext)) hqs

end Api

/-! ## What a document adds -/

namespace Node

variable {n : Node} {catalog : OrderedMap String Method}

lemma fullName_of_method {fullName : String} {m : Method} (h : n.method fullName = .ok m) :
    m.fullName = fullName := by
  obtain ⟨_, -, h⟩ := bind_eq_ok_iff.1 h
  exact (congrArg Method.fullName (Except.ok.inj h)).symm

/-- A method catalog has one method under each name of its entries, and it is called so. -/
lemma methodCatalog_spec (h : n.methodCatalog = .ok catalog) :
    (OrderedMap.keys catalog).Nodup ∧
      (∀ name, name ∈ OrderedMap.keys catalog ↔ name ∈ OrderedMap.keys (n.entries .methods)) ∧
      ∀ p ∈ catalog, p.2.fullName = p.1 := by
  obtain ⟨methods, rfl, hmethods⟩ := methodCatalog_eq_ok h
  have hkeys : OrderedMap.keys methods = OrderedMap.keys (n.entries .methods) :=
    OrderedMap.keys_eq_of_forall₂ hmethods fun _ _ h => h.1
  refine ⟨OrderedMap.nodup_keys_ofEntries methods, fun name => ?_, fun p hp => ?_⟩
  · rw [OrderedMap.mem_keys_ofEntries, hkeys]
  · have hfound : OrderedMap.get? methods.reverse p.1 = some p.2 := by
      rw [← OrderedMap.get?_ofEntries]
      exact (OrderedMap.get?_eq_some_iff (OrderedMap.nodup_keys_ofEntries methods)).2 hp
    have hmem : p ∈ methods := List.mem_reverse.1 (OrderedMap.mem_of_get?_eq_some hfound)
    obtain ⟨e, -, hname, hmethod⟩ := Keyword.exists_rel_of_mem hmethods.flip hmem
    rw [← hname, fullName_of_method hmethod]

end Node

namespace Api

variable {o : Options} {document category name : String} {m : Method} {c c' : Collected}
  {docs : List (Document × Node)} {d : Document × Node}

/-- The full names that a resolved document defines: those of the entries of a method catalog in a
category. -/
def definedNames (o : Options) (d : Document × Node) : List String :=
  if d.1.category?.isSome ∧ d.1.fileName = o.methodsFile then
    OrderedMap.keys (d.2.entries .methods)
  else []

/-- Whether no two documents define one name. -/
def NamesApart (o : Options) (docs : List (Document × Node)) : Prop :=
  docs.Pairwise fun d d' => (definedNames o d).Disjoint (definedNames o d')

lemma exists_category_of_mem_definedNames (h : name ∈ definedNames o d) :
    ∃ category, d.1.category? = some category := by
  rw [definedNames] at h
  split at h
  case isTrue hcatalog => exact Option.isSome_iff_exists.1 hcatalog.1
  case isFalse => exact absurd h List.not_mem_nil

/-- A document adds the methods of the names that it defines to its category, and nothing if it is
in none. -/
lemma addDocument_eq_ok (htied : c.Tied) (h : addDocument o c d = .ok c') :
    (d.1.category? = none ∧ c' = c) ∨
    ∃ category ps, d.1.category? = some category ∧ Adds category ps c c' ∧
      (∀ name, name ∈ OrderedMap.keys ps ↔ name ∈ definedNames o d) ∧
      ∀ p ∈ ps, p.2.fullName = p.1 := by
  unfold addDocument at h
  split at h
  case h_1 hnone => exact .inl ⟨hnone, (Except.ok.inj h).symm⟩
  case h_2 category hcategory =>
    refine .inr ⟨category, ?_⟩
    dsimp only at h
    split at h
    case isTrue hfile =>
      obtain rfl := Except.ok.inj h
      refine ⟨[], hcategory, adds_open htied _, fun name => ?_,
        fun _ hp => absurd hp List.not_mem_nil⟩
      rw [definedNames, if_neg fun h => hfile h.2]
      rfl
    case isFalse hfile =>
      split at h
      case h_1 => cases h
      case h_2 catalog hcatalog =>
        obtain ⟨-, hnames, hcalled⟩ := Node.methodCatalog_spec hcatalog
        have hadds := adds_foldlM_addMethod (adds_open htied category) h
        refine ⟨catalog, hcategory, hadds, fun name => ?_, hcalled⟩
        rw [hnames, definedNames, if_pos ⟨hcategory ▸ rfl, not_not.1 hfile⟩]

/-! ## What a corpus adds -/

/-- Whether what resolved documents define has been collected, and nothing twice. -/
structure Indexed (o : Options) (docs : List (Document × Node)) (c : Collected) : Prop where
  /-- The categories are those of the documents, each where it comes first. -/
  keys : OrderedMap.keys c.categories = (docs.filterMap fun d => d.1.category?).eraseDups
  tied : c.Tied
  lists : ∀ category name, (∃ m, Lists c.categories category name m) ↔
    ∃ d ∈ docs, d.1.category? = some category ∧ name ∈ definedNames o d
  fullName : ∀ category name m, Lists c.categories category name m → m.fullName = name
  apart : NamesApart o docs

lemma indexed_nil : Indexed o [] {} where
  keys := rfl
  tied := ⟨.refl _, .nil⟩
  lists _ _ := by simp [Lists, OrderedMap.get?]
  fullName _ _ _ h := by simp [Lists, OrderedMap.get?] at h
  apart := .nil

namespace Indexed

lemma nodup_keys (h : Indexed o docs c) : (OrderedMap.keys c.categories).Nodup := by
  rw [h.keys]
  exact nodup_eraseDups _

/-- A name is taken exactly if a document defines it. -/
lemma mem_names_iff (h : Indexed o docs c) :
    name ∈ c.names ↔ ∃ d ∈ docs, name ∈ definedNames o d := by
  simp only [← h.tied.names.mem_iff, mem_methodNames_iff_lists h.nodup_keys, h.lists]
  constructor
  · rintro ⟨_, d, hd, -, hname⟩
    exact ⟨d, hd, hname⟩
  · rintro ⟨d, hd, hname⟩
    obtain ⟨category, hcategory⟩ := exists_category_of_mem_definedNames hname
    exact ⟨category, d, hd, hcategory, hname⟩

lemma eq_of_mem_definedNames (h : Indexed o docs c) {d d' : Document × Node}
    (hd : d ∈ docs) (hname : name ∈ definedNames o d) (hd' : d' ∈ docs)
    (hname' : name ∈ definedNames o d') : d = d' := by
  have : Std.Symm fun d d' => (definedNames o d).Disjoint (definedNames o d') :=
    ⟨fun _ _ hdisjoint => hdisjoint.symm⟩
  by_contra hne
  exact h.apart.forall hd hd' hne hname hname'

lemma addDocument (h : Indexed o docs c) (hd : addDocument o c d = .ok c') :
    Indexed o (docs ++ [d]) c' := by
  rcases addDocument_eq_ok h.tied hd with
    ⟨hnone, rfl⟩ | ⟨category, ps, hcategory, hadds, hnames, hcalled⟩
  -- A document in no category opens none and defines no name.
  · have hundefined : definedNames o d = [] := by
      rw [definedNames, if_neg fun h => by simp [hnone] at h]
    refine ⟨?_, h.tied, fun category name => ?_, h.fullName, ?_⟩
    · have hsingle : [d].filterMap (fun d => d.1.category?) = [] := by simp [hnone]
      rw [h.keys, List.filterMap_append, hsingle, List.append_nil]
    · rw [h.lists]
      simp [or_and_right, exists_or, hundefined]
    · refine List.pairwise_append.2
        ⟨h.apart, List.pairwise_singleton _ _, fun d' _ d'' hd'' => ?_⟩
      rw [List.mem_singleton.1 hd'', hundefined]
      exact List.disjoint_nil_right _
  · refine ⟨?_, hadds.tied, fun other name => ?_, fun other name m hm => ?_, ?_⟩
    · have hsingle : [d].filterMap (fun d => d.1.category?) = [category] := by simp [hcategory]
      rw [hadds.keys, h.keys, List.filterMap_append, hsingle, eraseDups_concat, opened]
      simp only [List.mem_eraseDups]
    · have hadded : (∃ m, (name, m) ∈ ps) ↔ name ∈ definedNames o d := by
        rw [← hnames]
        exact ⟨fun ⟨_, hm⟩ => OrderedMap.mem_keys_of_mem hm, OrderedMap.exists_mem_of_mem_keys⟩
      simp only [hadds.lists, exists_or, exists_and_left, hadded, h.lists, List.mem_append,
        List.mem_singleton, or_and_right, exists_eq_left, hcategory, Option.some.injEq]
      rw [eq_comm, or_comm]
    · rcases (hadds.lists other name m).1 hm with ⟨-, hp⟩ | hm
      · exact hcalled _ hp
      · exact h.fullName _ _ _ hm
    · refine List.pairwise_append.2
        ⟨h.apart, List.pairwise_singleton _ _, fun d' hd' d'' hd'' => ?_⟩
      obtain rfl := List.mem_singleton.1 hd''
      intro name hname' hname
      exact hadds.notMem ((hnames name).2 hname) (h.mem_names_iff.2 ⟨d', hd', hname'⟩)

lemma of_foldlM {more : List (Document × Node)} (h : Indexed o docs c)
    (hmore : more.foldlM (Api.addDocument o) c = .ok c') : Indexed o (docs ++ more) c' := by
  induction more generalizing docs c with
  | nil =>
    obtain rfl := Except.ok.inj hmore
    rwa [List.append_nil]
  | cons d more ih =>
    rw [List.foldlM_cons] at hmore
    obtain ⟨next, hnext, hmore⟩ := bind_eq_ok_iff.1 hmore
    rw [List.append_cons]
    exact ih (h.addDocument hnext) hmore

end Indexed

/-! ## Names that are taken -/

/-- Methods of distinct names cannot all be added if one of the names is taken before. -/
lemma foldlM_addMethod_eq_error {ps : List (String × Method)} {e : ParseError}
    (hps : (OrderedMap.keys ps).Nodup) (hadds : Adds category [] c c')
    (h : ps.foldlM (addMethod document category) c' = .error e) :
    ∃ name ∈ OrderedMap.keys ps, name ∈ c.names ∧
      e = .project document (.duplicateMethod name) := by
  obtain ⟨before, p, after, next, rfl, hbefore, h⟩ := exists_of_foldlM_eq_error h
  -- The methods added so far have other names, so the name that is taken was so before.
  have hnew : p.1 ∉ OrderedMap.keys before := by
    rw [OrderedMap.keys, List.map_append, List.map_cons] at hps
    exact fun hp => (List.nodup_append.1 hps).2.2 _ hp _ List.mem_cons_self rfl
  unfold addMethod at h
  split at h
  case isTrue htaken =>
    refine ⟨p.1, OrderedMap.mem_keys_of_mem (by simp), ?_, (Except.error.inj h).symm⟩
    have hnames := (adds_foldlM_addMethod hadds hbefore).names
    rw [List.nil_append] at hnames
    exact (List.mem_append.1 (hnames.subset htaken)).resolve_left hnew
  case isFalse => cases h

/-- A document stops the collection if its catalog has no projection, or else where it defines a
name that is taken. -/
lemma addDocument_stops {e : ParseError} (htied : c.Tied) (h : addDocument o c d = .error e) :
    d.1.category?.isSome ∧ d.1.fileName = o.methodsFile ∧
      ((∃ cause, d.2.methodCatalog = .error cause) ∨
      ∃ name ∈ definedNames o d, name ∈ c.names ∧
        e = .project d.1.name (.duplicateMethod name)) := by
  unfold addDocument at h
  split at h
  case h_1 => cases h
  case h_2 category hcategory =>
    dsimp only at h
    split at h
    case isTrue => cases h
    case isFalse hfile =>
      have hcatalog : d.1.category?.isSome ∧ d.1.fileName = o.methodsFile :=
        ⟨hcategory ▸ rfl, not_not.1 hfile⟩
      refine ⟨hcatalog.1, hcatalog.2, ?_⟩
      split at h
      case h_1 cause hcause => exact .inl ⟨cause, hcause⟩
      case h_2 catalog hmethods =>
        obtain ⟨hdistinct, hnames, -⟩ := Node.methodCatalog_spec hmethods
        obtain ⟨name, hname, htaken, he⟩ :=
          foldlM_addMethod_eq_error hdistinct (adds_open htied _) h
        refine .inr ⟨name, ?_, htaken, he⟩
        rw [definedNames, if_pos hcatalog]
        exact (hnames name).1 hname

/-! ## Models -/

variable {api : Api}

lemma isSome_method?_iff : (api.method? name).isSome ↔ name ∈ methodNames api.categories := by
  simp only [method?, methodNames, List.findSome?_isSome_iff, List.mem_flatMap,
    ← OrderedMap.contains_iff_mem_keys]
  rfl

/-- Whether a model has the methods that resolved documents define, each under its full name in one
category. -/
structure HasMethodsOf (o : Options) (docs : List (Document × Node)) (api : Api) : Prop where
  apart : NamesApart o docs
  /-- A name is listed in the category of its document and in no other one. -/
  category_iff : ∀ d ∈ docs, ∀ name ∈ definedNames o d, ∀ category,
    (∃ m, Lists api.categories category name m) ↔ d.1.category? = some category
  /-- There is a method under every name that is defined and under no other one. -/
  isSome_method? : ∀ name, (api.method? name).isSome ↔ ∃ d ∈ docs, name ∈ definedNames o d
  fullName : ∀ name m, api.method? name = some m → m.fullName = name
  /-- There are as many methods as distinct names. -/
  methodCount : api.methodCount = (docs.flatMap (definedNames o)).toFinset.card

/-- A model of what has been collected of documents has the methods of these. -/
lemma Indexed.hasMethodsOf (h : Indexed o docs c) (hcategories : api.categories = c.categories) :
    HasMethodsOf o docs api where
  apart := h.apart
  category_iff d hd name hname category := by
    rw [hcategories, h.lists]
    constructor
    · rintro ⟨d', hd', hcategory, hname'⟩
      obtain rfl := h.eq_of_mem_definedNames hd' hname' hd hname
      exact hcategory
    · exact fun hcategory => ⟨d, hd, hcategory, hname⟩
  isSome_method? name := by
    rw [isSome_method?_iff, hcategories, h.tied.names.mem_iff, h.mem_names_iff]
  fullName name m hm := by
    obtain ⟨⟨category, methods⟩, hmem, hm⟩ := List.exists_of_findSome?_eq_some hm
    have hmethods := (OrderedMap.get?_eq_some_iff h.nodup_keys).2 (hcategories ▸ hmem)
    exact h.fullName category name m ⟨methods, hmethods, hm⟩
  methodCount := by
    have hlength : api.methodCount = (methodNames c.categories).length := by
      rw [Api.methodCount, hcategories, methodNames, List.length_flatMap, List.length_flatMap]
      simp only [OrderedMap.keys, List.length_map]
    rw [hlength, h.tied.names.length_eq, ← List.toFinset_card_of_nodup h.tied.nodup]
    congr 1
    ext name
    rw [List.mem_toFinset, List.mem_toFinset, h.mem_names_iff, List.mem_flatMap]

/-- The collection stops at the first document that defines a name of a document before, where all
catalogs have projections. -/
lemma ofDocuments_eq_error
    (hcatalogs : ∀ d ∈ docs, d.1.category?.isSome → d.1.fileName = o.methodsFile →
      ∃ catalog, d.2.methodCatalog = .ok catalog)
    (hshared : ¬ NamesApart o docs) :
    ∃ before d after name, docs = before ++ d :: after ∧ name ∈ definedNames o d ∧
      (∃ d' ∈ before, name ∈ definedNames o d') ∧
      ofDocuments o docs = .error (.project d.1.name (.duplicateMethod name)) := by
  rcases hcollected : docs.foldlM (addDocument o) {} with e | collected
  case ok => exact absurd (indexed_nil.of_foldlM hcollected).apart hshared
  case error =>
    obtain ⟨before, d, after, earlier, hdocs, hbefore, hd⟩ := exists_of_foldlM_eq_error hcollected
    have hindexed := indexed_nil.of_foldlM hbefore
    obtain ⟨hcategory, hfile, ⟨cause, hcause⟩ | ⟨name, hname, htaken, rfl⟩⟩ :=
      addDocument_stops hindexed.tied hd
    · obtain ⟨catalog, hcatalog⟩ := hcatalogs d (by simp [hdocs]) hcategory hfile
      rw [hcatalog] at hcause
      cases hcause
    · refine ⟨before, d, after, name, hdocs, hname, ?_, ?_⟩
      · exact hindexed.mem_names_iff.1 htaken
      · rw [ofDocuments, hcollected]
        rfl

/-- **Names of methods.**  Where a corpus has a model over a registry, no two of its documents
define a method of one name, and the model has the methods that they define, each under its full
name in the category of its document, and the categories of all documents, in the order of the
corpus.  Where the corpus resolves and all method catalogs have projections but two documents define
a method of one name, the model fails at the second of them. -/
theorem methods_indexed (limit : Nat) (c : Corpus) (o : Options) (r : Registry) (s : Resolver) :
    (∀ api, (ofCorpus limit c o).run.run (.ofRegistry r) = (.ok api, s) →
      ∃ docs, (c.resolve limit).run.run (.ofRegistry r) = (.ok docs, s) ∧
        docs.map Prod.fst = c.documents ∧ HasMethodsOf o docs api ∧
        OrderedMap.keys api.categories = (c.documents.filterMap Document.category?).eraseDups) ∧
    ∀ docs, (c.resolve limit).run.run (.ofRegistry r) = (.ok docs, s) →
      (∀ d ∈ docs, d.1.category?.isSome → d.1.fileName = o.methodsFile →
        ∃ catalog, d.2.methodCatalog = .ok catalog) →
      ¬ NamesApart o docs →
      ∃ before d after name, docs = before ++ d :: after ∧ name ∈ definedNames o d ∧
        (∃ d' ∈ before, name ∈ definedNames o d') ∧
        (ofCorpus limit c o).run.run (.ofRegistry r) =
          (.error (.project d.1.name (.duplicateMethod name)), s) := by
  refine ⟨fun api h => ?_, fun docs hresolve hcatalogs hshared => ?_⟩
  · obtain ⟨docs, hresolve, hmodel⟩ := run_ofCorpus_eq_ok h
    have hdocs := Corpus.map_fst_of_run_resolve hresolve
    obtain ⟨collected, hcollected, hcategories, -⟩ := ofDocuments_eq_ok hmodel
    have hindexed := indexed_nil.of_foldlM hcollected
    refine ⟨docs, hresolve, hdocs, hindexed.hasMethodsOf hcategories, ?_⟩
    rw [hcategories, hindexed.keys, ← hdocs, List.filterMap_map]
    rfl
  · obtain ⟨before, d, after, name, hdocs, hname, hbefore, hmodel⟩ :=
      ofDocuments_eq_error hcatalogs hshared
    refine ⟨before, d, after, name, hdocs, hname, hbefore, ?_⟩
    rw [ofCorpus, Run.run_bind_of_ok hresolve, hmodel]
    rfl

/-! ## Two catalogs in one category -/

/-- A corpus of two catalogs in one category, one of them further down, with a method each. -/
def nestedCatalogs (inner outer : String) : Corpus where
  base := .inMemory ""
  documents := [
    ⟨"a/b/methods.json", .inMemory "a/b/methods.json",
      ("\x7b\"methods\":[\x7b\"name\":\"" ++ inner ++ "\"\x7d]\x7d").toUTF8⟩,
    ⟨"a/methods.json", .inMemory "a/methods.json",
      ("\x7b\"methods\":[\x7b\"name\":\"" ++ outer ++ "\"\x7d]\x7d").toUTF8⟩]

/-- Both catalogs are read. -/
lemma nestedCatalogs_evaluated :
    (∃ api s, (ofCorpus 3 (nestedCatalogs "x" "y") {}).run.run (.ofRegistry {}) = (.ok api, s)) ∧
    ∃ docs s, ((nestedCatalogs "x" "x").resolve 3).run.run (.ofRegistry {}) = (.ok docs, s) ∧
      ∀ d ∈ docs, definedNames {} d = ["x"] ∧ ∃ catalog, d.2.methodCatalog = .ok catalog := by
  have hdistinct : (((ofCorpus 3 (nestedCatalogs "x" "y") {}).run.run
      (.ofRegistry {})).1.toOption.any fun _ => true) = true := by
    decide +kernel
  have hshared : ((((nestedCatalogs "x" "x").resolve 3).run.run (.ofRegistry {})).1.toOption.any
      fun docs => docs.all fun d => definedNames {} d == ["x"] &&
        d.2.methodCatalog.toOption.any fun _ => true) = true := by
    decide +kernel
  obtain ⟨api, hapi, -⟩ := exists_of_any_toOption hdistinct
  obtain ⟨docs, hdocs, hshared⟩ := exists_of_any_toOption hshared
  refine ⟨⟨api, _, Prod.fst_eq_iff.1 hapi⟩, docs, _, Prod.fst_eq_iff.1 hdocs, fun d hd => ?_⟩
  obtain ⟨hnames, hcatalog⟩ := Bool.and_eq_true_iff.1 (List.all_eq_true.1 hshared d hd)
  obtain ⟨catalog, hcatalog, -⟩ := exists_of_any_toOption hcatalog
  exact ⟨eq_of_beq hnames, catalog, hcatalog⟩

/-- Methods of two names are in the one category, and methods of one name fail. -/
theorem methods_indexed_nestedCatalogs :
    (∃ docs api s, ((nestedCatalogs "x" "y").resolve 3).run.run (.ofRegistry {}) = (.ok docs, s) ∧
      (ofCorpus 3 (nestedCatalogs "x" "y") {}).run.run (.ofRegistry {}) = (.ok api, s) ∧
      HasMethodsOf {} docs api ∧ OrderedMap.keys api.categories = ["a"]) ∧
    ∃ docs s, ((nestedCatalogs "x" "x").resolve 3).run.run (.ofRegistry {}) = (.ok docs, s) ∧
      ∃ d ∈ docs, (ofCorpus 3 (nestedCatalogs "x" "x") {}).run.run (.ofRegistry {}) =
        (.error (.project d.1.name (.duplicateMethod "x")), s) := by
  obtain ⟨⟨api, s, hapi⟩, docs', s', hresolve, hread⟩ := nestedCatalogs_evaluated
  obtain ⟨docs, hdocs, -, hhas, hkeys⟩ :=
    (methods_indexed 3 (nestedCatalogs "x" "y") {} {} s).1 api hapi
  refine ⟨⟨docs, api, s, hdocs, hapi, hhas, hkeys.trans (by decide)⟩, docs', s', hresolve, ?_⟩
  have hcatalogs : ∀ d ∈ docs', d.1.category?.isSome → d.1.fileName = "methods.json" →
      ∃ catalog, d.2.methodCatalog = .ok catalog := fun d hd _ _ => (hread d hd).2
  have hshared : ¬ NamesApart {} docs' := by
    obtain ⟨d, rest, rfl, -, hrest⟩ :=
      List.map_eq_cons_iff.1 (Corpus.map_fst_of_run_resolve hresolve)
    obtain ⟨d', rest, rfl, -, -⟩ := List.map_eq_cons_iff.1 hrest
    intro hapart
    have hdisjoint := (List.pairwise_cons.1 hapart).1 d' List.mem_cons_self
    rw [(hread d (by simp)).1, (hread d' (by simp)).1] at hdisjoint
    exact hdisjoint (List.mem_singleton_self "x") (List.mem_singleton_self "x")
  obtain ⟨before, d, after, name, rfl, hname, -, herror⟩ :=
    (methods_indexed 3 (nestedCatalogs "x" "x") {} {} s').2 docs' hresolve hcatalogs hshared
  have hd : d ∈ before ++ d :: after := List.mem_append_right _ List.mem_cons_self
  rw [(hread d hd).1, List.mem_singleton] at hname
  subst hname
  exact ⟨d, hd, herror⟩

end Api

end SchemaCatalog
