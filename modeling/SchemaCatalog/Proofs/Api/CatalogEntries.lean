import SchemaCatalog.Proofs.Check.Clean
import SchemaCatalog.Proofs.OrderedMap

/-!
# What a model keeps of the catalogs

A model is collected by writing into maps, and a map forgets what is written over.  No method is
written over by one of another catalog, since a name that is taken stops the collection, and no
error by another one.  Within one method catalog nothing stops it: a resolved catalog has the
entries of every catalog it refers to, each in a keyword of its own, and of entries with one name
the last one is kept.  Of the error catalogs only the first one is read.

So of every method catalog the model has, for each name, the last entry, and of the first error
catalog it has all entries (`Api.entries_kept`).  What comes before the last entry of a name and
what is in a second error catalog is lost without an error (`Api.entries_lost`).
-/

namespace SchemaCatalog

open Api

/-! ## Methods of a catalog -/

namespace Node

variable {n : Node}

lemma methodCatalog_eq_ok {catalog : OrderedMap String Method} (h : n.methodCatalog = .ok catalog) :
    ∃ methods, catalog = OrderedMap.ofEntries methods ∧
      List.Forall₂ (fun e p => e.1 = p.1 ∧ e.2.method e.1 = .ok p.2) (n.entries .methods)
        methods := by
  obtain ⟨methods, hmethods, h⟩ := bind_eq_ok_iff.1 h
  refine ⟨methods, (Except.ok.inj h).symm, (mapM_eq_ok_iff.1 hmethods).imp fun e p hp => ?_⟩
  obtain ⟨m, hm, hp⟩ := bind_eq_ok_iff.1 hp
  obtain rfl := Except.ok.inj hp
  exact ⟨rfl, hm⟩

/-- The method catalog of a node has the last entry of each name. -/
lemma get?_methodCatalog {catalog : OrderedMap String Method} (h : n.methodCatalog = .ok catalog)
    {before after : List (String × Node)} {e : String × Node}
    (hentries : n.entries .methods = before ++ e :: after) (hlast : e.1 ∉ OrderedMap.keys after) :
    ∃ m, e.2.method e.1 = .ok m ∧ OrderedMap.get? catalog e.1 = some m := by
  obtain ⟨methods, rfl, hprojected⟩ := methodCatalog_eq_ok h
  have hfound : OrderedMap.get? (n.entries .methods).reverse e.1 = some e.2 := by
    have hnotMem : e.1 ∉ OrderedMap.keys after.reverse := by
      rwa [OrderedMap.keys, List.map_reverse, List.mem_reverse]
    rw [hentries, List.reverse_append, List.reverse_cons, List.append_assoc]
    exact OrderedMap.get?_append_of_notMem hnotMem e.2 before.reverse
  obtain ⟨m, hm, -, hmethod⟩ := OrderedMap.exists_get?_of_forall₂
    (List.forall₂_reverse_iff.2 hprojected) (fun _ _ h => h.1) hfound
  exact ⟨m, hmethod, (OrderedMap.get?_ofEntries methods e.1).trans hm⟩

end Node

namespace Api

variable {o : Options} {name category document : String} {m : Method} {c c' : Collected}
  {categories : OrderedMap String Category}

/-! ## Methods of the categories -/

/-- Whether a category has a method under a full name. -/
def Lists (categories : OrderedMap String Category) (category name : String) (m : Method) : Prop :=
  ∃ methods, OrderedMap.get? categories category = some methods ∧
    OrderedMap.get? methods name = some m

/-- Writing a category that has the methods it had before leaves all methods where they are. -/
lemma Lists.insert (h : Lists categories category name m) {written : String} {methods : Category}
    (hmethods : ∀ before, OrderedMap.get? categories written = some before →
      ∀ a, OrderedMap.get? before name = some a → OrderedMap.get? methods name = some a) :
    Lists (OrderedMap.insert categories written methods) category name m := by
  obtain ⟨before, hbefore, hm⟩ := h
  by_cases hwritten : written = category
  · subst hwritten
    exact ⟨methods, OrderedMap.get?_insert_self _ _ _, hmethods before hbefore m hm⟩
  · exact ⟨before, (OrderedMap.get?_insert_of_ne _ _ hwritten).trans hbefore, hm⟩

/-- Whether a method has been collected: it is listed, and its name is taken. -/
def Collected.Has (c : Collected) (category name : String) (m : Method) : Prop :=
  Lists c.categories category name m ∧ name ∈ c.names

lemma addMethod_eq_ok {p : String × Method} (h : addMethod document category c p = .ok c') :
    p.1 ∉ c.names ∧ c' = {
      categories := OrderedMap.insert c.categories category
        (OrderedMap.insert ((OrderedMap.get? c.categories category).getD []) p.1 p.2)
      names := p.1 :: c.names } := by
  unfold addMethod at h
  split at h
  · cases h
  · exact ⟨‹_›, (Except.ok.inj h).symm⟩

lemma addMethod_has {p : String × Method} (h : addMethod document category c p = .ok c') :
    c'.Has category p.1 p.2 := by
  obtain ⟨-, rfl⟩ := addMethod_eq_ok h
  exact ⟨⟨_, OrderedMap.get?_insert_self _ _ _, OrderedMap.get?_insert_self _ _ _⟩,
    List.mem_cons_self⟩

namespace Collected.Has

lemma addMethod {p : String × Method} {written : String} (hhas : c.Has category name m)
    (h : addMethod document written c p = .ok c') : c'.Has category name m := by
  obtain ⟨hfree, rfl⟩ := addMethod_eq_ok h
  have hne : p.1 ≠ name := by
    rintro rfl
    exact hfree hhas.2
  refine ⟨hhas.1.insert fun before hbefore a ha => ?_, List.mem_cons_of_mem _ hhas.2⟩
  rw [hbefore, Option.getD_some, OrderedMap.get?_insert_of_ne _ _ hne]
  exact ha

lemma openCategory (hhas : c.Has category name m) (opened : String) :
    (c.openCategory opened).Has category name m :=
  ⟨hhas.1.insert fun before hbefore a ha => by rwa [hbefore], hhas.2⟩

lemma addDocument {d : Document × Node} (hhas : c.Has category name m)
    (h : addDocument o c d = .ok c') : c'.Has category name m := by
  unfold Api.addDocument at h
  split at h
  case h_1 =>
    obtain rfl := Except.ok.inj h
    exact hhas
  case h_2 opened _ =>
    have hopened := hhas.openCategory opened
    dsimp only at h
    split at h
    · obtain rfl := Except.ok.inj h
      exact hopened
    split at h
    · cases h
    · exact foldlM_keeps (P := (·.Has category name m)) (fun _ _ _ _ hb hstep => hb.addMethod hstep)
        hopened h

end Collected.Has

/-- A method catalog adds the last entry of each name to its category. -/
lemma addDocument_has {d : Document × Node} (hcategory : d.1.category? = some category)
    (hfile : d.1.fileName = o.methodsFile) {before after : List (String × Node)}
    {e : String × Node} (hentries : d.2.entries .methods = before ++ e :: after)
    (hlast : e.1 ∉ OrderedMap.keys after) (h : addDocument o c d = .ok c') :
    ∃ m, e.2.method e.1 = .ok m ∧ c'.Has category e.1 m := by
  unfold addDocument at h
  rw [hcategory] at h
  dsimp only at h
  rw [if_neg (not_not.2 hfile)] at h
  split at h
  case h_1 => cases h
  case h_2 catalog hcatalog =>
    obtain ⟨m, hm, hget⟩ := Node.get?_methodCatalog hcatalog hentries hlast
    have hmem : (e.1, m) ∈ catalog := OrderedMap.mem_of_get?_eq_some hget
    refine ⟨m, hm, foldlM_gains (P := (·.Has category e.1 m)) hmem
      (fun _ _ hstep => addMethod_has hstep) ?_ h⟩
    exact fun _ _ _ _ hb hstep => hb.addMethod hstep

/-! ## Errors -/

lemma addError_eq_ok {errors errors' : OrderedMap String Error} {a : Error}
    (h : Node.addError errors a = .ok errors') :
    OrderedMap.get? errors a.name = none ∧ errors' = OrderedMap.insert errors a.name a := by
  unfold Node.addError at h
  split at h
  · cases h
  · refine ⟨?_, (Except.ok.inj h).symm⟩
    rename_i hfree
    rwa [OrderedMap.contains, Option.not_isSome_iff_eq_none] at hfree

lemma get?_errorCatalog {n : Node} {errors : OrderedMap String Error}
    (h : n.errorCatalog = .ok errors) {e : String × Node} (he : e ∈ n.entries .errors) :
    OrderedMap.get? errors (e.2.error e.1).name = some (e.2.error e.1) := by
  refine foldlM_gains
    (P := fun errors => OrderedMap.get? errors (e.2.error e.1).name = some (e.2.error e.1))
    (List.mem_map_of_mem he) (fun b b' hstep => ?_) (fun a _ b b' hb hstep => ?_) h
  · obtain ⟨-, rfl⟩ := addError_eq_ok hstep
    exact OrderedMap.get?_insert_self _ _ _
  · obtain ⟨hfree, rfl⟩ := addError_eq_ok hstep
    have hne : a.name ≠ (e.2.error e.1).name := by
      intro hname
      rw [hname, hb] at hfree
      cases hfree
    rwa [OrderedMap.get?_insert_of_ne _ _ hne]

/-! ## Entries of a model -/

variable {api : Api} {docs : List (Document × Node)}

/-- Whether a model has, in a category, exactly the method of an entry of a method catalog. -/
def HasMethod (api : Api) (category : String) (e : String × Node) : Prop :=
  ∃ m, e.2.method e.1 = .ok m ∧ Lists api.categories category e.1 m

/-- Whether a model has exactly the error of an entry of an error catalog. -/
def HasError (api : Api) (e : String × Node) : Prop :=
  OrderedMap.get? api.errors (e.2.error e.1).name = some (e.2.error e.1)

lemma ofDocuments_eq_ok (h : ofDocuments o docs = .ok api) :
    ∃ collected, docs.foldlM (addDocument o) {} = .ok collected ∧
      api.categories = collected.categories ∧ errorsOf o docs = .ok api.errors := by
  obtain ⟨collected, hcollected, h⟩ := bind_eq_ok_iff.1 h
  obtain ⟨errors, herrors, h⟩ := bind_eq_ok_iff.1 h
  obtain rfl := Except.ok.inj h
  exact ⟨collected, hcollected, rfl, herrors⟩

/-- A model has the last entry of each name of every method catalog. -/
lemma hasMethod_of_ofDocuments (h : ofDocuments o docs = .ok api) {d : Document × Node}
    (hd : d ∈ docs) (hcategory : d.1.category? = some category)
    (hfile : d.1.fileName = o.methodsFile) {before after : List (String × Node)}
    {e : String × Node} (hentries : d.2.entries .methods = before ++ e :: after)
    (hlast : e.1 ∉ OrderedMap.keys after) : api.HasMethod category e := by
  obtain ⟨collected, hcollected, hcategories, -⟩ := ofDocuments_eq_ok h
  obtain ⟨m, hm, hlists, -⟩ := foldlM_gains (P := fun c => ∃ m, e.2.method e.1 = .ok m ∧
      c.Has category e.1 m) hd
    (fun _ _ hstep => addDocument_has hcategory hfile hentries hlast hstep)
    (fun _ _ _ _ hb hstep => hb.imp fun _ hm => ⟨hm.1, hm.2.addDocument hstep⟩) hcollected
  exact ⟨m, hm, hcategories ▸ hlists⟩

lemma hasError_of_ofDocuments (h : ofDocuments o docs = .ok api) {d : Document × Node}
    (hd : docs.find? (fun d => d.1.fileName == o.errorsFile) = some d) {e : String × Node}
    (he : e ∈ d.2.entries .errors) : api.HasError e := by
  obtain ⟨-, -, -, herrors⟩ := ofDocuments_eq_ok h
  unfold errorsOf at herrors
  rw [hd] at herrors
  dsimp only at herrors
  split at herrors
  case h_1 errors hcatalog =>
    obtain rfl := Except.ok.inj herrors
    exact get?_errorCatalog hcatalog he
  case h_2 => cases herrors

lemma run_ofCorpus_eq_ok {limit : Nat} {c : Corpus} {s s' : Resolver}
    (h : (ofCorpus limit c o).run.run s = (.ok api, s')) :
    ∃ docs, (c.resolve limit).run.run s = (.ok docs, s') ∧ ofDocuments o docs = .ok api := by
  obtain ⟨docs, t, hresolve, h⟩ := Run.run_bind_eq_ok.1 h
  obtain ⟨hmodel, rfl⟩ := Prod.ext_iff.1 h
  exact ⟨docs, hresolve, hmodel⟩

/-- **What a model keeps.**  Where a corpus has a model over a registry, the corpus resolves over
it, and the model has, with exactly its projection, every entry of every method catalog that no
entry of its name follows in the catalog, and every entry of the first error catalog. -/
theorem entries_kept (limit : Nat) (c : Corpus) (o : Options) {r : Registry} {api : Api}
    {s : Resolver} (h : (ofCorpus limit c o).run.run (.ofRegistry r) = (.ok api, s)) :
    ∃ docs, (c.resolve limit).run.run (.ofRegistry r) = (.ok docs, s) ∧
      (∀ d ∈ docs, ∀ category, d.1.category? = some category → d.1.fileName = o.methodsFile →
        ∀ before e after, d.2.entries .methods = before ++ e :: after →
          e.1 ∉ OrderedMap.keys after → api.HasMethod category e) ∧
      ∀ d, docs.find? (fun d => d.1.fileName == o.errorsFile) = some d →
        ∀ e ∈ d.2.entries .errors, api.HasError e := by
  obtain ⟨docs, hresolve, hmodel⟩ := run_ofCorpus_eq_ok h
  refine ⟨docs, hresolve, ?_, ?_⟩
  · intro d hd category hcategory hfile before e after hentries hlast
    exact hasMethod_of_ofDocuments hmodel hd hcategory hfile hentries hlast
  · intro d hd e he
    exact hasError_of_ofDocuments hmodel hd he

end Api

/-! ## Entries that are lost -/

/-- A corpus of two error catalogs and of a method catalog that extends one which has a method of
the same name. -/
def Corpus.splitCatalogs : Corpus where
  base := .inMemory ""
  documents := [
    ⟨"errors.json", .inMemory "errors",
      "\x7b\"errors\": [\x7b\"name\": \"a\", \"code\": 1\x7d]\x7d".toUTF8⟩,
    ⟨"users/errors.json", .inMemory "users/errors",
      "\x7b\"errors\": [\x7b\"name\": \"b\", \"code\": 2\x7d]\x7d".toUTF8⟩,
    ⟨"users/methods.json", .inMemory "users/methods",
      ("\x7b\"methods\": [\x7b\"name\": \"users.get\", \"description\": \"own\"\x7d], " ++
        "\"$ref\": \"#/definitions/base\", \"definitions\": \x7b\"base\": " ++
        "\x7b\"methods\": [\x7b\"name\": \"users.get\", \"description\": \"base\"\x7d]" ++
        "\x7d\x7d\x7d").toUTF8⟩]

namespace Api

/-- Whether the method found under the name of an entry describes itself otherwise. -/
def describesOther (api : Api) (category : String) (e : String × Node) : Bool :=
  (OrderedMap.get? api.categories category).all fun methods =>
    (OrderedMap.get? methods e.1).all fun m => m.description != e.2.label? .description

lemma not_hasMethod_of_describesOther {api : Api} {category : String} {e : String × Node}
    (h : describesOther api category e = true) : ¬ api.HasMethod category e := by
  rintro ⟨m, hm, methods, hmethods, hfound⟩
  obtain ⟨p, -, hm⟩ := bind_eq_ok_iff.1 hm
  obtain rfl := Except.ok.inj hm
  rw [describesOther, hmethods, Option.all_some, hfound, Option.all_some] at h
  exact bne_iff_ne.1 h rfl

/-- That corpus has a model, in which a method and an error are missing. -/
lemma splitCatalogs_evaluated : ∃ docs api s,
    (Corpus.splitCatalogs.resolve 3).run.run (.ofRegistry {}) = (.ok docs, s) ∧
    (ofCorpus 3 .splitCatalogs {}).run.run (.ofRegistry {}) = (.ok api, s) ∧
    (∃ d ∈ docs, d.1.category? = some "users" ∧ d.1.fileName = "methods.json" ∧
      ∃ e ∈ d.2.entries .methods, describesOther api "users" e = true) ∧
    ∃ d ∈ docs, d.1.fileName = "errors.json" ∧
      ∃ e ∈ d.2.entries .errors, OrderedMap.get? api.errors (e.2.error e.1).name = none := by
  have hevaluated : (((ofCorpus 3 .splitCatalogs {}).run.run (.ofRegistry {})).1.toOption.any
      fun api => ((Corpus.splitCatalogs.resolve 3).run.run (.ofRegistry {})).1.toOption.any
        fun docs => decide ((∃ d ∈ docs, d.1.category? = some "users" ∧
            d.1.fileName = "methods.json" ∧
            ∃ e ∈ d.2.entries .methods, describesOther api "users" e = true) ∧
          ∃ d ∈ docs, d.1.fileName = "errors.json" ∧
            ∃ e ∈ d.2.entries .errors,
              OrderedMap.get? api.errors (e.2.error e.1).name = none)) = true := by
    decide +kernel
  obtain ⟨api, hapi, hevaluated⟩ := exists_of_any_toOption hevaluated
  obtain ⟨docs, hdocs, hevaluated⟩ := exists_of_any_toOption hevaluated
  have hmodel : (ofCorpus 3 .splitCatalogs {}).run.run (.ofRegistry {}) =
      (.ok api, ((ofCorpus 3 .splitCatalogs {}).run.run (.ofRegistry {})).2) := Prod.ext hapi rfl
  obtain ⟨docs', hresolve, -⟩ := run_ofCorpus_eq_ok hmodel
  obtain rfl : docs' = docs := by
    rw [hresolve] at hdocs
    exact Except.ok.inj hdocs
  exact ⟨docs', api, _, hresolve, hmodel, of_decide_eq_true hevaluated⟩

/-- The second of the two methods is kept. -/
theorem entries_kept_splitCatalogs : ∃ docs api s,
    (ofCorpus 3 .splitCatalogs {}).run.run (.ofRegistry {}) = (.ok api, s) ∧
    (Corpus.splitCatalogs.resolve 3).run.run (.ofRegistry {}) = (.ok docs, s) ∧
    ∃ d ∈ docs, ∃ e ∈ d.2.entries .methods, api.HasMethod "users" e := by
  obtain ⟨docs, api, s, hresolve, hmodel, ⟨d, hd, hcategory, hfile, e, he, -⟩, -⟩ :=
    splitCatalogs_evaluated
  obtain ⟨docs', hresolve', hmethods, -⟩ := entries_kept 3 .splitCatalogs {} hmodel
  obtain rfl : docs' = docs := by
    rw [hresolve] at hresolve'
    exact (Except.ok.inj (Prod.ext_iff.1 hresolve').1).symm
  have hne : d.2.entries .methods ≠ [] := List.ne_nil_of_mem he
  obtain ⟨before, last, hentries⟩ := (List.eq_nil_or_concat' _).resolve_left hne
  refine ⟨docs', api, s, hmodel, hresolve', d, hd, last, ?_, ?_⟩
  · rw [hentries]
    exact List.mem_append_right _ (List.mem_singleton_self _)
  · exact hmethods d hd "users" hcategory hfile before last [] hentries List.not_mem_nil

/-- **A model may lack entries of the catalogs.**  A corpus has a model although the method of an
entry of a method catalog and the error of an entry of an error catalog are not in it. -/
theorem entries_lost : ∃ docs api s,
    (Corpus.splitCatalogs.resolve 3).run.run (.ofRegistry {}) = (.ok docs, s) ∧
    (ofCorpus 3 .splitCatalogs {}).run.run (.ofRegistry {}) = (.ok api, s) ∧
    (∃ d ∈ docs, d.1.category? = some "users" ∧ d.1.fileName = "methods.json" ∧
      ∃ e ∈ d.2.entries .methods, ¬ api.HasMethod "users" e) ∧
    ∃ d ∈ docs, d.1.fileName = "errors.json" ∧
      ∃ e ∈ d.2.entries .errors, ¬ api.HasError e := by
  obtain ⟨docs, api, s, hresolve, hmodel, ⟨d, hd, hcategory, hfile, e, he, hother⟩,
    ⟨d', hd', hfile', e', he', hnone⟩⟩ := splitCatalogs_evaluated
  refine ⟨docs, api, s, hresolve, hmodel, ?_, ?_⟩
  · exact ⟨d, hd, hcategory, hfile, e, he, not_hasMethod_of_describesOther hother⟩
  · refine ⟨d', hd', hfile', e', he', fun hhas => ?_⟩
    rw [HasError, hnone] at hhas
    cases hhas

end Api

end SchemaCatalog
