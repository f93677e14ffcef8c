import SchemaCatalog.Proofs.Api.RepeatedProperties
import SchemaCatalog.Proofs.Api.Runs
import SchemaCatalog.Proofs.Resolution.Produced
import SchemaCatalog.Proofs.Resolution.Session
import SchemaCatalog.Proofs.Schema.Comparable

/-!
# Signatures of methods

A method has the parameters of all its `parameters` keywords, one after the other, and the responses
of all its `responses` keywords (`Node.signature_eq_ok_iff`), each under its key.  No keyword holds
two schemas under one key: reading makes no such keyword, and resolving keeps the keys
(`Corpus.throughout_of_resolve`).

So parameters share a name exactly if two `parameters` keywords of the method share a key, and
likewise for responses (`Corpus.signature_nodup_iff`).  A method that extends another one has the
keywords of both, and nothing stops them from doing so (`Corpus.signature_repeats`).
-/

namespace SchemaCatalog

open Api Resolution

/-! ## Parameters and responses of keywords -/

namespace Keyword

variable {k : Keyword} {kind : KeyedKind} {key : String}

lemma mem_keys_entriesOf : key ∈ OrderedMap.keys (k.entriesOf kind) ↔
    ∃ members, k = .keyed kind members ∧ key ∈ OrderedMap.keys members := by
  constructor
  · intro h
    cases k with
    | keyed kind' members =>
      rw [entriesOf] at h
      split at h
      case isTrue hkind => exact ⟨members, hkind ▸ rfl, h⟩
      case isFalse => exact absurd h List.not_mem_nil
    | _ => exact absurd h List.not_mem_nil
  · rintro ⟨members, rfl, hkey⟩
    rwa [entriesOf, if_pos rfl]

end Keyword

namespace Node

variable {n : Node} {kind : KeyedKind}

lemma namedShapes_append_eq_ok_iff {members members' : List (String × Node)} {shapes : List Shape} :
    namedShapes (members ++ members') = .ok shapes ↔
      ∃ here, namedShapes members = .ok here ∧ ∃ later, namedShapes members' = .ok later ∧
        here ++ later = shapes := by
  rw [namedShapes, List.mapM_append]
  simp only [bind_eq_ok_iff, pure_eq_ok_iff]
  rfl

lemma signature_cons_eq_ok_iff {k : Keyword} {ks : List Keyword}
    {parameters responses : List Shape} :
    signature (k :: ks) = .ok (parameters, responses) ↔
      ∃ ps rs ps' rs', namedShapes (k.entriesOf .parameters) = .ok ps ∧
        namedShapes (k.entriesOf .responses) = .ok rs ∧ signature ks = .ok (ps', rs') ∧
        ps ++ ps' = parameters ∧ rs ++ rs' = responses := by
  have hnil : namedShapes [] = .ok [] := rfl
  cases k with
  | keyed kind members =>
    cases kind with
    | parameters =>
      have hparameters : (Keyword.keyed .parameters members).entriesOf .parameters = members := rfl
      have hresponses : (Keyword.keyed .parameters members).entriesOf .responses = [] := rfl
      simp [signature, hparameters, hresponses, hnil, bind_eq_ok_iff, map_eq_ok_iff]
    | responses =>
      have hparameters : (Keyword.keyed .responses members).entriesOf .parameters = [] := rfl
      have hresponses : (Keyword.keyed .responses members).entriesOf .responses = members := rfl
      simp [signature, hparameters, hresponses, hnil, bind_eq_ok_iff, map_eq_ok_iff]
    | _ => simp [signature, Keyword.entriesOf, hnil]
  | _ => simp [signature, Keyword.entriesOf, hnil]

/-- Parameters are collected from all keywords of theirs, in order, and so are responses. -/
lemma signature_eq_ok_iff {ks : List Keyword} {parameters responses : List Shape} :
    signature ks = .ok (parameters, responses) ↔
      namedShapes (ks.flatMap (Keyword.entriesOf .parameters)) = .ok parameters ∧
      namedShapes (ks.flatMap (Keyword.entriesOf .responses)) = .ok responses := by
  induction ks generalizing parameters responses with
  | nil => simp [signature, namedShapes, pure_eq_ok_iff]
  | cons k ks ih =>
    rw [signature_cons_eq_ok_iff, List.flatMap_cons, List.flatMap_cons,
      namedShapes_append_eq_ok_iff, namedShapes_append_eq_ok_iff]
    simp only [ih]
    constructor
    · rintro ⟨ps, rs, ps', rs', hps, hrs, ⟨hps', hrs'⟩, hparameters, hresponses⟩
      exact ⟨⟨ps, hps, ps', hps', hparameters⟩, rs, hrs, rs', hrs', hresponses⟩
    · rintro ⟨⟨ps, hps, ps', hps', hparameters⟩, rs, hrs, rs', hrs', hresponses⟩
      exact ⟨ps, rs, ps', rs', hps, hrs, ⟨hps', hrs'⟩, hparameters, hresponses⟩

lemma map_name_of_namedShapes {members : List (String × Node)} {shapes : List Shape}
    (h : namedShapes members = .ok shapes) :
    shapes.map Shape.name = (OrderedMap.keys members).map some := by
  refine map_name_of_forall₂ ((mapM_eq_ok_iff.1 h).imp fun e s hs => ?_)
  exact ⟨[], s, hs, rfl⟩

/-- The names of the parameters of a method are the keys of its `parameters` keywords, and those of
its responses the keys of its `responses` keywords. -/
theorem names_of_method {fullName : String} {m : Method} (h : n.method fullName = .ok m) :
    m.parameters.map Shape.name = (OrderedMap.keys (n.entries .parameters)).map some ∧
      m.responses.map Shape.name = (OrderedMap.keys (n.entries .responses)).map some := by
  obtain ⟨⟨parameters, responses⟩, hsignature, h⟩ := bind_eq_ok_iff.1 h
  obtain rfl := Except.ok.inj h
  obtain ⟨hparameters, hresponses⟩ := signature_eq_ok_iff.1 hsignature
  rw [entries_eq, entries_eq]
  exact ⟨map_name_of_namedShapes hparameters, map_name_of_namedShapes hresponses⟩

/-! ## Keys that keywords share -/

/-- Whether two keywords of a kind hold schemas under one key. -/
def Shares (n : Node) (kind : KeyedKind) (key : String) : Prop :=
  ∃ a b, [Keyword.keyed kind a, .keyed kind b].Sublist n.keywords ∧
    key ∈ OrderedMap.keys a ∧ key ∈ OrderedMap.keys b

/-- Where no keyword repeats a key, the entries of a kind have distinct keys exactly if no two
keywords share one. -/
lemma nodup_keys_entries_iff (distinct : ∀ k ∈ n.keywords, k.KeysDistinct) :
    (OrderedMap.keys (n.entries kind)).Nodup ↔ ∀ key, ¬ n.Shares kind key := by
  have hkeys : OrderedMap.keys (n.entries kind) =
      n.keywords.flatMap fun k => OrderedMap.keys (k.entriesOf kind) := by
    rw [entries_eq, OrderedMap.keys, List.map_flatMap]
    rfl
  have hnodup : ∀ k ∈ n.keywords, (OrderedMap.keys (k.entriesOf kind)).Nodup :=
    fun k hk => (distinct k hk).nodup_keys_entriesOf kind
  rw [hkeys, List.nodup_iff_count_le_one]
  refine forall_congr' fun key => ?_
  rw [← not_lt, ← Nat.succ_le_iff, two_le_count_flatMap_iff hnodup]
  simp only [Keyword.mem_keys_entriesOf]
  refine not_congr ⟨?_, ?_⟩
  · rintro ⟨_, _, hsub, ⟨a, rfl, ha⟩, b, rfl, hb⟩
    exact ⟨a, b, hsub, ha, hb⟩
  · rintro ⟨a, b, hsub, ha, hb⟩
    exact ⟨_, _, hsub, ⟨a, rfl, ha⟩, b, rfl, hb⟩

/-- Parameters of a method share a name exactly if two of its `parameters` keywords share a key,
and responses if two of its `responses` keywords do. -/
theorem method_nodup_iff (distinct : ∀ k ∈ n.keywords, k.KeysDistinct) {fullName : String}
    {m : Method} (h : n.method fullName = .ok m) :
    ((m.parameters.map Shape.name).Nodup ↔ ∀ key, ¬ n.Shares .parameters key) ∧
      ((m.responses.map Shape.name).Nodup ↔ ∀ key, ¬ n.Shares .responses key) := by
  obtain ⟨hparameters, hresponses⟩ := names_of_method h
  have hsome : Function.Injective (some : String → Option String) := fun _ _ => Option.some.inj
  rw [hparameters, hresponses, List.nodup_map_iff hsome, List.nodup_map_iff hsome,
    nodup_keys_entries_iff distinct, nodup_keys_entries_iff distinct]
  exact ⟨.rfl, .rfl⟩

end Node

/-! ## Keys of resolved documents -/

section Lasting

variable {K : Keyword → Prop} {limit : Nat} {s s' : Resolver} {r : Registry}

/-- What lasts throughout the documents and what a registry offers before does so throughout what
it offers with them. -/
lemma Registry.Offers.registerAll (hK : Keyword.Lasting K)
    (hr : r.Offers (Node.Throughout (Node.Carries K))) {docs : List (Document × Node)}
    (hdocs : ∀ d ∈ docs, d.2.Throughout (Node.Carries K)) :
    (r.registerAll docs).Offers (Node.Throughout (Node.Carries K)) := by
  unfold Registry.registerAll
  induction docs generalizing r with
  | nil => exact hr
  | cons d docs ih =>
    obtain ⟨hd, hdocs⟩ := List.forall_mem_cons.1 hdocs
    exact ih (hr.register_lasting hK d.1.address hd) hdocs

lemma throughout_of_resolveEach (hK : Keyword.Lasting K) {ds : List Document}
    {docs : List (Document × Node)} (hs : s.Offers (Node.Throughout (Node.Carries K)))
    (h : (Run.resolveEach limit ds).run.run s = (.ok docs, s')) :
    ∀ d ∈ docs, d.2.Throughout (Node.Carries K) := by
  induction ds generalizing s docs with
  | nil =>
    obtain ⟨rfl, -⟩ := Run.run_pure_eq_ok.1 h
    exact fun _ hd => absurd hd List.not_mem_nil
  | cons d ds ih =>
    obtain ⟨m, s₁, rest, hm, hrest, rfl⟩ := Run.resolveEach_cons_eq_ok.1 h
    obtain ⟨hs₁, -, hthroughout⟩ := (document_lasting hK limit d.address s hs).of_ok hm
    exact List.forall_mem_cons.2 ⟨hthroughout, ih hs₁ hrest⟩

/-- **What lasts holds throughout a resolved corpus**, if it holds throughout what is decoded and
throughout what the registry offers before. -/
theorem Corpus.throughout_of_resolve (hK : Keyword.Lasting K)
    (hD : ∀ v n, v.hasDistinctNames = true → Node.decode v = .ok n →
      n.Throughout (Node.Carries K))
    {c : Corpus} (hr : r.Offers (Node.Throughout (Node.Carries K)))
    {docs : List (Document × Node)}
    (h : (c.resolve limit).run.run (.ofRegistry r) = (.ok docs, s)) :
    ∀ d ∈ docs, d.2.Throughout (Node.Carries K) := by
  obtain ⟨decoded, hdecoded, hrun⟩ := Corpus.run_resolve_eq_ok.1 h
  refine throughout_of_resolveEach hK ⟨hr.registerAll hK fun d hd => ?_,
    fun _ he => absurd he List.not_mem_nil⟩ hrun
  obtain ⟨_, -, -, hbytes⟩ :=
    Keyword.exists_rel_of_mem (Document.forall₂_of_mapM_decode hdecoded).flip hd
  obtain ⟨v, -, hdistinct, hdecode⟩ := Node.ofBytes_eq_ok_iff.1 hbytes
  exact hD v d.2 hdistinct hdecode

end Lasting

namespace Keyword

lemma lasting_keysDistinct : Lasting KeysDistinct := by
  intro R _ j k hrel hj
  cases hrel with
  | keyed hmembers =>
    rw [KeysDistinct, OrderedMap.keys_eq_of_forall₂ hmembers fun _ _ h => h.1]
    exact hj
  | _ => trivial

lemma Reads.keysDistinct {name : String} {v : Json} {k : Keyword} (hv : v.hasDistinctNames = true)
    (h : Reads name v k) : k.KeysDistinct := by
  have hcomparable := h.comparable hv
  cases k with
  | keyed kind members => exact hcomparable
  | _ => trivial

end Keyword

namespace Corpus

/-- **When signatures have distinct names.**  In a corpus that is resolved over a registry of
schemas whose keywords have distinct keys, every method has the keys of its `parameters` keywords
for the names of its parameters, in order, and these are distinct exactly if no two of the keywords
share a key.  The same holds of its responses. -/
theorem signature_nodup_iff {limit : Nat} {c : Corpus} {r : Registry} {s : Resolver}
    {docs : List (Document × Node)}
    (distinct : r.Offers (Node.Throughout (Node.Carries Keyword.KeysDistinct)))
    (hdocs : (c.resolve limit).run.run (.ofRegistry r) = (.ok docs, s)) {d : Document × Node}
    (hd : d ∈ docs) {e : String × Node} (he : e ∈ d.2.entries .methods) {m : Method}
    (hm : e.2.method e.1 = .ok m) :
    (m.parameters.map Shape.name = (OrderedMap.keys (e.2.entries .parameters)).map some ∧
      ((m.parameters.map Shape.name).Nodup ↔ ∀ key, ¬ e.2.Shares .parameters key)) ∧
    m.responses.map Shape.name = (OrderedMap.keys (e.2.entries .responses)).map some ∧
      ((m.responses.map Shape.name).Nodup ↔ ∀ key, ¬ e.2.Shares .responses key) := by
  have hread (v : Json) (n : Node) (hv : v.hasDistinctNames = true) (hn : Node.decode v = .ok n) :
      n.Throughout (Node.Carries Keyword.KeysDistinct) :=
    Node.decode_throughout (fun _ _ hv hu => hu.hasDistinctNames hv)
      (fun _ hv m hm _ hread => hread.keysDistinct ((Json.hasDistinctNames_object.1 hv).2 m hm))
      hv hn
  -- An entry is nested in a resolved document, throughout which keys are as distinct as when read.
  have hthroughout := throughout_of_resolve Keyword.lasting_keysDistinct hread distinct hdocs d hd
  obtain ⟨k, hk, hnested⟩ := Node.exists_nested_of_mem_entries he
  have hkeys : ∀ k ∈ e.2.keywords, k.KeysDistinct :=
    (hthroughout.nested hk hnested).self.keywords
  obtain ⟨hparameters, hresponses⟩ := Node.names_of_method hm
  obtain ⟨hpnodup, hrnodup⟩ := Node.method_nodup_iff hkeys hm
  exact ⟨⟨hparameters, hpnodup⟩, hresponses, hrnodup⟩

/-! ## A method that extends another one -/

/-- A corpus of one catalog.  It has a method with a parameter that extends one which has a
parameter of the same name. -/
def extendedMethod : Corpus where
  base := .inMemory ""
  documents := [⟨"users/methods.json", .inMemory "users/methods",
    ("\x7b\"methods\":[\x7b\"name\":\"users.get\",\"parameters\":[\x7b\"name\":\"id\"\x7d]," ++
      "\"$ref\":\"#/definitions/base\"\x7d]," ++
      "\"definitions\":\x7b\"base\":" ++
        "\x7b\"parameters\":[\x7b\"name\":\"id\"\x7d]\x7d\x7d\x7d").toUTF8⟩]

/-- The method has two parameters of that name. -/
lemma extendedMethod_evaluated :
    ∃ docs s, (extendedMethod.resolve 3).run.run (.ofRegistry {}) = (.ok docs, s) ∧
      ∃ d ∈ docs, ∃ e ∈ d.2.entries .methods, ∃ m, e.2.method e.1 = .ok m ∧
        m.parameters.map Shape.name = [some "id", some "id"] := by
  have hevaluated : (((extendedMethod.resolve 3).run.run (.ofRegistry {})).1.toOption.any
      fun docs => docs.any fun d => (d.2.entries .methods).any fun e =>
        (e.2.method e.1).toOption.any fun m =>
          m.parameters.map Shape.name == [some "id", some "id"]) = true := by
    decide +kernel
  obtain ⟨docs, hdocs, hevaluated⟩ := exists_of_any_toOption hevaluated
  obtain ⟨d, hd, hevaluated⟩ := List.any_eq_true.1 hevaluated
  obtain ⟨e, he, hevaluated⟩ := List.any_eq_true.1 hevaluated
  obtain ⟨m, hm, hnames⟩ := exists_of_any_toOption hevaluated
  exact ⟨docs, _, Prod.fst_eq_iff.1 hdocs, d, hd, e, he, m, hm, eq_of_beq hnames⟩

lemma offers_empty (P : Node → Prop) : Registry.Offers P {} where
  content _ _ h := nomatch h
  anchor? _ _ _ h := nomatch h

/-- Two of its keywords share a key. -/
theorem signature_nodup_iff_extendedMethod :
    ∃ docs s, (extendedMethod.resolve 3).run.run (.ofRegistry {}) = (.ok docs, s) ∧
      ∃ d ∈ docs, ∃ e ∈ d.2.entries .methods, ∃ key, e.2.Shares .parameters key := by
  obtain ⟨docs, s, hdocs, d, hd, e, he, m, hm, hnames⟩ := extendedMethod_evaluated
  obtain ⟨⟨-, hnodup⟩, -⟩ := signature_nodup_iff (offers_empty _) hdocs hd he hm
  refine ⟨docs, s, hdocs, d, hd, e, he, ?_⟩
  by_contra hnone
  have hdistinct := hnodup.2 (not_exists.1 hnone)
  rw [hnames] at hdistinct
  exact absurd hdistinct (by decide)

/-- **A signature may repeat a name.**  A method of a corpus that resolves has parameters whose
names are not distinct. -/
theorem signature_repeats :
    ∃ docs s, (extendedMethod.resolve 3).run.run (.ofRegistry {}) = (.ok docs, s) ∧
      ∃ d ∈ docs, ∃ e ∈ d.2.entries .methods, ∃ m, e.2.method e.1 = .ok m ∧
        ¬ (m.parameters.map Shape.name).Nodup := by
  obtain ⟨docs, s, hdocs, d, hd, e, he, m, hm, hnames⟩ := extendedMethod_evaluated
  refine ⟨docs, s, hdocs, d, hd, e, he, m, hm, ?_⟩
  rw [hnames]
  decide

end Corpus

end SchemaCatalog
