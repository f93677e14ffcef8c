import SchemaCatalog.Proofs.Resolution.Settled
import SchemaCatalog.Proofs.Schema.RearrangedPlaces

/-!
# The order of members

Two corpora of which the one comes of the other by permuting the members of objects are held by
registries that differ in the order of keywords alone (`Registry.RearrangedInto`, both ways).  As
long as anchors are tidy, the same places then stand in both, with the same references, and so the
one corpus is settled if the other is (`Corpus.resolves_iff_of_permuted`).

Without that the order decides.  A node inside an unrecognized member has its anchor named when it
is resolved and is not found by its anchor before, so a reference by the anchor succeeds if it
comes behind a reference by pointer and fails if it comes first (`Corpus.order_decides`).
-/

namespace SchemaCatalog

open Resolution

/-! ## Trees -/

namespace Node.Rearranged

variable {n n' m m' : Node} {T : Finset Address} {current p : Address}

/-- Identities and base addresses do not matter on either side. -/
lemma of_forgets (h : n.Rearranged n') (hm : m.forget = n.forget) (hm' : m'.forget = n'.forget) :
    m.Rearranged m' :=
  ((h.of_forget hm).symm.of_forget hm').symm

lemma targets (h : n.Rearranged n') (hp : p ∈ n.targets current) : p ∈ n'.targets current := by
  obtain ⟨m, hm, reference, hreference, ht⟩ := mem_targets.1 hp
  obtain ⟨m', hm', hrearranged⟩ := h.exists_mem_nodes hm
  exact mem_targets.2 ⟨m', hm', reference, hrearranged.references_perm.subset hreference, ht⟩

lemma confined (h : n.Rearranged n') (hn : n.Confined T (fun _ => False) current) :
    n'.Confined T (fun _ => False) current := by
  have transfer : ∀ m' ∈ n'.nodes, ∃ m ∈ n.nodes, m'.references.Perm m.references := by
    intro m' hm'
    obtain ⟨m, hm, hrearranged⟩ := h.symm.exists_mem_nodes hm'
    exact ⟨m, hm, hrearranged.references_perm⟩
  constructor
  · intro m' hm' reference hone
    obtain ⟨m, hm, hperm⟩ := transfer m' hm'
    rw [hone, List.singleton_perm] at hperm
    exact hn.target m hm reference hperm.symm
  · intro m' hm' reference hone
    obtain ⟨m, hm, hperm⟩ := transfer m' hm'
    rw [hone, List.singleton_perm] at hperm
    exact hn.malformed m hm reference hperm.symm
  · intro m' hm' hmore
    obtain ⟨m, hm, hperm⟩ := transfer m' hm'
    rw [hperm.length_eq] at hmore
    exact hn.several m hm hmore

/-- A schema that is read from bytes is one with its members in another order, which is the same. -/
lemma of_ofBytes {bytes : ByteArray} (h : ofBytes bytes = .ok n) : n.Rearranged n := by
  obtain ⟨v, -, hdistinct, hn⟩ := ofBytes_eq_ok_iff.1 h
  obtain ⟨n', hn', hrearranged⟩ := exists_decode_of_permuted (.refl v) hdistinct hn
  obtain rfl : n = n' := Except.ok.inj (hn.symm.trans hn')
  exact hrearranged

end Node.Rearranged

/-! ## Registries -/

namespace Registry

/-- Whether each document of a registry is rearranged in another one, at the same address. -/
def RearrangedInto (r r' : Registry) : Prop :=
  ∀ a n, r.content a = .ok n → ∃ n', r'.content a = .ok n' ∧ n.Rearranged n'

variable {r r' : Registry} {doc doc' n n' : Node} {fragment : String} {a p q : Address}

/-- In rearranged documents with tidy anchors a fragment names rearranged places. -/
lemma TidyAnchors.exists_placeIn (tidy : r'.TidyAnchors) (hdoc' : r'.content a = .ok doc')
    (h : doc.Rearranged doc') (hn : placeIn doc fragment = some n) :
    ∃ n', placeIn doc' fragment = some n' ∧ n.Rearranged n' := by
  have pointer (hfind : doc.find? fragment = some n) :
      ∃ n', doc'.find? fragment = some n' ∧ n.Rearranged n' := by
    obtain ⟨path, hpath, hn⟩ := Option.bind_eq_some_iff.1 hfind
    obtain ⟨n', hn', hrearranged⟩ := h.at? hn
    exact ⟨n', Option.bind_eq_some_iff.2 ⟨path, hpath, hn'⟩, hrearranged⟩
  have anchor (hfind : doc.findAnchor? fragment = some n) :
      ∃ n', placeIn doc' fragment = some n' ∧ n.Rearranged n' := by
    rw [Node.findAnchor?_eq] at hfind
    have hhas : n.hasAnchor fragment = true := by simpa using List.find?_some hfind
    have hname := Node.hasAnchor_iff.1 hhas
    obtain ⟨n', hn', hrearranged⟩ := h.exists_mem_nodes (List.mem_of_find?_eq_some hfind)
    exact ⟨n', tidy.placeIn_eq hdoc' hn' (hrearranged.anchors_perm.subset hname), hrearranged⟩
  unfold placeIn at hn
  split at hn
  case h_1 hchars =>
    obtain ⟨n', hn', hrearranged⟩ := pointer hn
    refine ⟨n', ?_, hrearranged⟩
    unfold placeIn
    rw [hchars]
    exact hn'
  case h_2 hchars =>
    obtain ⟨n', hn', hrearranged⟩ := pointer hn
    refine ⟨n', ?_, hrearranged⟩
    unfold placeIn
    rw [hchars]
    exact hn'
  case h_3 => exact anchor hn

namespace RearrangedInto

/-- What a source has comes in one order. -/
lemma of_source (source : Option (Address → Option ByteArray)) :
    RearrangedInto { source } { source } := by
  intro a n hn
  refine ⟨n, hn, ?_⟩
  unfold content at hn
  split at hn
  case h_1 hkept => cases hkept
  case h_2 =>
    split at hn
    case h_1 => cases hn
    case h_2 bytes _ =>
      split at hn
      case h_1 => cases hn
      case h_2 m hm =>
        obtain rfl := Except.ok.inj hn
        exact .of_ofBytes hm

lemma register (h : r.RearrangedInto r') (hn : n.Rearranged n') (a : Address) :
    (r.register a n).2.RearrangedInto (r'.register a n').2 := by
  intro b m hm
  by_cases hab : a.withoutFragment = b.withoutFragment
  · rw [content_congr hab.symm, content_register_self] at hm ⊢
    obtain rfl := Except.ok.inj hm
    exact ⟨_, rfl, hn.of_forgets (forget_register r a n) (forget_register r' a n')⟩
  · rw [content_register_of_ne _ _ hab] at hm ⊢
    exact h b m hm

lemma registerAll {docs docs' : List (Document × Node)} (h : r.RearrangedInto r')
    (hdocs : List.Forall₂ (fun d d' => d.1.address = d'.1.address ∧ d.2.Rearranged d'.2) docs
      docs') : (r.registerAll docs).RearrangedInto (r'.registerAll docs') := by
  induction hdocs generalizing r r' with
  | nil => exact h
  | @cons d d' docs docs' hd _ ih =>
    have hfirst := h.register hd.2 d.1.address
    rw [hd.1] at hfirst
    have hregistered := ih hfirst
    unfold Registry.registerAll at hregistered ⊢
    rw [List.foldl_cons, List.foldl_cons, hd.1]
    exact hregistered

lemma tidyAnchors (h : r.RearrangedInto r') (tidy : r'.TidyAnchors) : r.TidyAnchors where
  proper a doc hdoc m hm name hname := by
    obtain ⟨doc', hdoc', hrearranged⟩ := h a doc hdoc
    obtain ⟨m', hm', hm⟩ := hrearranged.exists_mem_nodes hm
    exact tidy.proper a doc' hdoc' m' hm' name (hm.anchors_perm.subset hname)
  unique a doc hdoc := by
    obtain ⟨doc', hdoc', hrearranged⟩ := h a doc hdoc
    exact hrearranged.symm.nodes_anchors_perm.nodup (tidy.unique a doc' hdoc')
  unburied a doc hdoc m hm l hl := by
    obtain ⟨doc', hdoc', hrearranged⟩ := h a doc hdoc
    obtain ⟨m', hm', hmrearranged⟩ := hrearranged.buried hm
    obtain ⟨l', hl', hlrearranged⟩ := hmrearranged.exists_mem_nodes hl
    have hperm := hlrearranged.anchors_perm
    rwa [tidy.unburied a doc' hdoc' m' hm' l' hl', List.perm_nil] at hperm

section

variable (h : r.RearrangedInto r') (fresh : r.anchors = []) (fresh' : r'.anchors = [])
  (tidy : r'.TidyAnchors)
include h fresh fresh' tidy

lemma raw (hn : r.raw p = .ok n) : ∃ n', r'.raw p = .ok n' ∧ n.Rearranged n' := by
  obtain ⟨fragment, doc, hfragment, hdoc, hplace⟩ := (raw_eq_ok fresh).1 hn
  obtain ⟨doc', hdoc', hdocs⟩ := h p doc hdoc
  obtain ⟨n', hn', hrearranged⟩ := tidy.exists_placeIn hdoc' hdocs hplace
  exact ⟨n', (raw_eq_ok fresh').2 ⟨fragment, doc', hfragment, hdoc', hn'⟩, hrearranged⟩

lemma refers (hpq : r.Refers p q) : r'.Refers p q := by
  obtain ⟨n, hn, hq⟩ := hpq
  obtain ⟨n', hn', hrearranged⟩ := h.raw fresh fresh' tidy hn
  exact ⟨n', hn', hrearranged.targets hq⟩

lemma target (hp : r.Target p) : r'.Target p := by
  induction hp with
  | document a => exact .document a
  | refers _ hpq ih => exact ih.refers (h.refers fresh fresh' tidy hpq)

lemma unambiguous (distinct : r'.Unambiguous) : r.Unambiguous := by
  intro p q hp hq
  exact distinct p q (h.target fresh fresh' tidy hp) (h.target fresh fresh' tidy hq)

/-- **Settled places stay settled.** -/
theorem settled (hp : r.Settled [] p) : r'.Settled [] p := by
  obtain ⟨T, hmem, hT⟩ := hp
  refine ⟨T, hmem, fun q hq => .inr ?_⟩
  have hconfined := hT.confined q hq
  cases hn : r.raw q with
  | error e => exact (hconfined.missing e hn).elim
  | ok n =>
    obtain ⟨n', hn', hrearranged⟩ := h.raw fresh fresh' tidy hn
    exact .of_ok hn' (hrearranged.confined (hconfined.tree n hn))

end

end RearrangedInto

end Registry

/-! ## Corpora -/

/-- Whether a document comes of another one by permuting the members of JSON objects, at any
depth.  What is no JSON stays as it is. -/
structure Document.Permuted (d d' : Document) : Prop where
  name : d.name = d'.name
  address : d.address = d'.address
  content : d.content = d'.content ∨ ∃ v v', Json.readBytes? d.content = some v ∧
    Json.readBytes? d'.content = some v' ∧ v.Permuted v'

namespace Document.Permuted

variable {d d' : Document}

lemma symm (h : d.Permuted d') : d'.Permuted d where
  name := h.name.symm
  address := h.address.symm
  content := by
    rcases h.content with heq | ⟨v, v', hv, hv', hpermuted⟩
    · exact .inl heq.symm
    · exact .inr ⟨v', v, hv', hv, hpermuted.symm⟩

lemma exists_ofBytes (h : d.Permuted d') {n : Node} (hn : Node.ofBytes d.content = .ok n) :
    ∃ n', Node.ofBytes d'.content = .ok n' ∧ n.Rearranged n' := by
  rcases h.content with heq | ⟨v, v', hv, hv', hpermuted⟩
  · exact ⟨n, heq ▸ hn, .of_ofBytes hn⟩
  · obtain ⟨u, hu, hdistinct, hn⟩ := Node.ofBytes_eq_ok_iff.1 hn
    obtain rfl : v = u := Option.some.inj (hv.symm.trans hu)
    obtain ⟨n', hn', hrearranged⟩ := Node.exists_decode_of_permuted hpermuted hdistinct hn
    have hdistinct' := Json.hasDistinctNames_of_readBytes? hv'
    exact ⟨n', Node.ofBytes_eq_ok_iff.2 ⟨v', hv', hdistinct', hn'⟩, hrearranged⟩

end Document.Permuted

namespace Corpus

/-- Whether a corpus comes of another one by permuting the members of JSON objects inside its
documents. -/
def Permuted (c c' : Corpus) : Prop := List.Forall₂ Document.Permuted c.documents c'.documents

/-- Whether the documents of a corpus, together with what the source has, are tidy and without
ambiguous targets. -/
def Tidy (c : Corpus) (source : Option (Address → Option ByteArray)) : Prop :=
  ∀ docs, c.documents.mapM Document.decode = .ok docs →
    (Registry.registerAll { source } docs).TidyAnchors ∧
      (Registry.registerAll { source } docs).Unambiguous

variable {c c' : Corpus} {source : Option (Address → Option ByteArray)}

lemma Permuted.symm (h : c.Permuted c') : c'.Permuted c := h.flip.imp fun _ _ h => h.symm

/-- Permuted documents can be decoded if the documents can, and then they are rearranged in the
registry. -/
lemma Permuted.exists_decode (h : c.Permuted c') (source : Option (Address → Option ByteArray))
    {docs : List (Document × Node)} (hdocs : c.documents.mapM Document.decode = .ok docs) :
    ∃ docs', c'.documents.mapM Document.decode = .ok docs' ∧
      (Registry.registerAll { source } docs).RearrangedInto
        (Registry.registerAll { source } docs') := by
  have turn : ∀ d ∈ c.documents, ∀ (d' : Document) (p : Document × Node), d.Permuted d' →
      d.decode = .ok p → ∃ p', d'.decode = .ok p' ∧
        p.1.address = p'.1.address ∧ p.2.Rearranged p'.2 := by
    intro d _ d' p hpermuted hp
    unfold Document.decode at hp ⊢
    cases hn : Node.ofBytes d.content with
    | error e =>
      rw [hn] at hp
      cases hp
    | ok n =>
      rw [hn] at hp
      obtain rfl := Except.ok.inj hp
      obtain ⟨n', hn', hrearranged⟩ := hpermuted.exists_ofBytes hn
      rw [hn']
      exact ⟨(d', n'), rfl, hpermuted.address, hrearranged⟩
  obtain ⟨docs', hdocs', hrelated⟩ := exists_forall₂ h (mapM_eq_ok_iff.1 hdocs) turn
  exact ⟨docs', mapM_eq_ok_iff.2 hdocs',
    (Registry.RearrangedInto.of_source source).registerAll hrelated⟩

lemma Tidy.of_permuted (tidy : c.Tidy source) (h : c.Permuted c') : c'.Tidy source := by
  intro docs' hdocs'
  obtain ⟨docs, hdocs, hinto⟩ := h.symm.exists_decode source hdocs'
  obtain ⟨hanchors, hdistinct⟩ := tidy docs hdocs
  have fresh := (Registry.anchors_source_registerAll { source } docs).1
  have fresh' := (Registry.anchors_source_registerAll { source } docs').1
  exact ⟨hinto.tidyAnchors hanchors, hinto.unambiguous fresh' fresh hanchors hdistinct⟩

lemma Resolves.of_permuted (tidy : c.Tidy source) (h : c.Permuted c')
    (hc : c.Resolves { source }) : c'.Resolves { source } := by
  obtain ⟨docs, hdocs⟩ := hc.exists_decode
  obtain ⟨docs', hdocs', hinto⟩ := h.exists_decode source hdocs
  obtain ⟨hanchors, hdistinct⟩ := tidy docs hdocs
  obtain ⟨hanchors', -⟩ := tidy.of_permuted h docs' hdocs'
  have fresh := (Registry.anchors_source_registerAll { source } docs).1
  have fresh' := (Registry.anchors_source_registerAll { source } docs').1
  have hsettled := (resolves_iff_settled hdocs fresh hanchors hdistinct).1 hc
  refine resolves_of_settled hdocs' fun d' hd' => ?_
  obtain ⟨d, hd, hpermuted⟩ := (Matched.of_forall₂ h).exists_left hd'
  rw [← hpermuted.address]
  exact hinto.settled fresh fresh' hanchors' (hsettled d hd)

/-- **Where anchors are tidy, the order of members does not decide whether references resolve.**
Take a corpus and a source whose documents are tidy and unambiguous, and permute the members of
JSON objects in the documents of the corpus, at any depth: the corpus resolves if and only if the
permuted one does. -/
theorem resolves_iff_of_permuted (tidy : c.Tidy source) (h : c.Permuted c') :
    c.Resolves { source } ↔ c'.Resolves { source } := by
  constructor
  · exact .of_permuted tidy h
  · exact .of_permuted (tidy.of_permuted h) h.symm

end Corpus

/-! ## Two properties in either order -/

lemma Json.readBytes?_toUTF8 (text : String) : readBytes? text.toUTF8 = read? text.toList := by
  have hdecode : String.fromUTF8? text.toUTF8 = some text := dif_pos text.isValidUTF8
  rw [readBytes?, hdecode]
  rfl

/-- Two members of the first member of an object in either order. -/
lemma Json.permuted_swap (name : String) (m m' : String × Json) (rest : List (String × Json)) :
    (Json.object ((name, .object [m, m']) :: rest)).Permuted
      (.object ((name, .object [m', m]) :: rest)) := by
  have hself (ms : List (String × Json)) :
      List.Forall₂ (fun m m' => m.1 = m'.1 ∧ m.2.Permuted m'.2) ms ms :=
    List.forall₂_same.2 fun m _ => ⟨rfl, .refl m.2⟩
  have hinner : (Json.object [m, m']).Permuted (.object [m', m]) :=
    permuted_object_iff.2 ⟨_, rfl, [m, m'], hself _, .swap m' m []⟩
  exact permuted_object_iff.2 ⟨_, rfl, .of_forall₂ (.cons ⟨rfl, hinner⟩ (hself rest))⟩

namespace Document

/-- A document with a property that refers to another document, and a property that does not. -/
def referenceFirst : Document where
  name := "a/methods.json"
  address := .inMemory "a"
  content := ("\x7b\"properties\": \x7b\"b\": \x7b\"$ref\": \"mem:c\"\x7d, " ++
    "\"a\": true\x7d\x7d").toUTF8

/-- The same properties in the other order. -/
def referenceLast : Document where
  name := "a/methods.json"
  address := .inMemory "a"
  content := ("\x7b\"properties\": \x7b\"a\": true, " ++
    "\"b\": \x7b\"$ref\": \"mem:c\"\x7d\x7d\x7d").toUTF8

/-- The other document. -/
def referred : Document where
  name := "c.json"
  address := .inMemory "c"
  content := "\x7b\"type\": \"string\"\x7d".toUTF8

/-- A document with a node inside an unrecognized member and two properties that refer to it, the
first by its anchor and the second by a pointer. -/
def anchorFirst : Document where
  name := "a/methods.json"
  address := .inMemory "a"
  content := ("\x7b\"properties\": \x7b\"b\": \x7b\"$ref\": \"#n\"\x7d, " ++
    "\"a\": \x7b\"$ref\": \"#/x\"\x7d\x7d, \"x\": \x7b\"$anchor\": \"n\"\x7d\x7d").toUTF8

/-- The same properties in the other order. -/
def pointerFirst : Document where
  name := "a/methods.json"
  address := .inMemory "a"
  content := ("\x7b\"properties\": \x7b\"a\": \x7b\"$ref\": \"#/x\"\x7d, " ++
    "\"b\": \x7b\"$ref\": \"#n\"\x7d\x7d, \"x\": \x7b\"$anchor\": \"n\"\x7d\x7d").toUTF8

set_option maxRecDepth 10000 in
lemma referenceFirst_permuted : referenceFirst.Permuted referenceLast where
  name := rfl
  address := rfl
  content := by
    refine .inr ⟨_, _, (Json.readBytes?_toUTF8 _).trans ?_, (Json.readBytes?_toUTF8 _).trans ?_,
      Json.permuted_swap "properties" ("b", .object [("$ref", .string "mem:c")])
        ("a", .bool true) []⟩
    · cbv
    · cbv

set_option maxRecDepth 10000 in
lemma anchorFirst_permuted : anchorFirst.Permuted pointerFirst where
  name := rfl
  address := rfl
  content := by
    refine .inr ⟨_, _, (Json.readBytes?_toUTF8 _).trans ?_, (Json.readBytes?_toUTF8 _).trans ?_,
      Json.permuted_swap "properties" ("b", .object [("$ref", .string "#n")])
        ("a", .object [("$ref", .string "#/x")]) [("x", .object [("$anchor", .string "n")])]⟩
    · cbv
    · cbv

end Document

/-- Whether a run has failed because a place is missing. -/
def Resolution.isMissing : Except ResolveError Node → Bool
  | .error (.notFound _) => true
  | _ => false

lemma Resolution.isMissing_iff {x : Except ResolveError Node} :
    isMissing x = true ↔ ∃ place, x = .error (.notFound place) := by
  unfold isMissing
  split
  case h_1 place => exact ⟨fun _ => ⟨place, rfl⟩, fun _ => rfl⟩
  case h_2 hne =>
    refine ⟨fun h => absurd h Bool.false_ne_true, ?_⟩
    rintro ⟨place, rfl⟩
    exact absurd rfl (hne place)

namespace Corpus

/-- The corpus of a document that refers to another one, and of that one. -/
def referenceFirst : Corpus := ⟨.inMemory "", [.referenceFirst, .referred]⟩

/-- The same corpus with two members swapped. -/
def referenceLast : Corpus := ⟨.inMemory "", [.referenceLast, .referred]⟩

/-- The corpus of a document that refers to a node by its anchor and then by a pointer. -/
def anchorFirst : Corpus := ⟨.inMemory "", [.anchorFirst]⟩

/-- The same corpus with two members swapped. -/
def pointerFirst : Corpus := ⟨.inMemory "", [.pointerFirst]⟩

lemma referenceFirst_permuted : referenceFirst.Permuted referenceLast :=
  .cons Document.referenceFirst_permuted (.cons ⟨rfl, rfl, .inl rfl⟩ .nil)

lemma anchorFirst_permuted : anchorFirst.Permuted pointerFirst :=
  .cons Document.anchorFirst_permuted .nil

/-- No member of that corpus is unrecognized and none is an anchor, and it refers to whole documents
alone. -/
lemma referenceFirst_tidy : referenceFirst.Tidy none := by
  have hevaluated : (referenceFirst.documents.mapM Document.decode).toOption.any (fun docs =>
      decide ((∀ e ∈ (Registry.registerAll {} docs).documents, ∀ l ∈ e.2.nodes, ∀ f ∈ l.facets,
          (Keyword.facet f).term?.isSome = true) ∧
        (∀ e ∈ (Registry.registerAll {} docs).documents, ∀ m ∈ e.2.nodes, m.anchors = []) ∧
        ∀ e ∈ (Registry.registerAll {} docs).documents, ∀ q ∈ e.2.targets e.1,
          q.fragment = none)) = true := by
    decide +kernel
  obtain ⟨docs, hdocs, hevaluated⟩ := exists_of_any_toOption hevaluated
  obtain ⟨hfacets, hanchors, hfragments⟩ := of_decide_eq_true hevaluated
  intro docs' hdocs'
  obtain rfl : docs = docs' := Except.ok.inj (hdocs.symm.trans hdocs')
  obtain ⟨hfresh, hsource⟩ := Registry.anchors_source_registerAll {} docs
  exact ⟨(Registry.anchorless_of_documents hsource hfacets hanchors).tidyAnchors,
    Registry.unambiguous_of_documents hsource hfresh hfacets hfragments⟩

/-- That corpus resolves in either order. -/
theorem resolves_iff_of_permuted_referenceFirst :
    referenceFirst.Tidy none ∧ referenceFirst.Permuted referenceLast ∧
      referenceFirst.Resolves {} ∧ referenceLast.Resolves {} := by
  have hevaluated : ((referenceFirst.resolve 3).run.run (.ofRegistry {})).1.toOption.any
      (fun _ => true) = true := by
    decide +kernel
  obtain ⟨docs, hdocs, -⟩ := exists_of_any_toOption hevaluated
  have hresolves : referenceFirst.Resolves {} := ⟨3, docs, _, Prod.ext hdocs rfl⟩
  exact ⟨referenceFirst_tidy, referenceFirst_permuted, hresolves,
    (resolves_iff_of_permuted referenceFirst_tidy referenceFirst_permuted).1 hresolves⟩

/-- **Where an anchor is inside an unrecognized member, the order of members decides.**  With the
reference by pointer first the corpus resolves; with the reference by anchor first it does not,
whatever the limit. -/
theorem order_decides : anchorFirst.Permuted pointerFirst ∧ pointerFirst.Resolves {} ∧
    ¬ anchorFirst.Resolves {} := by
  refine ⟨anchorFirst_permuted, ?_, ?_⟩
  · have hevaluated : ((pointerFirst.resolve 3).run.run (.ofRegistry {})).1.toOption.any
        (fun _ => true) = true := by
      decide +kernel
    obtain ⟨docs, hdocs, -⟩ := exists_of_any_toOption hevaluated
    exact ⟨3, docs, _, Prod.ext hdocs rfl⟩
  · have hevaluated : (anchorFirst.documents.mapM Document.decode).toOption.any (fun docs =>
        isMissing (outcome (Resolution.document 3 (.inMemory "a"))
          (.ofRegistry (Registry.registerAll {} docs))).1) = true := by
      decide +kernel
    obtain ⟨docs, hdocs, hevaluated⟩ := exists_of_any_toOption hevaluated
    obtain ⟨place, hmissing⟩ := isMissing_iff.1 hevaluated
    rintro ⟨limit, resolved, s, hrun⟩
    obtain ⟨docs', hdocs', hrun⟩ := run_resolve_eq_ok.1 hrun
    obtain rfl : docs = docs' := Except.ok.inj (hdocs.symm.trans hdocs')
    obtain ⟨m, s₁, rest, hm, -⟩ := Run.resolveEach_cons_eq_ok.1 hrun
    have hm : outcome (Resolution.document limit (.inMemory "a"))
        (.ofRegistry (Registry.registerAll {} docs)) = (.ok m, s₁) := hm
    -- Neither of the two runs was given up, so they would have one outcome.
    have heq : outcome (Resolution.document 3 (.inMemory "a"))
          (.ofRegistry (Registry.registerAll {} docs)) =
        outcome (Resolution.document limit (.inMemory "a"))
          (.ofRegistry (Registry.registerAll {} docs)) := by
      refine document_eq_of_not_tooDeep (fun e he => ?_) fun e he => ?_
      · rw [hm] at he
        cases he
      · rintro ⟨deep, rfl⟩
        rw [hmissing] at he
        cases he
    rw [heq, hm] at hmissing
    cases hmissing

end Corpus

end SchemaCatalog
