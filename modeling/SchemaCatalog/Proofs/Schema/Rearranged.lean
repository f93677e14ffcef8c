import SchemaCatalog.Proofs.Json.Permuted
import SchemaCatalog.Proofs.Schema.Canonical
import SchemaCatalog.Proofs.Schema.Comparable

/-!
# Schemas with their members in another order

Values that differ in the order of members are decoded to schemas that differ in the order of
keywords and of named schemas, `Node.Rearranged`, or to none both (`Node.exists_decode_of_permuted`).
No name comes twice in either of two such schemas, and so the order shows in few places.  A path
leads to a rearranged schema (`Rearranged.at?`), inside unrecognized members too; both trees have
the same references and anchors, though not in one order (`Rearranged.exists_mem_nodes`,
`Rearranged.nodes_anchors_perm`).  What may differ is which of several nodes with one anchor comes first.
-/

namespace SchemaCatalog

/-- Facets that differ in the order of members in their values at most. -/
inductive Facet.Rearranged : Facet → Facet → Prop where
  | unrecognized {name : String} {v v' : Json} (distinct : v.hasDistinctNames = true)
      (permuted : v.Permuted v') : Rearranged (.unrecognized name v) (.unrecognized name v')
  | enum {values values' : List Json} (permuted : List.Forall₂ Json.Permuted values values') :
      Rearranged (.enum values) (.enum values')
  | default {v v' : Json} (permuted : v.Permuted v') : Rearranged (.default v) (.default v')
  | same {a : Facet} (known : ∀ name v, a ≠ .unrecognized name v) : Rearranged a a

/-- Keywords with named schemas in another order, where the schemas themselves are related by `R`
and no two have one name. -/
inductive Keyword.Rearranged (R : Node → Node → Prop) : Keyword → Keyword → Prop where
  | keyed {kind : KeyedKind} {members members' : List (String × Node)}
      (distinct : (OrderedMap.keys members).Nodup)
      (matched : Matched (fun e e' => e.1 = e'.1 ∧ R e.2 e'.2) members members') :
      Rearranged R (.keyed kind members) (.keyed kind members')
  | ordered {kind : OrderedKind} {schemas schemas' : List Node}
      (related : List.Forall₂ R schemas schemas') :
      Rearranged R (.ordered kind schemas) (.ordered kind schemas')
  | additionalProperties {schema schema' : Node} (related : R schema schema') :
      Rearranged R (.additionalProperties schema) (.additionalProperties schema')
  | ref {target : String} : Rearranged R (.ref target) (.ref target)
  | facet {a a' : Facet} (rearranged : a.Rearranged a') : Rearranged R (.facet a) (.facet a')

/-- Schemas with keywords and named schemas in another order at every depth, in which no name comes
twice; identities and base addresses aside.  The relation `R` is any that the relation itself
contains. -/
inductive Node.Rearranged : Node → Node → Prop where
  | mk {n n' : Node} {R : Node → Node → Prop} (sub : ∀ c c', R c c' → Rearranged c c')
      (truth : n.truth = n'.truth) (distinct : (n.keywords.map Keyword.name).Nodup)
      (matched : Matched (Keyword.Rearranged R) n.keywords n'.keywords) : Rearranged n n'

lemma Facet.Rearranged.symm {a a' : Facet} (h : a.Rearranged a') : a'.Rearranged a := by
  cases h with
  | unrecognized distinct permuted =>
    exact .unrecognized (permuted.hasDistinctNames distinct) permuted.symm
  | enum permuted => exact .enum (permuted.flip.imp fun _ _ h => h.symm)
  | default permuted => exact .default permuted.symm
  | same known => exact .same known

lemma Facet.Rearranged.name_eq {a a' : Facet} (h : a.Rearranged a') : a.name = a'.name := by
  cases h <;> rfl

/-- The anchor a keyword is. -/
def Keyword.anchor? : Keyword → Option String
  | .facet (.label .anchor name) => some name
  | _ => none

lemma Node.anchors_eq (n : Node) : n.anchors = n.keywords.filterMap Keyword.anchor? := by
  unfold anchors facets
  rw [List.filterMap_filterMap]
  refine List.filterMap_congr fun k _ => ?_
  cases k with
  | facet a =>
    cases a with
    | label kind text => cases kind <;> rfl
    | _ => rfl
  | _ => rfl

namespace Keyword.Rearranged

variable {R S : Node → Node → Prop} {k k' : Keyword}

lemma mono (h : Keyword.Rearranged R k k') (sub : ∀ c c', R c c' → S c c') :
    Keyword.Rearranged S k k' := by
  cases h with
  | keyed distinct matched =>
    exact .keyed distinct (matched.mono fun _ _ h => ⟨h.1, sub _ _ h.2⟩)
  | ordered related => exact .ordered (related.imp sub)
  | additionalProperties related => exact .additionalProperties (sub _ _ related)
  | ref => exact .ref
  | facet rearranged => exact .facet rearranged

lemma flip (h : Keyword.Rearranged R k k') : Keyword.Rearranged (fun c' c => R c c') k' k := by
  cases h with
  | keyed distinct matched =>
    refine .keyed ((OrderedMap.keys_perm_of_matched matched).nodup distinct) ?_
    exact matched.flip.mono fun _ _ h => ⟨h.1.symm, h.2⟩
  | ordered related => exact .ordered related.flip
  | additionalProperties related => exact .additionalProperties related
  | ref => exact .ref
  | facet rearranged => exact .facet rearranged.symm

/-- Schemas in the same places may stand for those of the first keyword. -/
lemma of_related {T : Node → Node → Prop} {j : Keyword} (h : Keyword.Rearranged R k k')
    (hrel : Related T j k) (trans : ∀ b c c', T b c → R c c' → S b c') :
    Keyword.Rearranged S j k' := by
  cases hrel with
  | keyed hmembers =>
    cases h with
    | keyed distinct matched =>
      refine .keyed ?_ (.comp_forall₂ hmembers matched fun e f f' hef hf => ?_)
      · rwa [← OrderedMap.keys_eq_of_forall₂ hmembers fun _ _ h => h.1]
      · exact ⟨hef.1.trans hf.1, trans _ _ _ hef.2 hf.2⟩
  | ordered hschemas =>
    cases h with
    | ordered related =>
      exact .ordered (forall₂_trans hschemas related fun b _ c _ c' _ => trans b c c')
  | additionalProperties hschema =>
    cases h with
    | additionalProperties related => exact .additionalProperties (trans _ _ _ hschema related)
  | ref =>
    cases h
    exact .ref
  | facet =>
    cases h with
    | facet rearranged => exact .facet rearranged

lemma name_eq (h : Keyword.Rearranged R k k') : k.name = k'.name := by
  cases h with
  | facet rearranged => exact rearranged.name_eq
  | _ => rfl

lemma reference?_eq (h : Keyword.Rearranged R k k') : k.reference? = k'.reference? := by
  cases h <;> rfl

lemma anchor?_eq (h : Keyword.Rearranged R k k') : k.anchor? = k'.anchor? := by
  cases h with
  | facet rearranged => cases rearranged <;> rfl
  | _ => rfl

lemma nested (h : Keyword.Rearranged R k k') : Matched R k.nested k'.nested := by
  cases h with
  | keyed _ matched => exact matched.map fun _ _ h => h.2
  | ordered related => exact .of_forall₂ related
  | additionalProperties related => exact .of_forall₂ (.cons related .nil)
  | ref => exact .of_forall₂ .nil
  | facet _ => exact .of_forall₂ .nil

end Keyword.Rearranged

namespace Node

variable {n n' m : Node}

lemma rearranged_iff : n.Rearranged n' ↔ n.truth = n'.truth ∧
    (n.keywords.map Keyword.name).Nodup ∧
      Matched (Keyword.Rearranged Rearranged) n.keywords n'.keywords := by
  constructor
  · rintro ⟨sub, truth, distinct, matched⟩
    exact ⟨truth, distinct, matched.mono fun _ _ h => h.mono sub⟩
  · rintro ⟨truth, distinct, matched⟩
    exact .mk (fun _ _ h => h) truth distinct matched

namespace Rearranged

lemma names_perm (h : n.Rearranged n') :
    (n.keywords.map Keyword.name).Perm (n'.keywords.map Keyword.name) := by
  have hmatched := (rearranged_iff.1 h).2.2
  have hperm := hmatched.filterMap_perm (f := fun k => some k.name) (g := fun k => some k.name)
    fun k k' hk => congrArg some hk.name_eq
  simpa only [List.filterMap_eq_map'] using hperm

lemma symm (h : n.Rearranged n') : n'.Rearranged n := by
  induction h with
  | @mk n n' R sub truth distinct matched ih =>
    refine rearranged_iff.2 ⟨truth.symm, ?_, ?_⟩
    · exact (Rearranged.mk sub truth distinct matched).names_perm.nodup distinct
    · exact matched.flip.mono fun k' k hk => hk.flip.mono fun c' c hc => ih c c' hc

/-- Identities and base addresses do not matter. -/
lemma of_forget (h : n.Rearranged n') (hforget : m.forget = n.forget) : m.Rearranged n' := by
  induction h generalizing m with
  | @mk n n' R sub truth distinct matched ih =>
    have hrelated := related_of_forget hforget
    refine rearranged_iff.2 ⟨?_, ?_, ?_⟩
    · rw [← truth, ← n.truth_forget, ← hforget, m.truth_forget]
    · have hnames : m.keywords.map Keyword.name = n.keywords.map Keyword.name := by
        have := congrArg (List.map Keyword.name) (congrArg Node.keywords hforget)
        simpa only [keywords_forget, List.map_map, Function.comp_def, Keyword.name_map] using this
      rw [hnames]
      exact distinct
    · refine .comp_forall₂ hrelated matched fun j k k' hjk hk => hk.of_related hjk ?_
      exact fun b c c' hbc hc => ih c c' hc hbc

lemma references_perm (h : n.Rearranged n') : n.references.Perm n'.references :=
  (rearranged_iff.1 h).2.2.filterMap_perm fun _ _ hk => hk.reference?_eq

lemma exists_mem_nodes (h : n.Rearranged n') (hm : m ∈ n.nodes) :
    ∃ m' ∈ n'.nodes, m.Rearranged m' := by
  induction h generalizing m with
  | @mk n n' R sub truth distinct matched ih =>
    rcases mem_nodes.1 hm with rfl | ⟨k, hk, c, hc, hm⟩
    · exact ⟨n', n'.self_mem_nodes, .mk sub truth distinct matched⟩
    · obtain ⟨k', hk', hrel⟩ := matched.exists_right hk
      obtain ⟨c', hc', hR⟩ := hrel.nested.exists_right hc
      obtain ⟨m', hm', hrearranged⟩ := ih c c' hR hm
      exact ⟨m', mem_nodes_of_nested hk' hc' hm', hrearranged⟩

lemma anchors_perm (h : n.Rearranged n') : n.anchors.Perm n'.anchors := by
  rw [anchors_eq, anchors_eq]
  exact (rearranged_iff.1 h).2.2.filterMap_perm fun _ _ hk => hk.anchor?_eq

lemma nodes_anchors_perm (h : n.Rearranged n') :
    (n.nodes.flatMap anchors).Perm (n'.nodes.flatMap anchors) := by
  induction h with
  | @mk n n' R sub truth distinct matched ih =>
    have h : n.Rearranged n' := .mk sub truth distinct matched
    rw [nodes_eq n, nodes_eq n', List.flatMap_cons, List.flatMap_cons, List.flatMap_assoc,
      List.flatMap_assoc]
    refine h.anchors_perm.append (matched.flatMap_perm fun k k' hk => ?_)
    rw [List.flatMap_assoc, List.flatMap_assoc]
    exact hk.nested.flatMap_perm ih

end Rearranged

end Node

/-! ## Decoding -/

/-- The items of a list, or the values of the members of an object. -/
def Json.parts : Json → List Json
  | .array items => items
  | .object members => OrderedMap.values members
  | _ => []

/-- Whether the permutations of a value are decoded if the value is, to rearranged schemas. -/
def Json.DecodesAlike (v : Json) : Prop :=
  ∀ v' n, v.Permuted v' → v.hasDistinctNames = true → Node.decode v = .ok n →
    ∃ n', Node.decode v' = .ok n' ∧ n.Rearranged n'

namespace Decode

variable {v v' : Json}

lemma forall₂_indexed {R : Node → Node → Prop} {ns ns' : List Node} (h : List.Forall₂ R ns ns') :
    List.Forall₂ (fun e e' => e.1 = e'.1 ∧ R e.2 e'.2) (indexed ns) (indexed ns') := by
  unfold indexed
  rw [List.forall₂_map_left_iff, List.forall₂_map_right_iff]
  generalize 0 = start
  induction h generalizing start with
  | nil => exact .nil
  | cons hn _ ih =>
    rw [List.zipIdx_cons, List.zipIdx_cons]
    exact .cons ⟨rfl, hn⟩ (ih (start + 1))

/-- Besides defaults and lists of values, facets are read from values in which there is nothing to
permute. -/
lemma eq_of_plain {t : Term} {k : Keyword} (h : plain t v = .ok k) (hv : v.Permuted v')
    (henum : t ≠ .enum) (hdefault : t ≠ .default) : v' = v := by
  have texts {keyword : String} {names : List String} (h : strings keyword v = .ok names) :
      v' = v := by
    obtain rfl := strings_eq_ok h
    exact hv.eq_of_strings
  cases t with
  | keyed kind => cases h
  | ordered kind => cases h
  | additionalProperties => cases h
  | enum => exact absurd rfl henum
  | default => exact absurd rfl hdefault
  | type =>
    obtain ⟨names, hnames, -⟩ := map_eq_ok_iff.1 h
    cases v with
    | string s => cases hv; rfl
    | array items => exact texts hnames
    | _ => cases hnames
  | required =>
    obtain ⟨r, hr, -⟩ := map_eq_ok_iff.1 h
    cases v with
    | bool b => cases hv; rfl
    | array items =>
      obtain ⟨names, hnames, -⟩ := map_eq_ok_iff.1 hr
      exact texts hnames
    | _ => cases hr
  | enumNames =>
    obtain ⟨names, hnames, -⟩ := map_eq_ok_iff.1 h
    obtain ⟨names', hstrings, -⟩ := bind_eq_ok_iff.1 hnames
    exact texts hstrings
  | accessTokens =>
    obtain ⟨types, htypes, -⟩ := map_eq_ok_iff.1 h
    obtain ⟨names, hstrings, -⟩ := bind_eq_ok_iff.1 htypes
    exact texts hstrings
  | ref =>
    obtain ⟨target, htarget, -⟩ := map_eq_ok_iff.1 h
    obtain rfl := string_eq_ok htarget
    cases hv
    rfl
  | label kind =>
    obtain ⟨text, htext, -⟩ := map_eq_ok_iff.1 h
    obtain rfl := string_eq_ok htext
    cases hv
    rfl
  | count kind =>
    obtain ⟨n, hn, -⟩ := map_eq_ok_iff.1 h
    obtain ⟨rfl, -⟩ := count_eq_ok hn
    cases hv
    rfl
  | code kind =>
    obtain ⟨n, hn, -⟩ := map_eq_ok_iff.1 h
    obtain ⟨rfl, -⟩ := code_eq_ok hn
    cases hv
    rfl
  | limit kind =>
    obtain ⟨n, hn, -⟩ := map_eq_ok_iff.1 h
    obtain rfl := number_eq_ok hn
    cases hv
    rfl
  | flag kind =>
    obtain ⟨b, hb, -⟩ := map_eq_ok_iff.1 h
    obtain rfl := bool_eq_ok hb
    cases hv
    rfl

/-- Facets and references are read from permuted values too. -/
lemma exists_plain_of_permuted {R : Node → Node → Prop} {t : Term} {k : Keyword}
    (h : plain t v = .ok k) (hv : v.Permuted v') :
    ∃ k', plain t v' = .ok k' ∧ k.Rearranged R k' := by
  cases t with
  | keyed kind => cases h
  | ordered kind => cases h
  | additionalProperties => cases h
  | default =>
    obtain rfl := Except.ok.inj h
    exact ⟨_, rfl, .facet (.default hv)⟩
  | enum =>
    obtain ⟨values, hvalues, rfl⟩ := map_eq_ok_iff.1 h
    obtain rfl := values_eq_ok hvalues
    obtain ⟨values', rfl, related⟩ := Json.permuted_array_iff.1 hv
    exact ⟨_, rfl, .facet (.enum related)⟩
  | ref =>
    obtain rfl := eq_of_plain h hv (by simp) (by simp)
    obtain ⟨target, -, rfl⟩ := map_eq_ok_iff.1 h
    exact ⟨_, h, .ref⟩
  | _ =>
    obtain rfl := eq_of_plain h hv (by simp) (by simp)
    obtain ⟨a, -, rfl⟩ := map_eq_ok_iff.1 h
    exact ⟨_, h, .facet (.same fun name v ha => by cases ha)⟩

end Decode

namespace Node

/-- Items are decoded along with their permutations. -/
lemma exists_decodeItems_of_permuted {us us' : List Json} {ns : List Node}
    (related : List.Forall₂ Json.Permuted us us') (distinct : ∀ u ∈ us, u.hasDistinctNames = true)
    (alike : ∀ u ∈ us, u.DecodesAlike) (h : decodeItems us = .ok ns) :
    ∃ ns', decodeItems us' = .ok ns' ∧ List.Forall₂ Rearranged ns ns' := by
  obtain ⟨ns', hns', hrearranged⟩ := exists_forall₂ related (decodeItems_eq_ok_iff.1 h)
    fun u hu u' n hpermuted hn => alike u hu u' n hpermuted (distinct u hu) hn
  exact ⟨ns', decodeItems_eq_ok_iff.2 hns', hrearranged⟩

/-- So are members, whose order may differ too. -/
lemma exists_decodeMembers_of_permuted {ms ms' : List (String × Json)} {ns : List (String × Node)}
    (matched : Matched (fun m m' => m.1 = m'.1 ∧ m.2.Permuted m'.2) ms ms')
    (distinct : ∀ m ∈ ms, m.2.hasDistinctNames = true) (alike : ∀ m ∈ ms, m.2.DecodesAlike)
    (h : decodeMembers ms = .ok ns) :
    ∃ ns', decodeMembers ms' = .ok ns' ∧
      Matched (fun e e' => e.1 = e'.1 ∧ e.2.Rearranged e'.2) ns ns' := by
  have turn : ∀ m ∈ ms, ∀ (m' : String × Json) (e : String × Node),
      m.1 = m'.1 ∧ m.2.Permuted m'.2 → m.1 = e.1 ∧ decode m.2 = .ok e.2 →
      ∃ e' : String × Node, (m'.1 = e'.1 ∧ decode m'.2 = .ok e'.2) ∧
        e.1 = e'.1 ∧ e.2.Rearranged e'.2 := by
    rintro m hm m' e ⟨hname, hpermuted⟩ ⟨hkey, hn⟩
    obtain ⟨n', hn', hrearranged⟩ := alike m hm m'.2 e.2 hpermuted (distinct m hm) hn
    exact ⟨(m'.1, n'), ⟨rfl, hn'⟩, hkey.symm.trans hname, hrearranged⟩
  obtain ⟨ns', hns', hmatched⟩ := matched.exists_matched (decodeMembers_eq_ok_iff.1 h) turn
  exact ⟨ns', decodeMembers_eq_ok_iff.2 hns', hmatched⟩

/-- And so are named items: the name of one is no other than that of its permutation. -/
lemma exists_decodeNamed_of_permuted {keyword : String} {us us' : List Json}
    {ns : List (String × Node)} (related : List.Forall₂ Json.Permuted us us')
    (distinct : ∀ u ∈ us, u.hasDistinctNames = true) (alike : ∀ u ∈ us, u.DecodesAlike)
    (h : decodeNamed keyword 0 [] us = .ok ns) :
    ∃ ns', decodeNamed keyword 0 [] us' = .ok ns' ∧
      List.Forall₂ (fun e e' => e.1 = e'.1 ∧ e.2.Rearranged e'.2) ns ns' := by
  obtain ⟨hns, hnodup, -⟩ := decodeNamed_eq_ok_iff.1 h
  have turn : ∀ u ∈ us, ∀ (u' : Json) (e : String × Node), u.Permuted u' →
      (u.member? "name" >>= Json.string?) = some e.1 ∧ decode u = .ok e.2 →
      ∃ e' : String × Node,
        ((u'.member? "name" >>= Json.string?) = some e'.1 ∧ decode u' = .ok e'.2) ∧
          e.1 = e'.1 ∧ e.2.Rearranged e'.2 := by
    rintro u hu u' e hpermuted ⟨hname, hn⟩
    obtain ⟨n', hn', hrearranged⟩ := alike u hu u' e.2 hpermuted (distinct u hu) hn
    obtain ⟨s, hs, hname⟩ := Option.bind_eq_some_iff.1 hname
    obtain ⟨s', hs', hpermuted⟩ := hpermuted.member? (distinct u hu) hs
    refine ⟨(e.1, n'), ⟨Option.bind_eq_some_iff.2 ⟨s', hs', ?_⟩, hn'⟩, rfl, hrearranged⟩
    rw [hpermuted.string?_eq, hname]
  obtain ⟨ns', hns', hrelated⟩ := exists_forall₂ related hns turn
  refine ⟨ns', decodeNamed_eq_ok_iff.2 ⟨hns', ?_, fun _ _ => List.not_mem_nil⟩, hrelated⟩
  rw [OrderedMap.keys_eq_of_forall₂ hrelated fun _ _ h => h.1]
  exact hnodup

end Node

/-- A member whose value is permuted is read as a rearranged keyword. -/
lemma Keyword.Reads.exists_of_permuted {name : String} {v v' : Json} {k : Keyword}
    (h : Reads name v k) (hv : v.Permuted v') (distinct : v.hasDistinctNames = true)
    (self : v.DecodesAlike) (parts : ∀ u ∈ v.parts, u.DecodesAlike) :
    ∃ k', Reads name v' k' ∧ k.Rearranged Node.Rearranged k' := by
  cases h with
  | unrecognized unknown => exact ⟨_, .unrecognized unknown, .facet (.unrecognized distinct hv)⟩
  | @members kind ms ns layout schemas =>
    obtain ⟨ms', rfl, matched⟩ := Json.permuted_object_iff.1 hv
    rw [Json.hasDistinctNames_object] at distinct
    obtain ⟨ns', hns', hmatched⟩ := Node.exists_decodeMembers_of_permuted matched distinct.2
      (fun m hm => parts m.2 (List.mem_map_of_mem hm)) schemas
    refine ⟨_, .members layout hns', .keyed ?_ hmatched⟩
    rw [OrderedMap.keys_eq_of_forall₂ (Node.decodeMembers_eq_ok_iff.1 schemas) fun _ _ h => h.1]
    exact distinct.1
  | @indexed kind us ns layout schemas =>
    obtain ⟨us', rfl, related⟩ := Json.permuted_array_iff.1 hv
    rw [Json.hasDistinctNames_array] at distinct
    obtain ⟨ns', hns', hrearranged⟩ :=
      Node.exists_decodeItems_of_permuted related distinct parts schemas
    refine ⟨_, .indexed layout hns', .keyed (nodup_keys_indexed ns) ?_⟩
    exact .of_forall₂ (Decode.forall₂_indexed hrearranged)
  | @named kind us ns layout schemas =>
    obtain ⟨us', rfl, related⟩ := Json.permuted_array_iff.1 hv
    rw [Json.hasDistinctNames_array] at distinct
    obtain ⟨ns', hns', hrelated⟩ :=
      Node.exists_decodeNamed_of_permuted related distinct parts schemas
    obtain ⟨-, hnodup, -⟩ := Node.decodeNamed_eq_ok_iff.1 schemas
    exact ⟨_, .named layout hns', .keyed hnodup (.of_forall₂ hrelated)⟩
  | ordered schemas =>
    obtain ⟨us', rfl, related⟩ := Json.permuted_array_iff.1 hv
    rw [Json.hasDistinctNames_array] at distinct
    obtain ⟨ns', hns', hrearranged⟩ :=
      Node.exists_decodeItems_of_permuted related distinct parts schemas
    exact ⟨_, .ordered hns', .ordered hrearranged⟩
  | noItems =>
    cases hv
    exact ⟨_, .noItems, .ordered .nil⟩
  | loneItem schema =>
    obtain ⟨n', hn', hrearranged⟩ := self v' _ hv distinct schema
    exact ⟨_, .loneItem hn', .ordered (.cons hrearranged .nil)⟩
  | additionalProperties schema =>
    obtain ⟨n', hn', hrearranged⟩ := self v' _ hv distinct schema
    exact ⟨_, .additionalProperties hn', .additionalProperties hrearranged⟩
  | plain h =>
    obtain ⟨k', hk', hrearranged⟩ := Decode.exists_plain_of_permuted h hv
    exact ⟨k', .plain hk', hrearranged⟩

namespace Node

/-- **The order of members does not decide whether a value is a schema**, and it shows in the order
of keywords and of named schemas alone. -/
theorem exists_decode_of_permuted {v v' : Json} {n : Node} (hv : v.Permuted v')
    (distinct : v.hasDistinctNames = true) (h : decode v = .ok n) :
    ∃ n', decode v' = .ok n' ∧ n.Rearranged n' := by
  suffices hall : v.DecodesAlike ∧ ∀ u ∈ v.parts, u.DecodesAlike from
    hall.1 v' n hv distinct h
  clear hv distinct h
  -- The schemas of a keyword are parts of the value of the member, so these are carried along.
  induction v using Json.induction_nested with
  | array items ih =>
    refine ⟨fun v' n _ _ h => ?_, fun u hu => (ih u hu).1⟩
    cases h
  | object members ih =>
    constructor
    case right =>
      intro u hu
      obtain ⟨m, hm, rfl⟩ := List.mem_map.1 hu
      exact (ih m hm).1
    intro v' n hv distinct h
    obtain ⟨b, hb, -⟩ | ⟨_, ks, hmembers, rfl, hks⟩ := decode_cases h
    · cases hb
    obtain rfl := Json.object.inj hmembers
    obtain ⟨members', rfl, matched⟩ := Json.permuted_object_iff.1 hv
    rw [Json.hasDistinctNames_object] at distinct
    have turn : ∀ m ∈ members, ∀ (m' : String × Json) (k : Keyword),
        m.1 = m'.1 ∧ m.2.Permuted m'.2 → Keyword.Reads m.1 m.2 k →
        ∃ k', Keyword.Reads m'.1 m'.2 k' ∧ k.Rearranged Rearranged k' := by
      rintro m hm m' k ⟨hname, hpermuted⟩ hread
      rw [← hname]
      exact hread.exists_of_permuted hpermuted (distinct.2 m hm) (ih m hm).1 (ih m hm).2
    obtain ⟨ks', hks', hmatched⟩ := matched.exists_matched hks turn
    have hdecode : Keyword.decodeAll members' = .ok ks' :=
      Keyword.decodeAll_eq_ok_iff.2 (hks'.imp fun _ _ => Keyword.decode_of_reads)
    refine ⟨ofKeywords ks', ?_, rearranged_iff.2 ⟨rfl, ?_, hmatched⟩⟩
    · rw [decode, hdecode]
      rfl
    · have hnames : (ofKeywords ks).keywords.map Keyword.name = OrderedMap.keys members :=
        Keyword.names_of_reads hks
      rw [hnames]
      exact distinct.1
  | bool b =>
    refine ⟨fun v' n hv _ h => ?_, fun u hu => absurd hu List.not_mem_nil⟩
    cases hv
    obtain rfl := Except.ok.inj h
    exact ⟨_, rfl, rearranged_iff.2 ⟨rfl, List.nodup_nil, .of_forall₂ .nil⟩⟩
  | _ =>
    refine ⟨fun v' n _ _ h => ?_, fun u hu => absurd hu List.not_mem_nil⟩
    cases h

end Node

end SchemaCatalog
