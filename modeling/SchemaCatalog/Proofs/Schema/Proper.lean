import SchemaCatalog.Proofs.OrderedMap
import SchemaCatalog.Proofs.Schema.Folding
import SchemaCatalog.Proofs.Schema.Parts

/-!
# Proper keywords

Not every keyword that the data type has can be written and read back: a listed method must
carry the name it is kept under, a count must fit its width, and a member outside the vocabulary
must not have a name inside it.  `Keyword.Proper` collects what reading ensures
(`Keyword.Reads.proper`) and what folding keeps (`Keyword.Proper.fold`).

A keyword says of the schemas it holds no more than the names they carry, `Node.listedName?`, so
that other schemas with these names may take their places; `Keyword.Lasting` puts this so that it
can be asked of any property.
-/

namespace SchemaCatalog

/-- The name a schema has in a list of named schemas: the text of its first member `name`. -/
def Node.listedName? (n : Node) : Option String :=
  match n.truth, n.keywords.find? (·.name = "name") with
  | none, some (.facet (.unrecognized _ (.string s))) => some s
  | _, _ => none

/-- A property of keywords that asks nothing of nested schemas but the names they carry. -/
def Keyword.Lasting (K : Keyword → Prop) : Prop :=
  ∀ (R : Node → Node → Prop),
    (∀ a b, R a b → ∀ s, a.listedName? = some s → b.listedName? = some s) →
    ∀ j k, Keyword.Related R j k → K j → K k

/-- What reading ensures of a facet. -/
def Facet.Proper : Facet → Prop
  | .enumNames names => names.Nodup
  | .count _ n => Number.fitsUnsigned n = true
  | .code _ n => Number.fitsSigned n = true
  | .unrecognized name v => Term.ofName? name = none ∧ v.hasDistinctNames = true
  | _ => True

/-- What reading ensures of a keyword: names are distinct unless entries go by position, and
listed schemas carry theirs. -/
def Keyword.Proper : Keyword → Prop
  | .keyed kind members =>
    (kind.isPositional = false → (OrderedMap.keys members).Nodup) ∧
      (kind.layout = .named → ∀ e ∈ members, e.2.listedName? = some e.1)
  | .facet a => a.Proper
  | _ => True

lemma KeyedKind.layout_eq_indexed_iff {kind : KeyedKind} :
    kind.layout = .indexed ↔ kind.isPositional = true := by
  cases kind <;> decide

/-! ## Reading -/

namespace Decode

lemma nodup_of_firstRepeated {seen names : List String} (h : firstRepeated seen names = none) :
    names.Nodup ∧ ∀ s ∈ names, s ∉ seen := by
  induction names generalizing seen with
  | nil => simp
  | cons name names ih =>
    rw [firstRepeated] at h
    split at h
    case isTrue => cases h
    case isFalse hname =>
      obtain ⟨hnodup, hnew⟩ := ih h
      refine ⟨List.nodup_cons.2 ⟨fun hmem => hnew name hmem List.mem_cons_self, hnodup⟩, ?_⟩
      rintro s hs hseen
      rcases List.mem_cons.1 hs with rfl | hs
      · exact hname hseen
      · exact hnew s hs (List.mem_cons_of_mem _ hseen)

lemma firstRepeated_of_nodup {seen names : List String} (h : names.Nodup)
    (hnew : ∀ s ∈ names, s ∉ seen) : firstRepeated seen names = none := by
  induction names generalizing seen with
  | nil => rfl
  | cons name names ih =>
    obtain ⟨hname, hnodup⟩ := List.nodup_cons.1 h
    rw [firstRepeated, if_neg (hnew name List.mem_cons_self)]
    refine ih hnodup fun s hs hseen => ?_
    rcases List.mem_cons.1 hseen with rfl | hseen
    · exact hname hs
    · exact hnew s (List.mem_cons_of_mem _ hs) hseen

lemma count_eq_ok {keyword : String} {v : Json} {n : Nat} (h : count keyword v = .ok n) :
    v = .number (.whole n) ∧ Number.fitsUnsigned n = true := by
  cases v with
  | number x =>
    cases x with
    | whole i =>
      by_cases hfits : Number.fitsUnsigned i
      · simp only [count, Number.count?, hfits, if_true, Except.ok.injEq] at h
        have hi : (n : Int) = i := by
          rw [← h, Int.toNat_of_nonneg]
          simpa [Number.fitsUnsigned] using (Bool.and_eq_true_iff.1 hfits).1
        exact ⟨by rw [hi], by rw [hi]; exact hfits⟩
      · simp [count, Number.count?, hfits, reject] at h
    | float x => cases h
  | _ => cases h

lemma code_eq_ok {keyword : String} {v : Json} {n : Int} (h : code keyword v = .ok n) :
    v = .number (.whole n) ∧ Number.fitsSigned n = true := by
  cases v with
  | number x =>
    cases x with
    | whole i =>
      by_cases hfits : Number.fitsSigned i
      · simp only [code, Number.code?, hfits, if_true, Except.ok.injEq] at h
        exact ⟨by rw [h], h ▸ hfits⟩
      · simp [code, Number.code?, hfits, reject] at h
    | float x => cases h
  | _ => cases h

lemma proper_of_plain {t : Term} {v : Json} {k : Keyword} (h : plain t v = .ok k) : k.Proper := by
  cases t with
  | keyed kind => cases h
  | ordered kind => cases h
  | additionalProperties => cases h
  | default => exact Except.ok.inj h ▸ trivial
  | enumNames =>
    obtain ⟨names, hnames, rfl⟩ := map_eq_ok_iff.1 h
    simp only [enumNames, bind_eq_ok_iff] at hnames
    obtain ⟨names', -, hnames⟩ := hnames
    split at hnames
    case h_1 => cases hnames
    case h_2 hdistinct =>
      obtain rfl := Except.ok.inj hnames
      exact (nodup_of_firstRepeated hdistinct).1
  | count kind =>
    obtain ⟨n, hn, rfl⟩ := map_eq_ok_iff.1 h
    exact (count_eq_ok hn).2
  | code kind =>
    obtain ⟨n, hn, rfl⟩ := map_eq_ok_iff.1 h
    exact (code_eq_ok hn).2
  | _ =>
    obtain ⟨a, -, rfl⟩ := map_eq_ok_iff.1 h
    trivial

end Decode

lemma Facet.Proper.absorb {a : Facet} (h : a.Proper) (b : Facet) :
    (a.absorb b).Proper := by
  cases a with
  | type names => cases b <;> trivial
  | required r => rcases r with _ | _ <;> rcases b with _ | ⟨_ | _⟩ | _ <;> trivial
  | _ => cases b <;> exact h

namespace Keyword

/-- The first keyword of a name is read from the member of that name. -/
lemma find?_of_reads {members : List (String × Json)} {ks : List Keyword} {s : String} {w : Json}
    (h : List.Forall₂ (fun m k => Reads m.1 m.2 k) members ks)
    (hw : OrderedMap.get? members s = some w) :
    ∃ k, ks.find? (·.name = s) = some k ∧ Reads s w k := by
  induction h with
  | nil => cases hw
  | @cons m k members ks hread _ ih =>
    rw [List.find?_cons, hread.name_eq]
    rw [OrderedMap.get?] at hw
    split at hw
    case isTrue hname =>
      obtain rfl := Option.some.inj hw
      refine ⟨k, ?_, hname ▸ hread⟩
      simp [hname]
    case isFalse hname =>
      simpa [hname] using ih hw

/-- A schema that is read from a value with a text under `name` carries that name. -/
lemma listedName?_of_decode {v : Json} {n : Node} {s : String}
    (hname : (v.member? "name" >>= Json.string?) = some s) (h : Node.decode v = .ok n) :
    n.listedName? = some s := by
  obtain ⟨w, hw, hs⟩ := Option.bind_eq_some_iff.1 hname
  obtain ⟨b, rfl, rfl⟩ | ⟨members, ks, rfl, rfl, hks⟩ := Node.decode_cases h
  · cases hw
  obtain ⟨k, hk, hread⟩ := find?_of_reads hks hw
  have hkept := decode_of_reads hread
  have hunknown : Term.ofName? "name" = none := by decide
  cases w with
  | string t =>
    obtain rfl : t = s := Option.some.inj hs
    simp only [decode, hunknown, Except.ok.injEq] at hkept
    subst hkept
    simp only [Node.listedName?, Node.ofKeywords, hk]
  | _ => cases hs

theorem Reads.proper {name : String} {v : Json} {k : Keyword} (hv : v.hasDistinctNames = true)
    (h : Reads name v k) : k.Proper := by
  cases h with
  | unrecognized unknown => exact ⟨unknown, hv⟩
  | @members kind members ns layout schemas =>
    have hkeys : OrderedMap.keys ns = OrderedMap.keys members :=
      OrderedMap.keys_eq_of_forall₂ (Node.decodeMembers_eq_ok_iff.1 schemas) fun _ _ h => h.1
    refine ⟨fun _ => ?_, fun hnamed => absurd hnamed layout⟩
    rw [hkeys]
    exact (Json.hasDistinctNames_object.1 hv).1
  | indexed layout _ =>
    refine ⟨fun hpositional => ?_, fun hnamed => ?_⟩
    · rw [KeyedKind.layout_eq_indexed_iff.1 layout] at hpositional
      cases hpositional
    · rw [layout] at hnamed
      cases hnamed
  | named layout schemas =>
    obtain ⟨hrel, hnodup, -⟩ := Node.decodeNamed_eq_ok_iff.1 schemas
    refine ⟨fun _ => hnodup, fun _ e he => ?_⟩
    obtain ⟨u, -, hname, hdecode⟩ := exists_rel_of_mem hrel.flip he
    exact listedName?_of_decode hname hdecode
  | plain h => exact Decode.proper_of_plain h
  | _ => trivial

/-- Properness asks of nested schemas only the names they carry. -/
theorem lasting_proper : Lasting Proper := by
  intro R hR j k hrel hj
  cases hrel with
  | @keyed kind members members' h =>
    have hkeys : OrderedMap.keys members' = OrderedMap.keys members :=
      OrderedMap.keys_eq_of_forall₂ h fun _ _ h => h.1
    refine ⟨fun hpositional => hkeys ▸ hj.1 hpositional, fun hnamed e he => ?_⟩
    obtain ⟨e', he', hname, hrel⟩ := exists_rel_of_mem h.flip he
    rw [← hname]
    exact hR _ _ hrel _ (hj.2 hnamed e' he')
  | facet => exact hj
  | _ => trivial

/-! ## Keywords of one term -/

/-- A keyword has the name of a term exactly if it is a keyword of the term, unless it is a member
that is kept as it is. -/
lemma name_eq_iff {k : Keyword}
    (hk : ∀ name v, k = .facet (.unrecognized name v) → Term.ofName? name = none) {t : Term} :
    k.name = t.name ↔ k.term? = some t := by
  refine ⟨fun h => ?_, name_eq_of_term?⟩
  cases hterm : k.term? with
  | some u =>
    have hname := Term.ofName?_name u
    rw [← name_eq_of_term? hterm, h, Term.ofName?_name] at hname
    exact hname.symm
  | none =>
    cases k with
    | facet a =>
      cases a with
      | unrecognized name v =>
        have hunknown := hk name v rfl
        rw [show name = t.name from h, Term.ofName?_name] at hunknown
        cases hunknown
      | _ => cases hterm
    | _ => cases hterm

lemma Proper.name_eq_iff {k : Keyword} (hk : k.Proper) {t : Term} :
    k.name = t.name ↔ k.term? = some t :=
  Keyword.name_eq_iff (by rintro name v rfl; exact hk.1)

lemma eq_keyed_of_term? {k : Keyword} {kind : KeyedKind} (h : k.term? = some (.keyed kind)) :
    ∃ members, k = .keyed kind members := by
  cases k with
  | facet a => cases a <;> simp_all [term?]
  | _ => simp_all [term?]

lemma eq_ordered_of_term? {k : Keyword} {kind : OrderedKind}
    (h : k.term? = some (.ordered kind)) : ∃ schemas, k = .ordered kind schemas := by
  cases k with
  | facet a => cases a <;> simp_all [term?]
  | _ => simp_all [term?]

lemma eq_type_of_term? {k : Keyword} (h : k.term? = some .type) :
    ∃ names, k = .facet (.type names) := by
  cases k with
  | facet a => cases a <;> simp_all [term?]
  | _ => simp_all [term?]

lemma eq_required_of_term? {k : Keyword} (h : k.term? = some .required) :
    ∃ r, k = .facet (.required r) := by
  cases k with
  | facet a => cases a <;> simp_all [term?]
  | _ => simp_all [term?]

/-! ## Folding -/

section Folding

variable {eq : Node → Node → Bool}

/-- What is united has the entries of both sides, and distinct names if the first side has. -/
lemma uniteWith_eq_ok {keyword : String} {a b r : List (String × Node)}
    (h : uniteWith eq keyword a b = .ok r) :
    ((OrderedMap.keys a).Nodup → (OrderedMap.keys r).Nodup) ∧ ∀ e ∈ r, e ∈ a ∨ e ∈ b := by
  induction b generalizing a with
  | nil =>
    cases h
    exact ⟨fun ha => ha, fun e he => .inl he⟩
  | cons e b ih =>
    obtain ⟨key, n⟩ := e
    rw [uniteWith] at h
    split at h
    case h_1 m hm =>
      split at h
      case isTrue =>
        obtain ⟨hnodup, hmem⟩ := ih h
        exact ⟨hnodup, fun e he => (hmem e he).imp_right (List.mem_cons_of_mem _)⟩
      case isFalse => cases h
    case h_2 hnone =>
      obtain ⟨hnodup, hmem⟩ := ih h
      have hnew : key ∉ OrderedMap.keys a := OrderedMap.get?_eq_none_iff.1 hnone
      refine ⟨fun ha => hnodup (OrderedMap.nodup_keys_snoc ha n hnew), fun e he => ?_⟩
      rcases hmem e he with he | he
      · rcases List.mem_append.1 he with he | he
        · exact .inl he
        · exact .inr (List.mem_singleton.1 he ▸ List.mem_cons_self)
      · exact .inr (List.mem_cons_of_mem _ he)

lemma Proper.absorb {j k i : Keyword} (hj : j.Proper) (hk : k.Proper)
    (h : j.absorbWith eq k = .ok i) : i.Proper := by
  cases j with
  | keyed kind members =>
    cases k with
    | keyed kind' members' =>
      simp only [absorbWith] at h
      split at h
      case isTrue => exact Except.ok.inj h ▸ hj
      case isFalse hkind =>
        obtain rfl : kind = kind' := not_not.1 hkind
        split at h
        case isTrue hpositional =>
          obtain rfl := Except.ok.inj h
          refine ⟨fun hnot => ?_, fun hnamed => ?_⟩
          · rw [hpositional] at hnot
            cases hnot
          · rw [← KeyedKind.layout_eq_indexed_iff, hnamed] at hpositional
            cases hpositional
        case isFalse =>
          obtain ⟨united, hunited, rfl⟩ := map_eq_ok_iff.1 h
          obtain ⟨hnodup, hmem⟩ := uniteWith_eq_ok hunited
          refine ⟨fun hpositional => hnodup (hj.1 hpositional), fun hnamed e he => ?_⟩
          exact (hmem e he).elim (hj.2 hnamed e) (hk.2 hnamed e)
    | _ => cases h; exact hj
  | facet a =>
    cases k with
    | facet b => exact Except.ok.inj h ▸ Facet.Proper.absorb hj b
    | _ => cases h; exact hj
  | ordered kind schemas => cases k <;> cases h <;> trivial
  | _ => cases k <;> cases h <;> trivial

theorem Proper.fold {ks r : List Keyword} (h : foldWith eq ks = .ok r)
    (hks : ∀ k ∈ ks, k.Proper) : ∀ k ∈ r, k.Proper :=
  foldWith_forall (fun _ _ _ hj hk _ hi => hj.absorb hk hi) h hks

end Folding

end Keyword

namespace Node

theorem proper_of_decode {v : Json} {n : Node} (hv : v.hasDistinctNames = true)
    (h : decode v = .ok n) : n.Throughout (Carries Keyword.Proper) :=
  decode_throughout (fun _ _ hv hu => hu.hasDistinctNames hv)
    (fun _ hv m hm _ hread => hread.proper ((Json.hasDistinctNames_object.1 hv).2 m hm)) hv h

end Node

end SchemaCatalog
