import SchemaCatalog.Proofs.Json.DistinctNames
import SchemaCatalog.Proofs.Schema.Nested
import SchemaCatalog.Schema.Decode

/-!
# What decoding accepts

`Keyword.Reads name v k` lists the ways to read the member `name` of a schema with the value `v`
as the keyword `k`: one way for each layout of a keyword that holds schemas, one for the facets
and references, and one for members outside the vocabulary.  It is the decoder read as a relation
(`reads_of_decode`, `decode_of_reads`), and each way says of nested schemas only that they are
decoded from parts of the value.  The functions on lists are given as relations between the
elements.

A proof about a decoded schema is an induction over the schema, `Node.induction_nested`, in which
the keywords are taken apart by `Keyword.Reads`.
-/

namespace SchemaCatalog

/-! ## Results that are no errors -/

section Except

variable {α β ε : Type}

lemma bind_eq_ok_iff {x : Except ε α} {f : α → Except ε β} {b : β} :
    (x >>= f) = .ok b ↔ ∃ a, x = .ok a ∧ f a = .ok b := by
  cases x <;> simp [bind, Except.bind]

lemma exists_bind_eq_ok {x : Except ε α} {f : α → Except ε β} (hx : ∃ a, x = .ok a)
    (hf : ∀ a, ∃ b, f a = .ok b) : ∃ b, (x >>= f) = .ok b := by
  obtain ⟨a, ha⟩ := hx
  obtain ⟨b, hb⟩ := hf a
  exact ⟨b, bind_eq_ok_iff.2 ⟨a, ha, hb⟩⟩

lemma bind_eq_error_iff {x : Except ε α} {f : α → Except ε β} {e : ε} :
    (x >>= f) = .error e ↔ x = .error e ∨ ∃ a, x = .ok a ∧ f a = .error e := by
  cases x <;> simp [bind, Except.bind]

lemma map_eq_error_iff {x : Except ε α} {f : α → β} {e : ε} :
    f <$> x = .error e ↔ x = .error e := by
  cases x <;> simp [Functor.map, Except.map]

lemma map_eq_ok_iff {x : Except ε α} {f : α → β} {b : β} :
    f <$> x = .ok b ↔ ∃ a, x = .ok a ∧ f a = b := by
  cases x <;> simp [Functor.map, Except.map]

lemma exists_map_eq_ok_iff {x : Except ε α} {f : α → β} :
    (∃ b, f <$> x = .ok b) ↔ ∃ a, x = .ok a := by
  cases x <;> simp [Functor.map, Except.map]

lemma pure_eq_ok_iff {a b : α} : (pure a : Except ε α) = .ok b ↔ a = b := by
  simp [pure, Except.pure]

lemma exists_eq_ok_of_isOk {x : Except ε α} (h : x.isOk = true) : ∃ a, x = .ok a := by
  cases x with
  | error e => cases h
  | ok a => exact ⟨a, rfl⟩

lemma toOption_eq_some {x : Except ε α} {a : α} : x.toOption = some a ↔ x = .ok a := by
  constructor
  · intro h
    cases x with
    | error e => cases h
    | ok b => exact congrArg Except.ok (Option.some.inj h)
  · rintro rfl
    rfl

lemma exists_of_any_toOption {x : Except ε α} {p : α → Bool} (h : x.toOption.any p = true) :
    ∃ a, x = .ok a ∧ p a = true := by
  cases x with
  | error e => cases h
  | ok a => exact ⟨a, rfl, h⟩

lemma mapM_eq_ok_iff {f : α → Except ε β} {l : List α} {l' : List β} :
    l.mapM f = .ok l' ↔ List.Forall₂ (fun a b => f a = .ok b) l l' := by
  induction l generalizing l' with
  | nil => rw [List.mapM_nil, pure_eq_ok_iff, List.forall₂_nil_left_iff, eq_comm]
  | cons a l ih =>
    simp only [List.mapM_cons, bind_eq_ok_iff, pure_eq_ok_iff, ih, List.forall₂_cons_left_iff]
    constructor
    · rintro ⟨b, hb, bs, hbs, rfl⟩
      exact ⟨b, bs, hb, hbs, rfl⟩
    · rintro ⟨b, bs, hb, hbs, rfl⟩
      exact ⟨b, hb, bs, hbs, rfl⟩

lemma mapM_eq_error {f : α → Except ε β} {l : List α} {e : ε} (h : l.mapM f = .error e) :
    ∃ a ∈ l, f a = .error e := by
  induction l with
  | nil => cases h
  | cons a l ih =>
    rw [List.mapM_cons] at h
    rcases bind_eq_error_iff.1 h with h | ⟨b, -, h⟩
    · exact ⟨a, List.mem_cons_self, h⟩
    rcases bind_eq_error_iff.1 h with h | ⟨bs, -, h⟩
    · obtain ⟨c, hc, h⟩ := ih h
      exact ⟨c, List.mem_cons_of_mem _ hc, h⟩
    · cases h

/-- A fold fails at a step that does, behind steps that succeed. -/
lemma exists_of_foldlM_eq_error {f : β → α → Except ε β} {l : List α} {b : β} {e : ε}
    (h : l.foldlM f b = .error e) : ∃ before a after b', l = before ++ a :: after ∧
      before.foldlM f b = .ok b' ∧ f b' a = .error e := by
  induction l generalizing b with
  | nil => cases h
  | cons a l ih =>
    rw [List.foldlM_cons] at h
    rcases bind_eq_error_iff.1 h with h | ⟨b', hb', h⟩
    · exact ⟨[], a, l, b, rfl, rfl, h⟩
    · obtain ⟨before, c, after, b'', rfl, hbefore, h⟩ := ih h
      refine ⟨a :: before, c, after, b'', rfl, ?_, h⟩
      rw [List.foldlM_cons, hb']
      exact hbefore

lemma foldlM_eq_error {f : β → α → Except ε β} {l : List α} {b : β} {e : ε}
    (h : l.foldlM f b = .error e) : ∃ a ∈ l, ∃ b', f b' a = .error e := by
  obtain ⟨before, a, after, b', rfl, -, h⟩ := exists_of_foldlM_eq_error h
  exact ⟨a, by simp, b', h⟩

section

variable {f : β → α → Except ε β} {l : List α} {b r : β} {P : β → Prop}

/-- What every step of a fold keeps holds in the end. -/
lemma foldlM_keeps (keeps : ∀ a ∈ l, ∀ b b', P b → f b a = .ok b' → P b') (hb : P b)
    (h : l.foldlM f b = .ok r) : P r := by
  induction l generalizing b with
  | nil =>
    obtain rfl := Except.ok.inj h
    exact hb
  | cons a l ih =>
    rw [List.foldlM_cons] at h
    obtain ⟨b', hb', h⟩ := bind_eq_ok_iff.1 h
    have hfirst : P b' := keeps a List.mem_cons_self b b' hb hb'
    exact ih (fun c hc => keeps c (List.mem_cons_of_mem _ hc)) hfirst h

/-- What one step of a fold brings about and every step keeps holds in the end. -/
lemma foldlM_gains {a : α} (ha : a ∈ l) (gains : ∀ b b', f b a = .ok b' → P b')
    (keeps : ∀ c ∈ l, ∀ b b', P b → f b c = .ok b' → P b') (h : l.foldlM f b = .ok r) :
    P r := by
  obtain ⟨before, after, rfl⟩ := List.append_of_mem ha
  rw [List.foldlM_append] at h
  obtain ⟨b₁, -, h⟩ := bind_eq_ok_iff.1 h
  rw [List.foldlM_cons] at h
  obtain ⟨b₂, hb₂, h⟩ := bind_eq_ok_iff.1 h
  refine foldlM_keeps (fun c hc => keeps c ?_) (gains b₁ b₂ hb₂) h
  exact List.mem_append_right _ (List.mem_cons_of_mem _ hc)

end

end Except

/-! ## Lists of schemas -/

/-- Related elements of two lists are related by whatever holds between members of the lists. -/
lemma forall₂_imp_of_mem {α β : Type} {R S : α → β → Prop} {l : List α} {l' : List β}
    (h : List.Forall₂ R l l') (hRS : ∀ a ∈ l, ∀ b ∈ l', R a b → S a b) : List.Forall₂ S l l' := by
  induction h with
  | nil => exact .nil
  | cons hab _ ih =>
    refine .cons (hRS _ List.mem_cons_self _ List.mem_cons_self hab) (ih fun a ha b hb => ?_)
    exact hRS a (List.mem_cons_of_mem _ ha) b (List.mem_cons_of_mem _ hb)

lemma OrderedMap.keys_eq_of_forall₂ {κ α β : Type} {R : κ × α → κ × β → Prop}
    {a : OrderedMap κ α} {b : OrderedMap κ β} (h : List.Forall₂ R a b)
    (hR : ∀ e e', R e e' → e.1 = e'.1) : OrderedMap.keys b = OrderedMap.keys a := by
  induction h with
  | nil => rfl
  | cons h _ ih => rw [keys_cons, keys_cons, ih, hR _ _ h]

/-- What is found under a key among entries is related to what is found under it among entries
related to them one by one under equal keys. -/
lemma OrderedMap.exists_get?_of_forall₂ {κ α β : Type} [DecidableEq κ]
    {R : κ × α → κ × β → Prop} {a : OrderedMap κ α} {b : OrderedMap κ β}
    (h : List.Forall₂ R a b) (hR : ∀ e e', R e e' → e.1 = e'.1) {key : κ} {x : α}
    (hx : get? a key = some x) : ∃ y, get? b key = some y ∧ R (key, x) (key, y) := by
  induction h with
  | nil => cases hx
  | @cons e e' a b he _ ih =>
    have hkeys : e.1 = e'.1 := hR e e' he
    rw [get?] at hx ⊢
    by_cases hkey : e.1 = key
    · rw [if_pos hkey] at hx
      rw [if_pos (hkeys ▸ hkey)]
      obtain rfl := Option.some.inj hx
      have hentry : (key, e.2) = e := Prod.ext hkey.symm rfl
      have hentry' : (key, e'.2) = e' := Prod.ext (hkey.symm.trans hkeys) rfl
      exact ⟨e'.2, rfl, by rwa [hentry, hentry']⟩
    · rw [if_neg hkey] at hx
      rw [if_neg (hkeys ▸ hkey)]
      exact ih hx

/-- The keywords of an object are read from its members one by one. -/
lemma Keyword.decodeAll_eq_ok_iff {members : List (String × Json)} {ks : List Keyword} :
    Keyword.decodeAll members = .ok ks ↔
      List.Forall₂ (fun m k => Keyword.decode m.1 m.2 = .ok k) members ks := by
  induction members generalizing ks with
  | nil => simp [Keyword.decodeAll, eq_comm]
  | cons m members ih =>
    simp only [Keyword.decodeAll, bind_eq_ok_iff, pure_eq_ok_iff, ih, List.forall₂_cons_left_iff]
    constructor
    · rintro ⟨k, hk, ks, hks, rfl⟩
      exact ⟨k, ks, hk, hks, rfl⟩
    · rintro ⟨k, ks, hk, hks, rfl⟩
      exact ⟨k, hk, ks, hks, rfl⟩

namespace Node

/-- The schemas under names are decoded one by one and keep their names. -/
lemma decodeMembers_eq_ok_iff {members : List (String × Json)} {ns : List (String × Node)} :
    decodeMembers members = .ok ns ↔
      List.Forall₂ (fun m e => m.1 = e.1 ∧ decode m.2 = .ok e.2) members ns := by
  induction members generalizing ns with
  | nil => simp [decodeMembers, eq_comm]
  | cons m members ih =>
    simp only [decodeMembers, bind_eq_ok_iff, pure_eq_ok_iff, ih, List.forall₂_cons_left_iff]
    constructor
    · rintro ⟨n, hn, ns, hns, rfl⟩
      exact ⟨(m.1, n), ns, ⟨rfl, hn⟩, hns, rfl⟩
    · rintro ⟨⟨name, n⟩, ns, ⟨rfl, hn⟩, hns, rfl⟩
      exact ⟨n, hn, ns, hns, rfl⟩

lemma decodeItems_eq_ok_iff {items : List Json} {ns : List Node} :
    decodeItems items = .ok ns ↔ List.Forall₂ (fun v n => decode v = .ok n) items ns := by
  induction items generalizing ns with
  | nil => simp [decodeItems, eq_comm]
  | cons v items ih =>
    simp only [decodeItems, bind_eq_ok_iff, pure_eq_ok_iff, ih, List.forall₂_cons_left_iff]
    constructor
    · rintro ⟨n, hn, ns, hns, rfl⟩
      exact ⟨n, ns, hn, hns, rfl⟩
    · rintro ⟨n, ns, hn, hns, rfl⟩
      exact ⟨n, hn, ns, hns, rfl⟩

/-- The schemas of a list that carry their names are decoded one by one, and no name comes
twice. -/
lemma decodeNamed_eq_ok_iff {keyword : String} {index : Nat} {seen : List String}
    {items : List Json} {ns : List (String × Node)} :
    decodeNamed keyword index seen items = .ok ns ↔
      List.Forall₂ (fun v e => (v.member? "name" >>= Json.string?) = some e.1 ∧
        decode v = .ok e.2) items ns ∧
      (OrderedMap.keys ns).Nodup ∧ ∀ name ∈ OrderedMap.keys ns, name ∉ seen := by
  induction items generalizing index seen ns with
  | nil =>
    simp only [decodeNamed, Except.ok.injEq, List.forall₂_nil_left_iff]
    constructor
    · rintro rfl
      simp
    · exact fun h => h.1.symm
  | cons v items ih =>
    rw [decodeNamed]
    split
    case h_1 hname =>
      simp only [reduceCtorEq, List.forall₂_cons_left_iff, hname, false_and, exists_false]
    case h_2 name hname =>
      simp only [bind_eq_ok_iff, List.forall₂_cons_left_iff, hname, Option.some.injEq]
      by_cases hseen : name ∈ seen
      · simp only [hseen, if_true, reduceCtorEq, and_false, exists_false, false_iff, not_and]
        rintro ⟨⟨_, n⟩, ns, ⟨rfl, -⟩, -, rfl⟩ - hns
        exact hns name (by simp) hseen
      · simp only [hseen, if_false, bind_eq_ok_iff, pure_eq_ok_iff, ih]
        constructor
        · rintro ⟨n, hn, ns, ⟨hns, hnodup, hnew⟩, rfl⟩
          simp only [OrderedMap.keys_cons, List.nodup_cons, List.mem_cons, List.mem_cons]
          refine ⟨⟨(name, n), ns, ⟨rfl, hn⟩, hns, rfl⟩, ⟨fun hmem => ?_, hnodup⟩, ?_⟩
          · exact hnew name hmem List.mem_cons_self
          · rintro other (rfl | hmem)
            · exact hseen
            · exact fun hin => hnew other hmem (List.mem_cons_of_mem _ hin)
        · rintro ⟨⟨⟨_, n⟩, ns, ⟨rfl, hn⟩, hns, rfl⟩, hnodup, hnew⟩
          simp only [OrderedMap.keys_cons, List.nodup_cons] at hnodup
          refine ⟨n, hn, ns, ⟨hns, hnodup.2, fun other hmem hin => ?_⟩, rfl⟩
          rcases List.mem_cons.1 hin with rfl | hin
          · exact hnodup.1 hmem
          · exact hnew other (by simp [hmem]) hin

/-- A schema that is decoded from bytes is decoded from a value without repeated names. -/
lemma ofBytes_eq_ok_iff {bytes : ByteArray} {n : Node} : ofBytes bytes = .ok n ↔
    ∃ v, Json.readBytes? bytes = some v ∧ v.hasDistinctNames = true ∧ decode v = .ok n := by
  unfold ofBytes
  cases hv : Json.readBytes? bytes with
  | none => simp
  | some v => simp [Json.hasDistinctNames_of_readBytes? hv]

end Node

/-! ## Keywords -/

lemma KeyedKind.ofName?_name (kind : KeyedKind) : Term.ofName? kind.name = some (.keyed kind) :=
  Term.ofName?_name (.keyed kind)

lemma OrderedKind.ofName?_name (kind : OrderedKind) :
    Term.ofName? kind.name = some (.ordered kind) := Term.ofName?_name (.ordered kind)

namespace Decode

@[simp] lemma values_indexed (schemas : List Node) :
    OrderedMap.values (indexed schemas) = schemas := by
  simp [indexed, OrderedMap.values, List.map_map, Function.comp_def, List.zipIdx_map_fst]

lemma keys_indexed (schemas : List Node) :
    OrderedMap.keys (indexed schemas) = (List.range schemas.length).map toString := by
  rw [List.range_eq_range', ← List.zipIdx_map_snd 0 schemas, List.map_map]
  simp only [indexed, OrderedMap.keys, List.map_map, Function.comp_def]

end Decode

namespace Keyword

/-- The ways to read a member of a schema as a keyword. -/
inductive Reads : String → Json → Keyword → Prop where
  /-- A member outside the vocabulary is kept. -/
  | unrecognized {name : String} {v : Json} (unknown : Term.ofName? name = none) :
      Reads name v (.facet (.unrecognized name v))
  /-- Schemas under the names of an object. -/
  | members {kind : KeyedKind} {members : List (String × Json)} {ns : List (String × Node)}
      (layout : kind.layout ≠ .named) (schemas : Node.decodeMembers members = .ok ns) :
      Reads kind.name (.object members) (.keyed kind ns)
  /-- Schemas that go by position. -/
  | indexed {kind : KeyedKind} {items : List Json} {ns : List Node}
      (layout : kind.layout = .indexed) (schemas : Node.decodeItems items = .ok ns) :
      Reads kind.name (.array items) (.keyed kind (Decode.indexed ns))
  /-- Schemas that carry their names. -/
  | named {kind : KeyedKind} {items : List Json} {ns : List (String × Node)}
      (layout : kind.layout = .named)
      (schemas : Node.decodeNamed kind.name 0 [] items = .ok ns) :
      Reads kind.name (.array items) (.keyed kind ns)
  /-- Schemas of a list. -/
  | ordered {kind : OrderedKind} {items : List Json} {ns : List Node}
      (schemas : Node.decodeItems items = .ok ns) :
      Reads kind.name (.array items) (.ordered kind ns)
  /-- No schema at all. -/
  | noItems : Reads OrderedKind.items.name .null (.ordered .items [])
  /-- The schema of all items. -/
  | loneItem {v : Json} {n : Node} (schema : Node.decode v = .ok n) :
      Reads OrderedKind.items.name v (.ordered .items [n])
  /-- The schema of the properties that are not named. -/
  | additionalProperties {v : Json} {n : Node} (schema : Node.decode v = .ok n) :
      Reads Term.additionalProperties.name v (.additionalProperties n)
  /-- A facet or a reference. -/
  | plain {t : Term} {v : Json} {k : Keyword} (h : Decode.plain t v = .ok k) : Reads t.name v k

lemma decode_of_reads {name : String} {v : Json} {k : Keyword} (h : Reads name v k) :
    decode name v = .ok k := by
  cases h with
  | unrecognized unknown => cases v <;> simp [decode, unknown]
  | @members kind members ns layout schemas =>
    have hname := kind.ofName?_name
    simp only [decode, hname, schemas]
    rfl
  | @indexed kind items ns layout schemas =>
    have hname := kind.ofName?_name
    simp only [decode, hname, layout, schemas]
    rfl
  | @named kind items ns layout schemas =>
    have hname := kind.ofName?_name
    simp only [decode, hname, layout, schemas]
    rfl
  | @ordered kind items ns schemas =>
    have hname := kind.ofName?_name
    simp only [decode, hname, schemas]
    rfl
  | noItems =>
    have hname := OrderedKind.items.ofName?_name
    simp only [decode, hname]
  | @loneItem v n schema =>
    have hname := OrderedKind.items.ofName?_name
    cases v with
    | bool b =>
      simp only [Node.decode, Except.ok.injEq] at schema
      simp only [decode, hname, schema]
    | object members =>
      obtain ⟨ks, hks, rfl⟩ := map_eq_ok_iff.1 schema
      simp only [decode, hname, hks]
      rfl
    | _ => cases schema
  | @additionalProperties v n schema =>
    have hname := Term.ofName?_name .additionalProperties
    cases v with
    | bool b =>
      simp only [Node.decode, Except.ok.injEq] at schema
      simp only [decode, hname, schema]
    | object members =>
      obtain ⟨ks, hks, rfl⟩ := map_eq_ok_iff.1 schema
      simp only [decode, hname, hks]
      rfl
    | _ => cases schema
  | @plain t v k h =>
    have hname := Term.ofName?_name t
    cases t with
    | keyed kind => cases h
    | ordered kind => cases h
    | additionalProperties => cases h
    | _ => cases v <;> simpa only [decode, hname] using h

lemma reads_of_decode {name : String} {v : Json} {k : Keyword} (h : decode name v = .ok k) :
    Reads name v k := by
  cases hname : Term.ofName? name with
  | none =>
    have hk : .facet (.unrecognized name v) = k := by
      cases v <;> simpa [decode, hname] using h
    exact hk ▸ .unrecognized hname
  | some t =>
    obtain rfl := Term.name_of_ofName? hname
    cases t with
    | keyed kind =>
      cases v with
      | object members =>
        simp only [decode, hname] at h
        split at h
        · cases h
        · obtain ⟨ns, hns, rfl⟩ := map_eq_ok_iff.1 h
          exact .members ‹_› hns
      | array items =>
        simp only [decode, hname] at h
        split at h
        · cases h
        · obtain ⟨ns, hns, rfl⟩ := map_eq_ok_iff.1 h
          exact .indexed ‹_› hns
        · obtain ⟨ns, hns, rfl⟩ := map_eq_ok_iff.1 h
          exact .named ‹_› hns
      | _ => simp [decode, hname, Decode.plain, Decode.reject] at h
    | ordered kind =>
      cases v with
      | array items =>
        simp only [decode, hname] at h
        obtain ⟨ns, hns, rfl⟩ := map_eq_ok_iff.1 h
        exact .ordered hns
      | object members =>
        cases kind with
        | items =>
          simp only [decode, hname] at h
          obtain ⟨ks, hks, rfl⟩ := map_eq_ok_iff.1 h
          exact .loneItem (by simp only [Node.decode, hks]; rfl)
        | _ => simp [decode, hname, Decode.plain, Decode.reject] at h
      | null =>
        cases kind with
        | items =>
          simp only [decode, hname, Except.ok.injEq] at h
          exact h ▸ .noItems
        | _ => simp [decode, hname, Decode.plain, Decode.reject] at h
      | bool b =>
        cases kind with
        | items =>
          simp only [decode, hname, Except.ok.injEq] at h
          exact h ▸ .loneItem rfl
        | _ => simp [decode, hname, Decode.plain, Decode.reject] at h
      | _ => cases kind <;> simp [decode, hname, Decode.plain, Decode.reject] at h
    | additionalProperties =>
      cases v with
      | object members =>
        simp only [decode, hname] at h
        obtain ⟨ks, hks, rfl⟩ := map_eq_ok_iff.1 h
        exact .additionalProperties (by simp only [Node.decode, hks]; rfl)
      | bool b =>
        simp only [decode, hname, Except.ok.injEq] at h
        exact h ▸ .additionalProperties rfl
      | _ => simp [decode, hname, Decode.plain, Decode.schemaShape, Decode.reject] at h
    | _ => exact .plain (by cases v <;> simpa only [decode, hname] using h)

end Keyword

end SchemaCatalog
