import SchemaCatalog.Proofs.Schema.Proper
import SchemaCatalog.Schema.Encode

/-!
# Reading back what is written

The value of a merged node is the value of its folded tree: `Node.Folds n m` says that `m` is `n`
with repeated keywords folded into one at every level.  Reading the value back gives this tree,
but for the keys of entries that go by position: a list does not say them, so that they are the
positions (`Node.positional`).  That is `Node.readsBack_of_encode`, and it holds of every tree
that is proper throughout, decoded or merged.  The same induction shows that what is read back is
written as the same value again.

Each keyword is read back on its own, given that the schemas it holds are; the names and keys
that the value must carry for that are what `Keyword.Proper` says.
-/

namespace SchemaCatalog

/-- Lists related by `R` are related to a third one, if their elements are. -/
lemma exists_forall₂_of_forall₂ {α β γ : Type} {R : α → β → Prop} {S : α → γ → Prop}
    {T : β → γ → Prop} {l : List α} {l' : List β} (h : List.Forall₂ R l l')
    (hR : ∀ a ∈ l, ∀ b, R a b → ∃ c, S a c ∧ T b c) :
    ∃ l'', List.Forall₂ S l l'' ∧ List.Forall₂ T l' l'' := by
  induction h with
  | nil => exact ⟨[], .nil, .nil⟩
  | cons hab _ ih =>
    obtain ⟨ha, hl⟩ := List.forall_mem_cons.1 hR
    obtain ⟨c, hS, hT⟩ := ha _ hab
    obtain ⟨l'', hS', hT'⟩ := ih hl
    exact ⟨c :: l'', .cons hS hS', .cons hT hT'⟩

/-! ## Folded trees -/

/-- The tree `m` is the tree `n` with repeated keywords folded into one, at every level.  The
relation `P` between nested schemas is any that the relation itself contains. -/
inductive Node.Folds : Node → Node → Prop where
  | fold {n : Node} {ks ks' : List Keyword} {P : Node → Node → Prop}
      (sub : ∀ a b, P a b → Node.Folds a b) (folded : n.foldedKeywords = .ok ks)
      (keywords : List.Forall₂ (Keyword.Related P) ks ks') :
      Node.Folds n { truth := n.truth, keywords := ks' }

/-! ## Keys by position -/

/-- Entries under their positions, if they go by position. -/
def KeyedKind.rekey (kind : KeyedKind) (members : List (String × Node)) : List (String × Node) :=
  if kind.isPositional then Decode.indexed (OrderedMap.values members) else members

/-- A keyword with its entries under their positions, if they go by position. -/
def Keyword.rekeyed : Keyword → Keyword
  | .keyed kind members => .keyed kind (kind.rekey members)
  | k => k

namespace Node

mutual

/-- The tree with all entries that go by position under their positions. -/
def positional : Node → Node
  | ⟨identity, truth, base, keywords⟩ => ⟨identity, truth, base, keywordsPositional keywords⟩

/-- Keywords with all entries that go by position under their positions. -/
def keywordsPositional : List Keyword → List Keyword
  | [] => []
  | k :: ks => keywordPositional k :: keywordsPositional ks

/-- A keyword with all entries that go by position under their positions. -/
def keywordPositional : Keyword → Keyword
  | .keyed kind members => .keyed kind (kind.rekey (membersPositional members))
  | .ordered kind schemas => .ordered kind (schemasPositional schemas)
  | .additionalProperties schema => .additionalProperties schema.positional
  | .ref target => .ref target
  | .facet a => .facet a

/-- Named schemas with all entries inside that go by position under their positions. -/
def membersPositional : List (String × Node) → List (String × Node)
  | [] => []
  | (name, n) :: members => (name, n.positional) :: membersPositional members

/-- Schemas with all entries inside that go by position under their positions. -/
def schemasPositional : List Node → List Node
  | [] => []
  | n :: schemas => n.positional :: schemasPositional schemas

end

lemma membersPositional_eq (members : List (String × Node)) :
    membersPositional members = members.map fun e => (e.1, e.2.positional) := by
  induction members with
  | nil => rfl
  | cons e members ih => simp [membersPositional, ih]

lemma schemasPositional_eq (schemas : List Node) :
    schemasPositional schemas = schemas.map positional := by
  induction schemas with
  | nil => rfl
  | cons n schemas ih => simp [schemasPositional, ih]

lemma keywordPositional_eq (k : Keyword) :
    keywordPositional k = (k.map positional).rekeyed := by
  cases k <;> simp [keywordPositional, Keyword.map, Keyword.rekeyed, membersPositional_eq,
    schemasPositional_eq]

/-- Entries are put under their positions in each keyword, once they are inside the schemas it
holds. -/
theorem positional_eq (n : Node) : n.positional =
    { n with keywords := n.keywords.map fun k => (k.map positional).rekeyed } := by
  obtain ⟨identity, truth, base, keywords⟩ := n
  suffices h : keywordsPositional keywords = keywords.map fun k => (k.map positional).rekeyed by
    rw [positional, h]
  induction keywords with
  | nil => rfl
  | cons k ks ih => simp [keywordsPositional, keywordPositional_eq, ih]

end Node

@[simp] lemma Keyword.name_rekeyed (k : Keyword) : k.rekeyed.name = k.name := by
  cases k <;> rfl

/-- Entries under their positions are the same schemas. -/
@[simp] lemma Keyword.nested_rekeyed (k : Keyword) : k.rekeyed.nested = k.nested := by
  cases k with
  | keyed kind members =>
    rw [rekeyed, KeyedKind.rekey]
    split
    · exact Decode.values_indexed _
    · rfl
  | _ => rfl

/-! ## What is written -/

lemma named_eq_ok_iff {ε κ α : Type} {x : Except ε α} {name : κ} {m : κ × α} :
    (fun a => (name, a)) <$> x = .ok m ↔ name = m.1 ∧ x = .ok m.2 := by
  rw [map_eq_ok_iff]
  constructor
  · rintro ⟨a, ha, rfl⟩
    exact ⟨rfl, ha⟩
  · rintro ⟨hname, ha⟩
    exact ⟨m.2, ha, Prod.ext hname rfl⟩

lemma encodeMembersWith_eq_ok_iff {encode : Node → Except EncodeError Json}
    {members : List (String × Node)} {ms : List (String × Json)} :
    encodeMembersWith encode members = .ok ms ↔
      List.Forall₂ (fun e m => e.1 = m.1 ∧ encode e.2 = .ok m.2) members ms := by
  simp only [encodeMembersWith, mapM_eq_ok_iff, named_eq_ok_iff]

/-- A schema is written as its truth value, or as one member for each folded keyword. -/
lemma Node.encode_eq_ok_iff {n : Node} {v : Json} : n.encode = .ok v ↔
    (∃ b, n.truth = some b ∧ v = .bool b) ∨
      n.truth = none ∧ ∃ ks members, n.foldedKeywords = .ok ks ∧
        List.Forall₂ (fun k m => k.name = m.1 ∧ k.encode = .ok m.2) ks members ∧
        v = .object members := by
  rw [encode_eq_encodeWith, encodeWith]
  cases n.truth with
  | some b => simp [eq_comm]
  | none =>
    simp only [reduceCtorEq, false_and, exists_false, false_or, true_and, bind_eq_ok_iff,
      pure_eq_ok_iff, Keyword.membersWith, mapM_eq_ok_iff, named_eq_ok_iff]
    constructor
    · rintro ⟨ks, hks, members, hmembers, rfl⟩
      exact ⟨ks, members, hks, hmembers, rfl⟩
    · rintro ⟨ks, members, hks, hmembers, rfl⟩
      exact ⟨ks, hks, members, hmembers, rfl⟩

namespace Keyword

lemma encode_members_eq_ok_iff {kind : KeyedKind} (layout : kind.layout = .members)
    {members : List (String × Node)} {v : Json} : (keyed kind members).encode = .ok v ↔
      ∃ ms, List.Forall₂ (fun e m => e.1 = m.1 ∧ e.2.encode = .ok m.2) members ms ∧
        .object ms = v := by
  simp only [encode, encodeWith, map_eq_ok_iff, encodeMembersWith_eq_ok_iff, KeyedKind.encode,
    layout]

/-- Schemas that are listed are written one by one, and their keys are left out. -/
lemma encode_listed_eq_ok_iff {kind : KeyedKind} (layout : kind.layout ≠ .members)
    {members : List (String × Node)} {v : Json} : (keyed kind members).encode = .ok v ↔
      ∃ vs, List.Forall₂ (fun n w => n.encode = .ok w) (OrderedMap.values members) vs ∧
        .array vs = v := by
  have hencode (ms : List (String × Json)) : kind.encode ms = .array (OrderedMap.values ms) := by
    unfold KeyedKind.encode
    split
    · exact absurd ‹_› layout
    · rfl
  simp only [encode, encodeWith, map_eq_ok_iff, encodeMembersWith_eq_ok_iff, hencode]
  constructor
  · rintro ⟨ms, hms, rfl⟩
    refine ⟨OrderedMap.values ms, ?_, rfl⟩
    rw [OrderedMap.values, OrderedMap.values, List.forall₂_map_left_iff,
      List.forall₂_map_right_iff]
    exact hms.imp fun _ _ h => h.2
  · rintro ⟨vs, hvs, rfl⟩
    rw [OrderedMap.values, List.forall₂_map_left_iff] at hvs
    obtain ⟨ms, hms, hvalues⟩ : ∃ ms : List (String × Json),
        List.Forall₂ (fun e m => e.1 = m.1 ∧ e.2.encode = .ok m.2) members ms ∧
          List.Forall₂ (fun w m => w = m.2) vs ms :=
      exists_forall₂_of_forall₂ hvs fun e _ w hw => ⟨(e.1, w), ⟨rfl, hw⟩, rfl⟩
    rw [← List.forall₂_map_right_iff, List.forall₂_eq_eq_eq] at hvalues
    exact ⟨ms, hms, by rw [hvalues]; rfl⟩

lemma encode_ordered_eq_ok_iff {kind : OrderedKind} {schemas : List Node} {v : Json} :
    (ordered kind schemas).encode = .ok v ↔
      ∃ vs, List.Forall₂ (fun n w => n.encode = .ok w) schemas vs ∧ kind.encode vs = v := by
  simp only [encode, encodeWith, map_eq_ok_iff, mapM_eq_ok_iff]

end Keyword

/-! ## Facets -/

/-- The name of a kind of token is in lower case, and no other kind has it. -/
lemma AccessTokenType.ofName?_name (t : AccessTokenType) : ofName? t.name = some t := by
  cases t <;> decide +kernel

namespace Decode

lemma strings_array (keyword : String) (texts : List String) :
    strings keyword (.array (texts.map .string)) = .ok texts := by
  simp only [strings, mapM_eq_ok_iff, List.forall₂_map_left_iff]
  exact List.forall₂_same.2 fun _ _ => rfl

lemma enumNames_array {names : List String} (h : names.Nodup) :
    enumNames (.array (names.map .string)) = .ok names := by
  simp only [enumNames, strings_array, bind_eq_ok_iff, Except.ok.injEq, exists_eq_left']
  rw [firstRepeated_of_nodup h fun _ _ => List.not_mem_nil]

lemma accessTokens_array (types : List AccessTokenType) :
    accessTokens (.array (types.map fun t => .string t.name)) = .ok types := by
  have hnames : types.map (fun t => Json.string t.name) = (types.map (·.name)).map .string := by
    rw [List.map_map]
    rfl
  rw [accessTokens, hnames, strings_array]
  simp only [bind_eq_ok_iff, mapM_eq_ok_iff, Except.ok.injEq, exists_eq_left',
    List.forall₂_map_left_iff]
  refine List.forall₂_same.2 fun t _ => ?_
  rw [accessToken, AccessTokenType.ofName?_name]

lemma count_whole (keyword : String) {n : Nat} (h : Number.fitsUnsigned n = true) :
    count keyword (.number (.whole n)) = .ok n := by
  have hcount : (Number.whole n).count? = some n := by
    rw [Number.count?, if_pos h, Int.toNat_natCast]
  rw [count, hcount]

lemma code_whole (keyword : String) {n : Int} (h : Number.fitsSigned n = true) :
    code keyword (.number (.whole n)) = .ok n := by
  have hcode : (Number.whole n).code? = some n := by
    rw [Number.code?, if_pos h]
  rw [code, hcode]

end Decode

open Decode in
theorem Facet.Proper.decode_encode {a : Facet} (h : a.Proper) :
    Keyword.decode a.name a.encode = .ok (.facet a) := by
  apply Keyword.decode_of_reads
  cases a with
  | type names =>
    refine .plain (t := .type) (map_eq_ok_iff.2 ⟨names, ?_, rfl⟩)
    rcases names with _ | ⟨name, _ | ⟨second, names⟩⟩
    · rfl
    · rfl
    · exact strings_array "type" (name :: second :: names)
  | required r =>
    refine .plain (t := .required) (map_eq_ok_iff.2 ⟨r, ?_, rfl⟩)
    cases r with
    | flag b => rfl
    | properties names => exact map_eq_ok_iff.2 ⟨names, strings_array "required" names, rfl⟩
  | enum values => exact .plain (t := .enum) rfl
  | enumNames names =>
    exact .plain (t := .enumNames) (map_eq_ok_iff.2 ⟨names, enumNames_array h, rfl⟩)
  | count kind n =>
    exact .plain (t := .count kind) (map_eq_ok_iff.2 ⟨n, count_whole _ h, rfl⟩)
  | limit kind n => exact .plain (t := .limit kind) rfl
  | label kind text => exact .plain (t := .label kind) rfl
  | default v => exact .plain (t := .default) rfl
  | code kind n => exact .plain (t := .code kind) (map_eq_ok_iff.2 ⟨n, code_whole _ h, rfl⟩)
  | flag kind b => exact .plain (t := .flag kind) rfl
  | accessTokens types =>
    exact .plain (t := .accessTokens) (map_eq_ok_iff.2 ⟨types, accessTokens_array types, rfl⟩)
  | unrecognized name v => exact .unrecognized h.1

/-! ## Reading back -/

/-- The value is read as the tree, with entries under their positions, and is what that is
written as. -/
structure Node.ReadsBack (m : Node) (v : Json) : Prop where
  decode : Node.decode v = .ok m.positional
  encode : m.positional.encode = .ok v

/-- The value is read as the keyword, with entries under their positions, and is what that is
written as. -/
structure Keyword.ReadsBack (k : Keyword) (v : Json) : Prop where
  decode : Keyword.decode k.name v = .ok (k.map Node.positional).rekeyed
  encode : (k.map Node.positional).rekeyed.encode = .ok v

lemma Keyword.eq_unrecognized_of_name {k : Keyword} (h : k.name = "name") :
    ∃ v, k = .facet (.unrecognized "name" v) := by
  cases hterm : k.term? with
  | some t =>
    have hname := Term.ofName?_name t
    rw [← name_eq_of_term? hterm, h] at hname
    exact absurd hname (by simp [show Term.ofName? "name" = none by decide])
  | none =>
    rcases k with _ | _ | _ | _ | a
    case facet =>
      cases a with
      | unrecognized s v => exact ⟨v, by rw [show s = "name" from h]⟩
      | _ => cases hterm
    all_goals cases hterm

/-- The name that a schema carries is written into its value. -/
lemma Node.name_of_listedName? {n : Node} {s : String} {v : Json} (h : n.listedName? = some s)
    (hv : n.encode = .ok v) : (v.member? "name" >>= Json.string?) = some s := by
  unfold listedName? at h
  split at h
  case h_2 => cases h
  case h_1 name t htruth hfirst =>
    obtain rfl := Option.some.inj h
    obtain ⟨b, hb, -⟩ | ⟨-, ks, members, hks, hmembers, rfl⟩ := encode_eq_ok_iff.1 hv
    · rw [htruth] at hb
      cases hb
    have hkept : ∀ j ∈ n.keywords, j.name = "name" → ∀ k : Keyword, k.name = "name" →
        j.absorbWith same k = .ok j := by
      intro j _ hj k hk
      obtain ⟨v, rfl⟩ := Keyword.eq_unrecognized_of_name hj
      obtain ⟨w, rfl⟩ := Keyword.eq_unrecognized_of_name hk
      rfl
    rw [← Keyword.find?_foldWith hkept hks] at hfirst
    suffices hget : OrderedMap.get? members "name" = some (.string t) by
      rw [Json.member?, hget]
      rfl
    clear hks hv
    induction hmembers with
    | nil => cases hfirst
    | @cons k m ks members hk _ ih =>
      rw [List.find?_cons] at hfirst
      rw [OrderedMap.get?, ← hk.1]
      split at hfirst
      case h_1 hname =>
        obtain rfl := Option.some.inj hfirst
        rw [if_pos (by simpa using hname)]
        exact congrArg some (Except.ok.inj hk.2).symm
      case h_2 hname =>
        rw [if_neg (by simpa using hname)]
        exact ih hfirst

namespace Keyword

/-- Schemas of a list are read back in whichever of its shapes the list is written. -/
lemma decode_ordered {kind : OrderedKind} {vs : List Json} {ns : List Node}
    (h : List.Forall₂ (fun w n => Node.decode w = .ok n) vs ns) :
    decode kind.name (kind.encode vs) = .ok (.ordered kind ns) := by
  apply decode_of_reads
  have listed : Reads kind.name (.array vs) (.ordered kind ns) :=
    .ordered (Node.decodeItems_eq_ok_iff.2 h)
  cases kind with
  | items =>
    match vs, ns, h with
    | [], _, .nil => exact .noItems
    | [w], _, .cons hw .nil => exact .loneItem hw
    | _ :: _ :: _, _, h => exact listed
  | _ => exact listed

section Entries

variable {kind : KeyedKind} {members : List (String × Node)} {vs : List Json}

/-- Entries that do not go by position keep their keys. -/
lemma rekeyed_of_layout_ne_indexed (layout : kind.layout ≠ .indexed) :
    ((keyed kind members).map Node.positional).rekeyed =
      keyed kind (members.map fun e => (e.1, e.2.positional)) := by
  rw [Ne, KeyedKind.layout_eq_indexed_iff] at layout
  simp only [Keyword.map, rekeyed, KeyedKind.rekey, if_neg layout]

lemma readsBack_members (layout : kind.layout = .members) {ms : List (String × Json)}
    (h : List.Forall₂ (fun m e => m.1 = e.1 ∧ e.2.ReadsBack m.2) ms members) :
    (keyed kind members).ReadsBack (.object ms) := by
  constructor <;> rw [rekeyed_of_layout_ne_indexed (by simp [layout])]
  · refine decode_of_reads (.members (by simp [layout]) (Node.decodeMembers_eq_ok_iff.2 ?_))
    rw [List.forall₂_map_right_iff]
    exact h.imp fun m e h => ⟨h.1, h.2.decode⟩
  · refine (encode_members_eq_ok_iff layout).2 ⟨ms, ?_, rfl⟩
    rw [List.forall₂_map_left_iff]
    exact h.flip.imp fun e m h => ⟨h.1.symm, h.2.encode⟩

lemma readsBack_indexed (layout : kind.layout = .indexed)
    (h : List.Forall₂ (fun w e => e.2.ReadsBack w) vs members) :
    (keyed kind members).ReadsBack (.array vs) := by
  have hkeyword : ((keyed kind members).map Node.positional).rekeyed =
      keyed kind (Decode.indexed (members.map fun e => e.2.positional)) := by
    simp only [Keyword.map, rekeyed, KeyedKind.rekey, KeyedKind.layout_eq_indexed_iff.1 layout,
      if_true, OrderedMap.values, List.map_map, Function.comp_def]
  constructor <;> rw [hkeyword]
  · refine decode_of_reads (.indexed layout (Node.decodeItems_eq_ok_iff.2 ?_))
    rw [List.forall₂_map_right_iff]
    exact h.imp fun w e h => h.decode
  · refine (encode_listed_eq_ok_iff (by simp [layout])).2 ⟨vs, ?_, rfl⟩
    rw [Decode.values_indexed, List.forall₂_map_left_iff]
    exact h.flip.imp fun e w h => h.encode

lemma readsBack_named (layout : kind.layout = .named) (nodup : (OrderedMap.keys members).Nodup)
    (h : List.Forall₂ (fun w e => (w.member? "name" >>= Json.string?) = some e.1 ∧
      e.2.ReadsBack w) vs members) : (keyed kind members).ReadsBack (.array vs) := by
  have hkeys : OrderedMap.keys (members.map fun e => (e.1, e.2.positional)) =
      OrderedMap.keys members := by
    simp only [OrderedMap.keys, List.map_map, Function.comp_def]
  constructor <;> rw [rekeyed_of_layout_ne_indexed (by simp [layout])]
  · refine decode_of_reads (.named layout (Node.decodeNamed_eq_ok_iff.2 ⟨?_, ?_, ?_⟩))
    · rw [List.forall₂_map_right_iff]
      exact h.imp fun w e h => ⟨h.1, h.2.decode⟩
    · rw [hkeys]
      exact nodup
    · exact fun _ _ => List.not_mem_nil
  · refine (encode_listed_eq_ok_iff (by simp [layout])).2 ⟨vs, ?_, rfl⟩
    rw [OrderedMap.values, List.forall₂_map_left_iff, List.forall₂_map_left_iff]
    exact h.flip.imp fun e w h => h.2.encode

/-- A proper keyword of keyed schemas is read back if these are. -/
lemma readsBack_keyed {v : Json} (hk : (keyed kind members).Proper)
    (hv : (keyed kind members).encode = .ok v)
    (ih : ∀ e ∈ members, ∀ w, e.2.encode = .ok w → ∃ m, e.2.Folds m ∧ m.ReadsBack w) :
    ∃ members', List.Forall₂ (fun e e' => e.1 = e'.1 ∧ e.2.Folds e'.2) members members' ∧
      (keyed kind members').ReadsBack v := by
  cases hlayout : kind.layout with
  | members =>
    obtain ⟨ms, hms, rfl⟩ := (encode_members_eq_ok_iff hlayout).1 hv
    obtain ⟨members', hfolds, hback⟩ : ∃ members' : List (String × Node),
        List.Forall₂ (fun e e' => e.1 = e'.1 ∧ e.2.Folds e'.2) members members' ∧
          List.Forall₂ (fun m e' => m.1 = e'.1 ∧ e'.2.ReadsBack m.2) ms members' := by
      refine exists_forall₂_of_forall₂ hms fun e he m hm => ?_
      obtain ⟨n, hfolds, hback⟩ := ih e he m.2 hm.2
      exact ⟨(e.1, n), ⟨rfl, hfolds⟩, hm.1.symm, hback⟩
    exact ⟨members', hfolds, readsBack_members hlayout hback⟩
  | indexed =>
    obtain ⟨vs, hvs, rfl⟩ := (encode_listed_eq_ok_iff (by simp [hlayout])).1 hv
    rw [OrderedMap.values, List.forall₂_map_left_iff] at hvs
    obtain ⟨members', hfolds, hback⟩ : ∃ members' : List (String × Node),
        List.Forall₂ (fun e e' => e.1 = e'.1 ∧ e.2.Folds e'.2) members members' ∧
          List.Forall₂ (fun w e' => e'.2.ReadsBack w) vs members' := by
      refine exists_forall₂_of_forall₂ hvs fun e he w hw => ?_
      obtain ⟨n, hfolds, hback⟩ := ih e he w hw
      exact ⟨(e.1, n), ⟨rfl, hfolds⟩, hback⟩
    exact ⟨members', hfolds, readsBack_indexed hlayout hback⟩
  | named =>
    obtain ⟨vs, hvs, rfl⟩ := (encode_listed_eq_ok_iff (by simp [hlayout])).1 hv
    rw [OrderedMap.values, List.forall₂_map_left_iff] at hvs
    obtain ⟨members', hfolds, hback⟩ : ∃ members' : List (String × Node),
        List.Forall₂ (fun e e' => e.1 = e'.1 ∧ e.2.Folds e'.2) members members' ∧
          List.Forall₂ (fun w e' => (w.member? "name" >>= Json.string?) = some e'.1 ∧
            e'.2.ReadsBack w) vs members' := by
      refine exists_forall₂_of_forall₂ hvs fun e he w hw => ?_
      obtain ⟨n, hfolds, hback⟩ := ih e he w hw
      exact ⟨(e.1, n), ⟨rfl, hfolds⟩, Node.name_of_listedName? (hk.2 hlayout e he) hw, hback⟩
    have hkeys : OrderedMap.keys members' = OrderedMap.keys members :=
      OrderedMap.keys_eq_of_forall₂ hfolds fun _ _ h => h.1
    have hnodup : (OrderedMap.keys members).Nodup := by
      refine hk.1 ?_
      rw [← Bool.not_eq_true, ← KeyedKind.layout_eq_indexed_iff, hlayout]
      exact KeyedKind.Layout.noConfusion
    exact ⟨members', hfolds, readsBack_named hlayout (hkeys ▸ hnodup) hback⟩

end Entries

/-- A proper keyword is read back from its value if the schemas it holds are. -/
theorem readsBack_of_encode {k : Keyword} {v : Json} (hk : k.Proper) (hv : k.encode = .ok v)
    (ih : ∀ c ∈ k.nested, ∀ w, c.encode = .ok w → ∃ m, c.Folds m ∧ m.ReadsBack w) :
    ∃ k', Related Node.Folds k k' ∧ k'.ReadsBack v := by
  cases k with
  | keyed kind members =>
    obtain ⟨members', hfolds, hback⟩ :=
      readsBack_keyed hk hv fun e he => ih e.2 (List.mem_map_of_mem he)
    exact ⟨.keyed kind members', .keyed hfolds, hback⟩
  | ordered kind schemas =>
    obtain ⟨vs, hvs, rfl⟩ := encode_ordered_eq_ok_iff.1 hv
    obtain ⟨schemas', hfolds, hback⟩ := exists_forall₂_of_forall₂ hvs ih
    refine ⟨.ordered kind schemas', .ordered hfolds, ?_, ?_⟩
    · refine decode_ordered ?_
      rw [List.forall₂_map_right_iff]
      exact hback.imp fun _ _ h => h.decode
    · refine encode_ordered_eq_ok_iff.2 ⟨vs, ?_, rfl⟩
      rw [List.forall₂_map_left_iff]
      exact hback.flip.imp fun _ _ h => h.encode
  | additionalProperties schema =>
    obtain ⟨m, hfolds, hback⟩ := ih schema (List.mem_singleton_self schema) v hv
    exact ⟨.additionalProperties m, .additionalProperties hfolds,
      decode_of_reads (.additionalProperties hback.decode), hback.encode⟩
  | ref target =>
    cases hv
    exact ⟨.ref target, .ref, decode_of_reads (.plain (t := .ref) rfl), rfl⟩
  | facet a =>
    cases hv
    exact ⟨.facet a, .facet, Facet.Proper.decode_encode hk, rfl⟩

end Keyword

namespace Node

/-- **What is written is read back.**  The value of a tree that is proper throughout is read as
its folded tree, with entries under their positions, and is what that is written as. -/
theorem readsBack_of_encode {n : Node} {v : Json} (hn : n.Throughout (Carries Keyword.Proper))
    (hv : n.encode = .ok v) : ∃ m, n.Folds m ∧ m.ReadsBack v := by
  induction n using induction_nested generalizing v with
  | step n ih =>
    obtain ⟨b, htruth, rfl⟩ | ⟨htruth, ks, members, hks, hmembers, rfl⟩ := encode_eq_ok_iff.1 hv
    · have hkeywords : n.keywords = [] := hn.self.truth (by simp [htruth])
      have hfolds : n.Folds { truth := some b } := by
        rw [← htruth]
        refine .fold (P := fun _ _ => False) (fun _ _ h => h.elim) ?_ .nil
        rw [foldedKeywords, hkeywords]
        rfl
      exact ⟨_, hfolds, rfl, encode_eq_ok_iff.2 (.inl ⟨b, rfl, rfl⟩)⟩
    have hproper : ∀ k ∈ ks, k.Proper := Keyword.Proper.fold hks hn.self.keywords
    obtain ⟨ks', hrelated, hback⟩ : ∃ ks', List.Forall₂ (Keyword.Related Folds) ks ks' ∧
        List.Forall₂ (fun m k' => k'.name = m.1 ∧ k'.ReadsBack m.2) members ks' := by
      refine exists_forall₂_of_forall₂ hmembers fun k hk m hm => ?_
      obtain ⟨k', hrelated, hback⟩ := Keyword.readsBack_of_encode (hproper k hk) hm.2
        fun c hc w hw => by
          obtain ⟨j, hj, hc⟩ := nested_foldedKeywords hks hk hc
          exact ih j hj c hc (hn.nested hj hc) hw
      exact ⟨k', hrelated, hrelated.name_eq.trans hm.1, hback⟩
    have hread : ({ truth := n.truth, keywords := ks' } : Node).positional =
        .ofKeywords (ks'.map fun k => (k.map positional).rekeyed) := by
      rw [positional_eq, htruth]
      rfl
    refine ⟨{ truth := n.truth, keywords := ks' }, .fold (fun _ _ h => h) hks hrelated, ?_, ?_⟩ <;>
      rw [hread]
    · refine map_eq_ok_iff.2 ⟨_, Keyword.decodeAll_eq_ok_iff.2 ?_, rfl⟩
      rw [List.forall₂_map_right_iff]
      exact hback.imp fun m k' h => h.1 ▸ h.2.decode
    · refine encode_eq_ok_iff.2 (.inr ⟨rfl, _, members, Keyword.foldWith_of_nodup ?_, ?_, rfl⟩)
      · simpa [ofKeywords, Function.comp_def, Keyword.names_of_related hrelated] using
          Keyword.names_foldWith_nodup hks
      · rw [ofKeywords, List.forall₂_map_left_iff]
        exact hback.flip.imp fun k' m h => ⟨by simpa using h.1, h.2.encode⟩

end Node

end SchemaCatalog
