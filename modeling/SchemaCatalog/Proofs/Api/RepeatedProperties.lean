import SchemaCatalog.Proofs.Api.Shapes

/-!
# Properties that keywords repeat

The properties of one keyword have distinct names, so a schema shows two of one name only if two of
its keywords are `properties`, or two are `patternProperties`, and both hold a schema that is not
empty under that name (`Node.Clashes`).  Projection fails exactly if that is so somewhere in what is
projected, and its error lists all names that clash in one place (`Node.shape_error_iff_clashes`).
-/

namespace SchemaCatalog

/-- Where no list has an element twice, it comes twice in all of them if and only if two of them
have it. -/
lemma two_le_count_flatMap_iff {α β : Type} [DecidableEq β] {f : α → List β} {l : List α} {b : β}
    (once : ∀ a ∈ l, (f a).Nodup) :
    2 ≤ (l.flatMap f).count b ↔ ∃ a a', [a, a'].Sublist l ∧ b ∈ f a ∧ b ∈ f a' := by
  induction l with
  | nil => simp
  | cons x l ih =>
    obtain ⟨hx, hl⟩ := List.forall_mem_cons.1 once
    have hpairs : (∃ a a', [a, a'].Sublist (x :: l) ∧ b ∈ f a ∧ b ∈ f a') ↔
        (b ∈ f x ∧ b ∈ l.flatMap f) ∨ ∃ a a', [a, a'].Sublist l ∧ b ∈ f a ∧ b ∈ f a' := by
      simp only [List.cons_sublist_cons', List.singleton_sublist, List.mem_flatMap]
      grind
    have hcount := List.nodup_iff_count_le_one.1 hx b
    rw [hpairs, ← ih hl, List.flatMap_cons, List.count_append, ← List.one_le_count_iff,
      ← List.one_le_count_iff]
    omega

namespace Keyword

/-- Whether a keyword has no key twice. -/
def KeysDistinct : Keyword → Prop
  | .keyed _ members => (OrderedMap.keys members).Nodup
  | _ => True

instance (k : Keyword) : Decidable k.KeysDistinct :=
  match k with
  | .keyed _ members => inferInstanceAs (Decidable (OrderedMap.keys members).Nodup)
  | .ordered .. | .additionalProperties _ | .ref _ | .facet _ => inferInstanceAs (Decidable True)

/-- Whether a keyword of a kind holds a schema that is not empty under a key. -/
def HoldsProperty (kind : KeyedKind) (key : String) (k : Keyword) : Prop :=
  ∃ members c, k = .keyed kind members ∧ (key, c) ∈ members ∧ c.isEmpty = false

/-- The keys under which a keyword of a kind holds schemas that are not empty. -/
def shownKeys (kind : KeyedKind) (k : Keyword) : List String :=
  OrderedMap.keys ((k.entriesOf kind).filter fun e => !e.2.isEmpty)

lemma mem_shownKeys {kind : KeyedKind} {key : String} {k : Keyword} :
    key ∈ k.shownKeys kind ↔ k.HoldsProperty kind key := by
  simp only [shownKeys, OrderedMap.keys, List.mem_map, List.mem_filter, Bool.not_eq_true']
  constructor
  · rintro ⟨⟨_, c⟩, ⟨he, hc⟩, rfl⟩
    cases k with
    | keyed kind' members =>
      rw [entriesOf] at he
      split at he
      case isTrue hkind => exact ⟨members, c, hkind ▸ rfl, he, hc⟩
      case isFalse => exact absurd he List.not_mem_nil
    | _ => exact absurd he List.not_mem_nil
  · rintro ⟨members, c, rfl, he, hc⟩
    exact ⟨(key, c), ⟨by rwa [entriesOf, if_pos rfl], hc⟩, rfl⟩

lemma KeysDistinct.nodup_keys_entriesOf {k : Keyword} (h : k.KeysDistinct) (kind : KeyedKind) :
    (OrderedMap.keys (k.entriesOf kind)).Nodup := by
  cases k with
  | keyed kind' members =>
    rw [entriesOf]
    split
    · exact h
    · exact List.nodup_nil
  | _ => exact List.nodup_nil

lemma KeysDistinct.nodup_shownKeys {k : Keyword} (h : k.KeysDistinct) (kind : KeyedKind) :
    (k.shownKeys kind).Nodup :=
  .sublist (List.filter_sublist.map Prod.fst) (h.nodup_keys_entriesOf kind)

end Keyword

namespace Node

variable {n : Node}

/-- Whether two keywords of a kind hold schemas that are not empty under one key. -/
def Clashes (n : Node) (kind : KeyedKind) (key : String) : Prop :=
  ∃ j k, [j, k].Sublist n.keywords ∧ j.HoldsProperty kind key ∧ k.HoldsProperty kind key

/-- The names that come again are those that clash. -/
lemma mem_repeatedNames_iff_clashes (distinct : ∀ k ∈ n.keywords, k.KeysDistinct)
    {kind : KeyedKind} {key : String} :
    key ∈ repeatedNames (OrderedMap.keys (n.shownEntries kind)) ↔ n.Clashes kind key := by
  have hkeys : OrderedMap.keys (n.shownEntries kind) =
      n.keywords.flatMap (Keyword.shownKeys kind) := by
    rw [shownEntries, entries_eq, OrderedMap.keys, List.filter_flatMap, List.map_flatMap]
    rfl
  have hnodup : ∀ k ∈ n.keywords, (k.shownKeys kind).Nodup :=
    fun k hk => (distinct k hk).nodup_shownKeys kind
  rw [mem_repeatedNames, hkeys, two_le_count_flatMap_iff hnodup]
  simp only [Keyword.mem_shownKeys, Clashes]

lemma repeatsProperty_iff_clashes (distinct : ∀ k ∈ n.keywords, k.KeysDistinct) :
    n.RepeatsProperty ↔
      ∃ kind, (kind = .properties ∨ kind = .patternProperties) ∧ ∃ key, n.Clashes kind key := by
  simp only [RepeatsProperty, ← repeatedNames_eq_nil, ← mem_repeatedNames_iff_clashes distinct,
    List.eq_nil_iff_forall_not_mem, not_forall, not_not]

/-- **Projection fails exactly where keywords repeat properties.**  A schema has no shape if and
only if in one that it projects two keywords hold properties under one key, or two hold pattern
properties, and both are not empty.  The error lists each key once under which that is so for the
properties, or for the pattern properties, of one such schema. -/
theorem shape_error_iff_clashes (distinct : ∀ c ∈ n.nodes, ∀ k ∈ c.keywords, k.KeysDistinct)
    (name : Option String) :
    ((∃ e, n.shape name = .error e) ↔ ∃ c, n.Projects c ∧
      ∃ kind, (kind = .properties ∨ kind = .patternProperties) ∧ ∃ key, c.Clashes kind key) ∧
    ∀ e, n.shape name = .error e → ∃ names, e = .duplicateProperty names ∧ names.Nodup ∧
      ∃ c, n.Projects c ∧ ∃ kind, (kind = .properties ∨ kind = .patternProperties) ∧
        (∃ key, c.Clashes kind key) ∧ ∀ key, key ∈ names ↔ c.Clashes kind key := by
  have hdistinct (c : Node) (hc : n.Projects c) : ∀ k ∈ c.keywords, k.KeysDistinct :=
    distinct c hc.mem_nodes
  constructor
  · have hfails : (∃ e, n.shape name = .error e) ↔ ¬ ∃ o, n.shape name = .ok o := by
      cases n.shape name <;> simp
    rw [hfails, exists_shape_iff]
    simp only [not_forall, not_not, exists_prop]
    refine exists_congr fun c => and_congr_right fun hc => ?_
    rw [repeatsProperty_iff_clashes (hdistinct c hc)]
  · intro e he
    obtain ⟨c, hc, kind, hkind, hnames, rfl⟩ := exists_fault_of_error he
    have hmem (key : String) : key ∈ repeatedNames (OrderedMap.keys (c.shownEntries kind)) ↔
        c.Clashes kind key := mem_repeatedNames_iff_clashes (hdistinct c hc)
    refine ⟨_, rfl, nodup_repeatedNames _, c, hc, kind, hkind, ?_, hmem⟩
    obtain ⟨key, hkey⟩ := List.exists_mem_of_ne_nil _ hnames
    exact ⟨key, (hmem key).1 hkey⟩

/-- A list of schemas of which two `properties` name an identifier and a remark.  The first remark
is empty. -/
def twiceIdentified : Node :=
  .ofKeywords [.ordered .items [.ofKeywords [
    .keyed .properties [("id", .ofKeywords [.facet (.type ["string"])]), ("remark", .ofKeywords [])],
    .keyed .properties [("remark", .ofKeywords [.facet (.type ["string"])]),
      ("id", .ofKeywords [.facet (.type ["integer"])])]]]]

/-- The identifiers clash, the remarks do not. -/
theorem shape_error_iff_clashes_twiceIdentified :
    twiceIdentified.shape none = .error (.duplicateProperty ["id"]) ∧
      ∃ c, twiceIdentified.Projects c ∧ ∃ kind, ∀ key, c.Clashes kind key ↔ key = "id" := by
  have herror : twiceIdentified.shape none = .error (.duplicateProperty ["id"]) := rfl
  obtain ⟨-, hlists⟩ := shape_error_iff_clashes (n := twiceIdentified) (by decide +kernel) none
  obtain ⟨names, hnames, -, c, hc, kind, -, -, hclashes⟩ := hlists _ herror
  obtain rfl := ProjectError.duplicateProperty.inj hnames
  refine ⟨herror, c, hc, kind, fun key => ?_⟩
  rw [← hclashes, List.mem_singleton]

end Node

end SchemaCatalog
