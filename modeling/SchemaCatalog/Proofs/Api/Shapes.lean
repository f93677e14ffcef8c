import Mathlib.Data.List.Nodup
import Mathlib.Logic.Relation
import SchemaCatalog.Api.Projection
import SchemaCatalog.Proofs.Schema.Decoding

/-!
# What the shape of a schema is made of

The shape of a schema is a frame, which its own keywords fill, with the shapes of the schemas it
shows in their places (`Node.shape_eq`).  It shows the members of its `properties` and
`patternProperties`, the first schema of its first `items`, and the branches of its `allOf` and
`oneOf`, unless they are empty.

The schemas that are shown, those that they show and so on are what is projected,
`Node.Projects`.  Projection fails exactly if two properties, or two pattern properties, of one of
these have one name (`Node.exists_shape_iff`).
-/

namespace SchemaCatalog

open Api Relation

/-! ## What a keyword shows -/

namespace Keyword

/-- The named schemas of a keyword of one kind. -/
def entriesOf (kind : KeyedKind) : Keyword → List (String × Node)
  | .keyed k members => if k = kind then members else []
  | _ => []

/-- The listed schemas of a keyword of one kind. -/
def branchesOf (kind : OrderedKind) : Keyword → List Node
  | .ordered k schemas => if k = kind then schemas else []
  | _ => []

/-- The first schema, if there is one, of an `items` keyword. -/
def itemOf? : Keyword → Option (Option Node)
  | .ordered .items schemas => some schemas.head?
  | _ => none

lemma entriesOf_eq_nil {k : Keyword} {kind : KeyedKind}
    (h : ∀ members, k ≠ .keyed kind members) : k.entriesOf kind = [] := by
  cases k with
  | keyed kind' members =>
    rw [entriesOf, if_neg]
    rintro rfl
    exact h members rfl
  | _ => rfl

end Keyword

namespace Node

variable {n : Node}

lemma entries_eq (n : Node) (kind : KeyedKind) :
    n.entries kind = n.keywords.flatMap (Keyword.entriesOf kind) := by
  rw [entries]
  congr 1

lemma exists_nested_of_mem_entries {kind : KeyedKind} {e : String × Node}
    (h : e ∈ n.entries kind) : ∃ k ∈ n.keywords, e.2 ∈ k.nested := by
  rw [entries_eq] at h
  obtain ⟨k, hk, h⟩ := List.mem_flatMap.1 h
  refine ⟨k, hk, ?_⟩
  cases k with
  | keyed kind' members =>
    rw [Keyword.entriesOf] at h
    split at h
    · exact List.mem_map_of_mem h
    · exact absurd h List.not_mem_nil
  | _ => exact absurd h List.not_mem_nil

/-- The named schemas of one kind that a schema shows. -/
def shownEntries (n : Node) (kind : KeyedKind) : List (String × Node) :=
  (n.entries kind).filter fun e => !e.2.isEmpty

/-- The branches of one kind that a schema shows. -/
def shownBranches (n : Node) (kind : OrderedKind) : List Node :=
  (n.keywords.flatMap (Keyword.branchesOf kind)).filter fun c => !c.isEmpty

/-- The item that a schema shows. -/
def shownItem? (n : Node) : Option Node :=
  (n.keywords.findSome? Keyword.itemOf?).join.filter fun c => !c.isEmpty

/-- Whether the shape of one schema is directly inside the shape of another. -/
def Shows (n c : Node) : Prop :=
  (∃ kind, (kind = .properties ∨ kind = .patternProperties) ∧
    c ∈ OrderedMap.values (n.shownEntries kind)) ∨
  n.shownItem? = some c ∨
  ∃ kind, (kind = .allOf ∨ kind = .oneOf) ∧ c ∈ n.shownBranches kind

/-- Whether one schema is projected where another is: it is the same one or is shown in it. -/
def Projects (n c : Node) : Prop := ReflTransGen Shows n c

/-- Whether two properties that a schema shows, or two pattern properties, have one name. -/
def RepeatsProperty (n : Node) : Prop :=
  ∃ kind, (kind = .properties ∨ kind = .patternProperties) ∧
    ¬ (OrderedMap.keys (n.shownEntries kind)).Nodup

/-- Whether an error lists the names that come again among the properties that a schema shows, or
among its pattern properties. -/
def Fault (n : Node) (e : ProjectError) : Prop :=
  ∃ kind, (kind = .properties ∨ kind = .patternProperties) ∧
    repeatedNames (OrderedMap.keys (n.shownEntries kind)) ≠ [] ∧
    e = .duplicateProperty (repeatedNames (OrderedMap.keys (n.shownEntries kind)))

/-! ## The shapes of what is shown -/

lemma memberShapes_eq (required : List String) (members : List (String × Node)) :
    memberShapes required members = (members.filter fun e => !e.2.isEmpty).mapM fun e =>
      requireNamed required e.1 <$> e.2.shape (some e.1) := by
  induction members with
  | nil => rfl
  | cons e members ih =>
    rw [memberShapes]
    cases hempty : e.2.isEmpty with
    | true => simp [hempty, ih]
    | false =>
      rw [if_neg Bool.false_ne_true, List.filter_cons_of_pos (by simp [hempty]), List.mapM_cons, ih]
      simp only [map_eq_pure_bind, bind_assoc, pure_bind]

lemma schemaShapes_eq (schemas : List Node) :
    schemaShapes schemas = (schemas.filter fun c => !c.isEmpty).mapM (shape none) := by
  induction schemas with
  | nil => rfl
  | cons c schemas ih =>
    rw [schemaShapes]
    cases hempty : c.isEmpty with
    | true => simp [hempty, ih]
    | false =>
      rw [if_neg Bool.false_ne_true, List.filter_cons_of_pos (by simp [hempty]), List.mapM_cons, ih]

lemma propertyShapes_eq (kind : KeyedKind) (required : List String) (n : Node) :
    propertyShapes kind required n.keywords = (n.shownEntries kind).mapM fun e =>
      requireNamed required e.1 <$> e.2.shape (some e.1) := by
  rw [shownEntries, entries_eq]
  induction n.keywords with
  | nil => rfl
  | cons k ks ih =>
    rw [List.flatMap_cons, List.filter_append, List.mapM_append, ← ih, ← memberShapes_eq]
    have skip (x : Except ProjectError (List Shape)) :
        x = (do return (← memberShapes required []) ++ (← x)) := by cases x <;> rfl
    cases k with
    | keyed k members =>
      by_cases hk : k = kind
      · simp only [propertyShapes, Keyword.entriesOf, hk, if_true]
      · simp only [propertyShapes, Keyword.entriesOf, hk, if_false]
        exact skip _
    | _ => exact skip _

lemma branchShapes_eq (kind : OrderedKind) (n : Node) :
    branchShapes kind n.keywords = (n.shownBranches kind).mapM (shape none) := by
  rw [shownBranches]
  induction n.keywords with
  | nil => rfl
  | cons k ks ih =>
    rw [List.flatMap_cons, List.filter_append, List.mapM_append, ← ih, ← schemaShapes_eq]
    have skip (x : Except ProjectError (List Shape)) :
        x = (do return (← schemaShapes []) ++ (← x)) := by cases x <;> rfl
    cases k with
    | ordered k schemas =>
      by_cases hk : k = kind
      · simp only [branchShapes, Keyword.branchesOf, hk, if_true]
      · simp only [branchShapes, Keyword.branchesOf, hk, if_false]
        exact skip _
    | _ => exact skip _

lemma itemShape_eq (n : Node) : itemShape n.keywords = n.shownItem?.mapM (shape none) := by
  rw [shownItem?]
  induction n.keywords with
  | nil => rfl
  | cons k ks ih =>
    cases k with
    | ordered kind schemas =>
      cases kind with
      | items =>
        rw [List.findSome?_cons_of_isSome rfl]
        cases schemas with
        | nil => rfl
        | cons c schemas =>
          rw [itemShape]
          have hitem : (Keyword.itemOf? (.ordered .items (c :: schemas))).join = some c := rfl
          rw [hitem, Option.filter_some]
          cases hempty : c.isEmpty <;> rfl
      | _ => exact ih
    | _ => exact ih

/-- The shape of a schema around the shapes of what it shows. -/
def frame (n : Node) (name : Option String) (items : Option Shape)
    (properties patternProperties allOf oneOf : List Shape) : Shape where
  name := name
  properties := properties
  patternProperties := patternProperties
  items := items
  allOf := allOf
  oneOf := oneOf
  type := n.valueType
  format := StringFormat.ofName? (n.label? .format)
  description := n.label? .description
  enumValues := n.enumeration.1
  enumNames := n.enumeration.2
  minProperties := n.count? .minProperties
  maxProperties := n.count? .maxProperties
  minLength := n.count? .minLength
  maxLength := n.count? .maxLength
  maxItems := n.count? .maxItems
  minimum := n.limit? .minimum
  maximum := n.limit? .maximum
  default := n.defaultText?
  additionalProperties := n.allowsMore
  isRequired := (n.required?.map Required.isRequired).getD false
  withSetters := n.flag .withSetters
  withoutRefs := n.flag .withoutRefs

/-- The shapes of the named schemas of one kind that a schema shows. -/
def shownShapes (n : Node) (kind : KeyedKind) : Except ProjectError (List Shape) :=
  (n.shownEntries kind).mapM fun e => requireNamed n.requiredNames e.1 <$> e.2.shape (some e.1)

/-- The shape of a schema is its frame around the shapes of what it shows. -/
theorem shape_eq (n : Node) (name : Option String) : n.shape name = do
    let items ← n.shownItem?.mapM (shape none)
    let properties ← n.shownShapes .properties >>= distinct
    let patternProperties ← n.shownShapes .patternProperties >>= distinct
    let allOf ← (n.shownBranches .allOf).mapM (shape none)
    let oneOf ← (n.shownBranches .oneOf).mapM (shape none)
    return n.frame name items properties patternProperties allOf oneOf := by
  rw [shownShapes, shownShapes, ← itemShape_eq, ← propertyShapes_eq, ← propertyShapes_eq,
    ← branchShapes_eq, ← branchShapes_eq]
  cases n
  rfl

/-! ## What is projected -/

lemma Shows.nested {c : Node} (h : n.Shows c) : ∃ k ∈ n.keywords, c ∈ k.nested := by
  rcases h with ⟨kind, -, hc⟩ | hc | ⟨kind, -, hc⟩
  · obtain ⟨e, he, rfl⟩ := List.mem_map.1 hc
    exact exists_nested_of_mem_entries (List.mem_filter.1 he).1
  · obtain ⟨hc, -⟩ := Option.filter_eq_some_iff.1 hc
    obtain ⟨k, hk, hc⟩ := List.exists_of_findSome?_eq_some (Option.join_eq_some_iff.1 hc)
    refine ⟨k, hk, ?_⟩
    cases k with
    | ordered kind schemas =>
      cases kind with
      | items => exact List.mem_of_head? (Option.some.inj hc)
      | _ => cases hc
    | _ => cases hc
  · obtain ⟨k, hk, hc⟩ := List.mem_flatMap.1 (List.mem_filter.1 hc).1
    refine ⟨k, hk, ?_⟩
    cases k with
    | ordered kind' schemas =>
      rw [Keyword.branchesOf] at hc
      split at hc
      · exact hc
      · exact absurd hc List.not_mem_nil
    | _ => exact absurd hc List.not_mem_nil

lemma Projects.mem_nodes {c : Node} (h : n.Projects c) : c ∈ n.nodes := by
  induction h with
  | refl => exact self_mem_nodes n
  | tail _ hc ih =>
    obtain ⟨k, hk, hnested⟩ := hc.nested
    exact mem_nodes_trans ih (mem_nodes_of_nested hk hnested (self_mem_nodes _))

/-- A name is noted as seen, and as seen again if it was. -/
def note (p : List String × List String) (name : String) : List String × List String :=
  if name ∈ p.1 then (p.1, if name ∈ p.2 then p.2 else p.2 ++ [name]) else (name :: p.1, p.2)

lemma repeatedNames_eq (names : List String) :
    repeatedNames names = (names.foldl note ([], [])).2 := rfl

lemma mem_repeatedNames {s : String} {names : List String} :
    s ∈ repeatedNames names ↔ 2 ≤ names.count s := by
  suffices run : ∀ seen twice, s ∈ (names.foldl note (seen, twice)).2 ↔
      s ∈ twice ∨ (s ∈ seen ∧ s ∈ names) ∨ 2 ≤ names.count s by
    rw [repeatedNames_eq, run]
    simp
  induction names with
  | nil => simp
  | cons name names ih =>
    intro seen twice
    rw [List.foldl_cons, List.count_cons, List.mem_cons]
    have hcount : s ∈ names ↔ 1 ≤ names.count s := List.one_le_count_iff.symm
    by_cases hseen : name ∈ seen
    · have htwice : s ∈ (if name ∈ twice then twice else twice ++ [name]) ↔
          s ∈ twice ∨ s = name := by
        split <;> grind
      simp only [note, hseen, if_true, ih, htwice]
      grind
    · simp only [note, hseen, if_false, ih, List.mem_cons]
      grind

lemma nodup_repeatedNames (names : List String) : (repeatedNames names).Nodup := by
  suffices run : ∀ seen twice, twice.Nodup → (names.foldl note (seen, twice)).2.Nodup by
    exact run [] [] List.nodup_nil
  induction names with
  | nil => exact fun _ _ h => h
  | cons name names ih =>
    intro seen twice h
    rw [List.foldl_cons, note]
    split
    case isFalse => exact ih _ _ h
    case isTrue =>
      split
      case isTrue => exact ih _ _ h
      case isFalse hnew => exact ih _ _ (List.concat_eq_append ▸ h.concat hnew)

lemma repeatedNames_eq_nil {names : List String} : repeatedNames names = [] ↔ names.Nodup := by
  rw [List.eq_nil_iff_forall_not_mem, List.nodup_iff_count_le_one]
  refine forall_congr' fun s => ?_
  rw [mem_repeatedNames]
  omega

/-- Properties pass exactly if their names are distinct. -/
lemma distinct_eq_ok_iff {shapes shapes' : List Shape} :
    distinct shapes = .ok shapes' ↔ shapes = shapes' ∧ (shapes.filterMap Shape.name).Nodup := by
  rw [← repeatedNames_eq_nil, distinct]
  split
  case h_1 hnil => simp [hnil]
  case h_2 hnames =>
    simp only [reduceCtorEq, false_iff]
    exact fun h => hnames h.2

/-- Otherwise the names that come again are the error. -/
lemma distinct_eq_error_iff {shapes : List Shape} {e : ProjectError} :
    distinct shapes = .error e ↔ repeatedNames (shapes.filterMap Shape.name) ≠ [] ∧
      e = .duplicateProperty (repeatedNames (shapes.filterMap Shape.name)) := by
  rw [distinct]
  split
  case h_1 hnil => simp [hnil]
  case h_2 hnames =>
    rw [Except.error.injEq, eq_comm]
    exact ⟨fun h => ⟨hnames, h⟩, fun h => h.2⟩

variable {name : Option String} {o : Shape}

lemma shape_eq_ok_iff : n.shape name = .ok o ↔
    ∃ items, n.shownItem?.mapM (shape none) = .ok items ∧
    ∃ ps, (n.shownShapes .properties >>= distinct) = .ok ps ∧
    ∃ qs, (n.shownShapes .patternProperties >>= distinct) = .ok qs ∧
    ∃ bs, (n.shownBranches .allOf).mapM (shape none) = .ok bs ∧
    ∃ cs, (n.shownBranches .oneOf).mapM (shape none) = .ok cs ∧
      n.frame name items ps qs bs cs = o := by
  rw [shape_eq]
  simp only [bind_eq_ok_iff, pure_eq_ok_iff]

lemma name_of_shape (h : n.shape name = .ok o) : o.name = name := by
  obtain ⟨_, -, _, -, _, -, _, -, _, -, rfl⟩ := shape_eq_ok_iff.1 h
  rfl

/-- Shapes under the keys of named schemas have these keys for names, required or not. -/
lemma map_name_of_forall₂ {entries : List (String × Node)} {shapes : List Shape}
    (h : List.Forall₂ (fun e s => ∃ required o, e.2.shape (some e.1) = .ok o ∧
      requireNamed required e.1 o = s) entries shapes) :
    shapes.map Shape.name = (OrderedMap.keys entries).map some := by
  induction h with
  | nil => rfl
  | @cons e s entries shapes he _ ih =>
    obtain ⟨required, o, ho, rfl⟩ := he
    have hname : (requireNamed required e.1 o).name = some e.1 := by
      rw [← name_of_shape ho, requireNamed]
      split <;> rfl
    rw [List.map_cons, hname, ih, OrderedMap.keys_cons, List.map_cons]

lemma map_name_of_shownShapes {kind : KeyedKind} {shapes : List Shape}
    (h : n.shownShapes kind = .ok shapes) :
    shapes.map Shape.name = (OrderedMap.keys (n.shownEntries kind)).map some := by
  refine map_name_of_forall₂ ((mapM_eq_ok_iff.1 h).imp fun e s he => ?_)
  obtain ⟨o, ho, rfl⟩ := map_eq_ok_iff.1 he
  exact ⟨n.requiredNames, o, ho, rfl⟩

lemma names_of_shownShapes {kind : KeyedKind} {shapes : List Shape}
    (h : n.shownShapes kind = .ok shapes) :
    shapes.filterMap Shape.name = OrderedMap.keys (n.shownEntries kind) := by
  have hnames := congrArg (List.filterMap id) (map_name_of_shownShapes h)
  simpa [List.filterMap_map] using hnames

lemma exists_mapM_eq_ok_iff {α β ε : Type} {f : α → Except ε β} {l : List α} :
    (∃ l', l.mapM f = .ok l') ↔ ∀ a ∈ l, ∃ b, f a = .ok b := by
  simp only [mapM_eq_ok_iff]
  constructor
  · rintro ⟨l', h⟩ a ha
    obtain ⟨b, -, hb⟩ := Keyword.exists_rel_of_mem h ha
    exact ⟨b, hb⟩
  · intro h
    induction l with
    | nil => exact ⟨[], .nil⟩
    | cons a l ih =>
      obtain ⟨b, hb⟩ := h a List.mem_cons_self
      obtain ⟨l', hl'⟩ := ih fun a ha => h a (List.mem_cons_of_mem _ ha)
      exact ⟨b :: l', .cons hb hl'⟩

/-- Properties are projected exactly if each of them is and no two have one name. -/
lemma exists_shownShapes_iff {kind : KeyedKind} :
    (∃ shapes, (n.shownShapes kind >>= distinct) = .ok shapes) ↔
      (∀ e ∈ n.shownEntries kind, ∃ o, e.2.shape (some e.1) = .ok o) ∧
        (OrderedMap.keys (n.shownEntries kind)).Nodup := by
  have hall : (∃ shapes, n.shownShapes kind = .ok shapes) ↔
      ∀ e ∈ n.shownEntries kind, ∃ o, e.2.shape (some e.1) = .ok o := by
    rw [shownShapes, exists_mapM_eq_ok_iff]
    refine forall₂_congr fun e _ => ?_
    simp only [map_eq_ok_iff]
    exact ⟨fun ⟨_, o, ho, _⟩ => ⟨o, ho⟩, fun ⟨o, ho⟩ => ⟨_, o, ho, rfl⟩⟩
  simp only [bind_eq_ok_iff, distinct_eq_ok_iff, ← hall]
  constructor
  · rintro ⟨_, shapes, hshapes, rfl, hnodup⟩
    exact ⟨⟨shapes, hshapes⟩, names_of_shownShapes hshapes ▸ hnodup⟩
  · rintro ⟨⟨shapes, hshapes⟩, hnodup⟩
    exact ⟨shapes, shapes, hshapes, rfl, names_of_shownShapes hshapes ▸ hnodup⟩

lemma exists_shape_congr {name' : Option String} (h : ∃ o, n.shape name = .ok o) :
    ∃ o, n.shape name' = .ok o := by
  obtain ⟨o, ho⟩ := h
  obtain ⟨i, hi, ps, hps, qs, hqs, bs, hbs, cs, hcs, -⟩ := shape_eq_ok_iff.1 ho
  exact ⟨_, shape_eq_ok_iff.2 ⟨i, hi, ps, hps, qs, hqs, bs, hbs, cs, hcs, rfl⟩⟩

/-- A schema has a shape exactly if all that it shows has one and its properties have distinct
names. -/
lemma exists_shape_iff_shows : (∃ o, n.shape name = .ok o) ↔
    ¬ n.RepeatsProperty ∧ ∀ c, n.Shows c → ∃ o, c.shape none = .ok o := by
  have hitem : (∃ i, n.shownItem?.mapM (shape none) = .ok i) ↔
      ∀ c, n.shownItem? = some c → ∃ o, c.shape none = .ok o := by
    cases n.shownItem? with
    | none => simp [pure_eq_ok_iff]
    | some c => simp [map_eq_ok_iff]
  have hsplit : (∃ o, n.shape name = .ok o) ↔
      (∃ i, n.shownItem?.mapM (shape none) = .ok i) ∧
      (∃ ps, (n.shownShapes .properties >>= distinct) = .ok ps) ∧
      (∃ qs, (n.shownShapes .patternProperties >>= distinct) = .ok qs) ∧
      (∃ bs, (n.shownBranches .allOf).mapM (shape none) = .ok bs) ∧
      ∃ cs, (n.shownBranches .oneOf).mapM (shape none) = .ok cs := by
    simp only [shape_eq_ok_iff]
    constructor
    · rintro ⟨o, i, hi, ps, hps, qs, hqs, bs, hbs, cs, hcs, -⟩
      exact ⟨⟨i, hi⟩, ⟨ps, hps⟩, ⟨qs, hqs⟩, ⟨bs, hbs⟩, ⟨cs, hcs⟩⟩
    · rintro ⟨⟨i, hi⟩, ⟨ps, hps⟩, ⟨qs, hqs⟩, ⟨bs, hbs⟩, ⟨cs, hcs⟩⟩
      exact ⟨_, i, hi, ps, hps, qs, hqs, bs, hbs, cs, hcs, rfl⟩
  rw [hsplit, hitem, exists_shownShapes_iff, exists_shownShapes_iff, exists_mapM_eq_ok_iff,
    exists_mapM_eq_ok_iff]
  constructor
  · rintro ⟨hitem, ⟨hps, hpsnodup⟩, ⟨hqs, hqsnodup⟩, hbs, hcs⟩
    refine ⟨?_, ?_⟩
    · rintro ⟨kind, rfl | rfl, hrepeats⟩
      · exact hrepeats hpsnodup
      · exact hrepeats hqsnodup
    · rintro c (⟨kind, hkind, hc⟩ | hc | ⟨kind, hkind, hc⟩)
      · obtain ⟨e, he, rfl⟩ := List.mem_map.1 hc
        rcases hkind with rfl | rfl
        · exact exists_shape_congr (hps e he)
        · exact exists_shape_congr (hqs e he)
      · exact hitem c hc
      · rcases hkind with rfl | rfl
        · exact hbs c hc
        · exact hcs c hc
  · rintro ⟨hnodup, hshows⟩
    have entries {kind : KeyedKind} (hkind : kind = .properties ∨ kind = .patternProperties) :
        (∀ e ∈ n.shownEntries kind, ∃ o, e.2.shape (some e.1) = .ok o) ∧
          (OrderedMap.keys (n.shownEntries kind)).Nodup := by
      refine ⟨fun e he => exists_shape_congr (hshows e.2 ?_), ?_⟩
      · exact .inl ⟨kind, hkind, List.mem_map_of_mem he⟩
      · exact not_not.1 fun hrepeats => hnodup ⟨kind, hkind, hrepeats⟩
    refine ⟨fun c hc => hshows c (.inr (.inl hc)), entries (.inl rfl), entries (.inr rfl), ?_, ?_⟩
    · exact fun c hc => hshows c (.inr (.inr ⟨.allOf, .inl rfl, hc⟩))
    · exact fun c hc => hshows c (.inr (.inr ⟨.oneOf, .inr rfl, hc⟩))

/-- **What projects.**  A schema has a shape exactly if nowhere in what is projected two properties,
or two pattern properties, have one name. -/
theorem exists_shape_iff : (∃ o, n.shape name = .ok o) ↔
    ∀ c, n.Projects c → ¬ c.RepeatsProperty := by
  induction n using induction_nested generalizing name with
  | step n ih =>
    rw [exists_shape_iff_shows]
    constructor
    · rintro ⟨hn, hshows⟩ c hc
      rcases hc.cases_head with rfl | ⟨d, hd, hc⟩
      · exact hn
      · obtain ⟨k, hk, hnested⟩ := hd.nested
        exact (ih k hk d hnested).1 (hshows d hd) c hc
    · refine fun h => ⟨h n .refl, fun d hd => ?_⟩
      obtain ⟨k, hk, hnested⟩ := hd.nested
      exact (ih k hk d hnested).2 fun c hc => h c (.head hd hc)

/-- A schema has no shape for a fault of one that it projects. -/
theorem exists_fault_of_error {e : ProjectError} (h : n.shape name = .error e) :
    ∃ c, n.Projects c ∧ c.Fault e := by
  induction n using induction_nested generalizing name with
  | step n ih =>
    have shows {d : Node} {name : Option String} (hd : n.Shows d)
        (h : d.shape name = .error e) : ∃ c, n.Projects c ∧ c.Fault e := by
      obtain ⟨k, hk, hnested⟩ := hd.nested
      obtain ⟨c, hc, hfault⟩ := ih k hk d hnested h
      exact ⟨c, .head hd hc, hfault⟩
    have entries {kind : KeyedKind} (hkind : kind = .properties ∨ kind = .patternProperties)
        (h : (n.shownShapes kind >>= distinct) = .error e) : ∃ c, n.Projects c ∧ c.Fault e := by
      rcases bind_eq_error_iff.1 h with h | ⟨shapes, hshapes, h⟩
      · obtain ⟨entry, hentry, h⟩ := mapM_eq_error h
        exact shows (.inl ⟨kind, hkind, List.mem_map_of_mem hentry⟩) (map_eq_error_iff.1 h)
      · rw [distinct_eq_error_iff, names_of_shownShapes hshapes] at h
        exact ⟨n, .refl, kind, hkind, h⟩
    have branches {kind : OrderedKind} (hkind : kind = .allOf ∨ kind = .oneOf)
        (h : (n.shownBranches kind).mapM (shape none) = .error e) :
        ∃ c, n.Projects c ∧ c.Fault e := by
      obtain ⟨c, hc, h⟩ := mapM_eq_error h
      exact shows (.inr (.inr ⟨kind, hkind, hc⟩)) h
    rw [shape_eq] at h
    rcases bind_eq_error_iff.1 h with h | ⟨_, -, h⟩
    · cases hitem : n.shownItem? with
      | none =>
        rw [hitem] at h
        cases h
      | some c =>
        rw [hitem, Option.mapM_some] at h
        exact shows (.inr (.inl hitem)) (map_eq_error_iff.1 h)
    rcases bind_eq_error_iff.1 h with h | ⟨_, -, h⟩
    · exact entries (.inl rfl) h
    rcases bind_eq_error_iff.1 h with h | ⟨_, -, h⟩
    · exact entries (.inr rfl) h
    rcases bind_eq_error_iff.1 h with h | ⟨_, -, h⟩
    · exact branches (.inl rfl) h
    rcases bind_eq_error_iff.1 h with h | ⟨_, -, h⟩
    · exact branches (.inr rfl) h
    · cases h

/-- The only fault of a schema is that names of properties repeat. -/
lemma shape_eq_error {e : ProjectError} (h : n.shape name = .error e) :
    ∃ names, e = .duplicateProperty names := by
  obtain ⟨c, -, kind, -, -, he⟩ := exists_fault_of_error h
  exact ⟨_, he⟩

end Node

end SchemaCatalog
