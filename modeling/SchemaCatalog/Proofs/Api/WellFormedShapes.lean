import SchemaCatalog.Proofs.Api.Shapes

/-!
# Shapes are well-formed

A reader of the model takes a few things for granted.  Values that are enumerated have names all or
none, so that the two lists can be read side by side; the properties of an object have names, no two
of them the same, and so have its pattern properties; what is an item or a branch has no name.
`Shape.WellFormed` says this of one shape.

Whatever is inside the shape of a schema is the shape of a schema that is projected there
(`Node.exists_projects_of_inside`), so these hold at every depth of every shape
(`Node.wellFormed_of_inside`), whichever keywords the schemas repeat.
-/

namespace SchemaCatalog

open Api Relation

namespace Api.Shape

/-! ## Well-formed shapes -/

/-- The shapes directly inside a shape. -/
def parts (s : Shape) : List Shape :=
  s.properties ++ s.patternProperties ++ s.items.toList ++ s.allOf ++ s.oneOf

/-- Whether a shape is another one or somewhere inside it. -/
def Inside (s t : Shape) : Prop := ReflTransGen (fun s t => t ∈ s.parts) s t

/-- Whether all shapes of a list have names, and no two the same. -/
def NamedApart (shapes : List Shape) : Prop :=
  (∀ s ∈ shapes, s.name.isSome = true) ∧ (shapes.map Shape.name).Nodup

/-- What a reader takes for granted of a shape. -/
structure WellFormed (s : Shape) : Prop where
  enumNames : s.enumNames = [] ∨ s.enumNames.length = s.enumValues.length
  /-- The values are listed with their names by position, or all without. -/
  enumEntries : s.enumEntries = s.enumValues.map (·, none) ∨
    s.enumEntries = s.enumValues.zip (s.enumNames.map some)
  properties : NamedApart s.properties
  patternProperties : NamedApart s.patternProperties
  items : ∀ t, s.items = some t → t.name = none
  allOf : ∀ t ∈ s.allOf, t.name = none
  oneOf : ∀ t ∈ s.oneOf, t.name = none

variable {s : Shape}

lemma enumEntries_of_enumNames_eq_nil (h : s.enumNames = []) :
    s.enumEntries = s.enumValues.map (·, none) := by
  rw [enumEntries, h]
  refine List.ext_getElem (by simp) fun i hi _ => ?_
  simp

lemma enumEntries_of_length_eq (h : s.enumNames.length = s.enumValues.length) :
    s.enumEntries = s.enumValues.zip (s.enumNames.map some) := by
  rw [enumEntries]
  refine List.ext_getElem (by simp [h]) fun i hi _ => ?_
  have hnames : i < s.enumNames.length := by simpa [h] using hi
  simp [List.getElem?_eq_getElem hnames]

lemma parts_requireNamed (names : List String) (key : String) (s : Shape) :
    (Node.requireNamed names key s).parts = s.parts := by
  unfold Node.requireNamed
  split <;> rfl

lemma WellFormed.requireNamed (h : s.WellFormed) (names : List String) (key : String) :
    (Node.requireNamed names key s).WellFormed := by
  unfold Node.requireNamed
  split
  · exact h
  · exact ⟨h.enumNames, h.enumEntries, h.properties, h.patternProperties, h.items, h.allOf,
      h.oneOf⟩

end Api.Shape

namespace Node

variable {n : Node} {name : Option String} {o t : Shape}

/-! ## The shape of one schema -/

/-- Names are kept for all values or for none. -/
lemma enumeration_names (n : Node) :
    n.enumeration.2 = [] ∨ n.enumeration.2.length = n.enumeration.1.length := by
  unfold enumeration
  dsimp only
  split
  case isTrue => exact .inl rfl
  case isFalse hkept => simpa [or_iff_not_imp_left] using hkept

lemma namedApart_of_distinct {kind : KeyedKind} {shapes : List Shape}
    (h : (n.shownShapes kind >>= distinct) = .ok shapes) : Shape.NamedApart shapes := by
  obtain ⟨_, hshapes, h⟩ := bind_eq_ok_iff.1 h
  obtain ⟨rfl, hnodup⟩ := distinct_eq_ok_iff.1 h
  have hnames := map_name_of_shownShapes hshapes
  constructor
  · intro s hs
    obtain ⟨key, -, hkey⟩ := List.mem_map.1 (hnames ▸ List.mem_map_of_mem hs)
    exact hkey ▸ rfl
  · rw [hnames]
    rw [names_of_shownShapes hshapes] at hnodup
    exact hnodup.map fun _ _ => Option.some.inj

lemma name_of_mapM_shape {schemas : List Node} {shapes : List Shape}
    (h : schemas.mapM (shape none) = .ok shapes) : ∀ t ∈ shapes, t.name = none := by
  intro t ht
  obtain ⟨c, -, hc⟩ := Keyword.exists_rel_of_mem (mapM_eq_ok_iff.1 h).flip ht
  exact name_of_shape hc

lemma exists_shownItem_of_mapM (h : n.shownItem?.mapM (shape none) = .ok (some t)) :
    ∃ c, n.shownItem? = some c ∧ c.shape none = .ok t := by
  cases hshown : n.shownItem? with
  | none =>
    rw [hshown] at h
    cases h
  | some c =>
    rw [hshown, Option.mapM_some] at h
    obtain ⟨t', ht', hitem⟩ := map_eq_ok_iff.1 h
    obtain rfl := Option.some.inj hitem
    exact ⟨c, rfl, ht'⟩

lemma wellFormed_of_shape (h : n.shape name = .ok o) : o.WellFormed := by
  obtain ⟨items, hitems, ps, hps, qs, hqs, bs, hbs, cs, hcs, rfl⟩ := shape_eq_ok_iff.1 h
  refine ⟨n.enumeration_names, ?_, namedApart_of_distinct hps, namedApart_of_distinct hqs, ?_,
    name_of_mapM_shape hbs, name_of_mapM_shape hcs⟩
  · exact n.enumeration_names.imp Shape.enumEntries_of_enumNames_eq_nil
      Shape.enumEntries_of_length_eq
  · rintro t rfl
    obtain ⟨c, -, hc⟩ := exists_shownItem_of_mapM hitems
    exact name_of_shape hc

/-! ## What is inside a shape -/

/-- Whether a shape is that of a schema under some name, marked as properties are. -/
def HasShape (c : Node) (t : Shape) : Prop :=
  ∃ name s required key, c.shape name = .ok s ∧ t = requireNamed required key s

lemma hasShape_of_shape (h : n.shape name = .ok o) : n.HasShape o :=
  ⟨name, o, [], "", h, rfl⟩

/-- What is directly inside the shape of a schema is the shape of a schema that is shown in it. -/
lemma exists_shows_of_mem_parts (h : n.shape name = .ok o) (ht : t ∈ o.parts) :
    ∃ c, n.Shows c ∧ c.HasShape t := by
  have entries {kind : KeyedKind} (hkind : kind = .properties ∨ kind = .patternProperties)
      {shapes : List Shape} (hshapes : (n.shownShapes kind >>= distinct) = .ok shapes)
      (ht : t ∈ shapes) : ∃ c, n.Shows c ∧ c.HasShape t := by
    obtain ⟨_, hshown, hdistinct⟩ := bind_eq_ok_iff.1 hshapes
    obtain ⟨rfl, -⟩ := distinct_eq_ok_iff.1 hdistinct
    obtain ⟨e, he, het⟩ := Keyword.exists_rel_of_mem (mapM_eq_ok_iff.1 hshown).flip ht
    obtain ⟨s, hs, rfl⟩ := map_eq_ok_iff.1 het
    exact ⟨e.2, .inl ⟨kind, hkind, List.mem_map_of_mem he⟩, _, s, _, _, hs, rfl⟩
  have branches {kind : OrderedKind} (hkind : kind = .allOf ∨ kind = .oneOf) {shapes : List Shape}
      (hshapes : (n.shownBranches kind).mapM (shape none) = .ok shapes) (ht : t ∈ shapes) :
      ∃ c, n.Shows c ∧ c.HasShape t := by
    obtain ⟨c, hc, hs⟩ := Keyword.exists_rel_of_mem (mapM_eq_ok_iff.1 hshapes).flip ht
    exact ⟨c, .inr (.inr ⟨kind, hkind, hc⟩), hasShape_of_shape hs⟩
  obtain ⟨items, hitems, ps, hps, qs, hqs, bs, hbs, cs, hcs, rfl⟩ := shape_eq_ok_iff.1 h
  simp only [Shape.parts, List.mem_append, frame] at ht
  rcases ht with (((ht | ht) | ht) | ht) | ht
  · exact entries (.inl rfl) hps ht
  · exact entries (.inr rfl) hqs ht
  · obtain rfl := Option.mem_toList.1 ht
    obtain ⟨c, hshown, hc⟩ := exists_shownItem_of_mapM hitems
    exact ⟨c, .inr (.inl hshown), hasShape_of_shape hc⟩
  · exact branches (.inl rfl) hbs ht
  · exact branches (.inr rfl) hcs ht

/-- What is anywhere inside the shape of a schema is the shape of one that is projected with it. -/
theorem exists_projects_of_inside (h : n.shape name = .ok o) (ht : o.Inside t) :
    ∃ c, n.Projects c ∧ c.HasShape t := by
  induction ht with
  | refl => exact ⟨n, .refl, hasShape_of_shape h⟩
  | tail _ ht ih =>
    obtain ⟨c, hc, name, s, required, key, hs, rfl⟩ := ih
    -- The mark is not on the parts, so these are parts of the shape as it was projected.
    rw [Shape.parts_requireNamed] at ht
    obtain ⟨d, hd, hshape⟩ := exists_shows_of_mem_parts hs ht
    exact ⟨d, hc.tail hd, hshape⟩

/-- **Shapes are well-formed at every depth.**  Wherever a shape is inside the shape of a schema,
its values have names all or none, its properties have distinct names, its pattern properties too,
and its items and branches have none. -/
theorem wellFormed_of_inside (h : n.shape name = .ok o) : ∀ t, o.Inside t → t.WellFormed := by
  intro t ht
  obtain ⟨c, -, name, s, required, key, hs, rfl⟩ := exists_projects_of_inside h ht
  exact (wellFormed_of_shape hs).requireNamed required key

/-- A schema of an account in which two keywords are `properties`, two enumerate values and two
name them: a state is one of two values, next to null, and has two names. -/
def statedAccount : Node :=
  .ofKeywords [
    .keyed .properties [("state", .ofKeywords [
      .facet (.enum [.number (.whole 0), .null, .number (.whole 1)]),
      .facet (.enumNames ["off", "on"]),
      .facet (.enum [.string "a", .string "b", .string "c"]),
      .facet (.enumNames ["first"])])],
    .keyed .properties [("marks", .ofKeywords [
      .ordered .items [.ofKeywords [.facet (.type ["string"])]]])]]

/-- The state has the names of its values. -/
theorem wellFormed_of_inside_statedAccount :
    ∃ o, statedAccount.shape (some "account") = .ok o ∧ (∀ t, o.Inside t → t.WellFormed) ∧
      ∃ t, o.Inside t ∧ t.enumEntries = [("0", some "off"), ("1", some "on")] := by
  obtain ⟨o, ho, hstate⟩ : ∃ o, statedAccount.shape (some "account") = .ok o ∧
      ∃ t ∈ o.parts, t.enumEntries = [("0", some "off"), ("1", some "on")] := by
    refine ⟨_, rfl, _, List.mem_cons_self, ?_⟩
    decide +kernel
  obtain ⟨t, ht, hentries⟩ := hstate
  exact ⟨o, ho, wellFormed_of_inside ho, t, .single ht, hentries⟩

end Node

end SchemaCatalog
