import SchemaCatalog.Proofs.Api.ProducedShapes
import SchemaCatalog.Proofs.Schema.Likewise

/-!
# The shapes of equal schemas

Equality of schemas is blind to some things that projection shows.  It compares names of values
without regard to order, whereas a shape pairs them with the values by position; and values that
are equal may be written differently, objects by the order of their members and floating-point
zeros by their sign.  Up to these, equal schemas in which no keyword comes twice have shapes that
agree in all parts (`Shape.Agrees`), and so have the schemas that they show (`Shape.Alike`).  That
is `Node.alike_of_same`; `Node.unlike_of_same` shows that the order of the names does matter.

Projection asks questions to which keywords of one name alone have an answer, so that the order of
keywords does not matter as long as no name comes twice (`Keyword.findSome?_rel`).
-/

namespace SchemaCatalog

open Api

/-! ## Texts of equal values -/

/-- Whether equal values may be written differently from a value: it is a collection or zero. -/
def Json.HasVariants : Json → Prop
  | .number (.float x) => x.isZero = true
  | .array _ | .object _ => True
  | _ => False

/-- Whether two texts are equal, or those of two equal values that have variants. -/
def Api.TextAlike (a b : String) : Prop :=
  a = b ∨ ∃ v w : Json, v.HasVariants ∧ v.same w = true ∧ valueText v = a ∧ valueText w = b

lemma Json.textAlike_of_same {v w : Json} (h : v.same w = true) :
    TextAlike (valueText v) (valueText w) := by
  have hsingle (hv : ¬ v.HasVariants) : valueText v = valueText w := by
    cases v <;> cases w <;> first | rfl | cases h | skip
    case bool.bool => rw [eq_of_beq h]
    case number.number x y =>
      cases x <;> cases y <;> first | cases h | skip
      case whole.whole => rw [eq_of_beq h]
      case float.float x y =>
        simp only [same, Number.same, Binary64.same, Bool.or_eq_true, beq_iff_eq,
          Bool.and_eq_true] at h
        rcases h with rfl | ⟨hzero, -⟩
        · rfl
        · exact absurd hzero hv
    case string.string => exact eq_of_beq h
    case array.array => exact absurd trivial hv
    case object.object => exact absurd trivial hv
  by_cases hv : v.HasVariants
  · exact .inr ⟨v, w, hv, h, rfl, rfl⟩
  · exact .inl (hsingle hv)

lemma Json.isNull_of_same {v w : Json} (h : v.same w = true) :
    Node.isNull v = Node.isNull w := by
  cases v <;> cases w <;> first | rfl | cases h

/-! ## Shapes that are alike -/

/-- Whether two shapes agree in their own parts, those aside that are shapes. -/
structure Api.Shape.Agrees (s t : Shape) : Prop where
  name : s.name = t.name
  type : s.type = t.type
  format : s.format = t.format
  description : s.description = t.description
  enumValues : List.Forall₂ TextAlike s.enumValues t.enumValues
  /-- The names of the values may come in another order. -/
  enumNames : s.enumNames.Perm t.enumNames
  minProperties : s.minProperties = t.minProperties
  maxProperties : s.maxProperties = t.maxProperties
  minLength : s.minLength = t.minLength
  maxLength : s.maxLength = t.maxLength
  maxItems : s.maxItems = t.maxItems
  minimum : Option.Rel (fun m n => m.same n = true) s.minimum t.minimum
  maximum : Option.Rel (fun m n => m.same n = true) s.maximum t.maximum
  default : Option.Rel TextAlike s.default t.default
  additionalProperties : s.additionalProperties = t.additionalProperties
  isRequired : s.isRequired = t.isRequired
  withSetters : s.withSetters = t.withSetters
  withoutRefs : s.withoutRefs = t.withoutRefs

/-- Shapes that agree at every depth, with properties and pattern properties in any order.  The
relation `R` is any that the relation itself contains. -/
inductive Api.Shape.Alike : Shape → Shape → Prop where
  | mk {s t : Shape} {R : Shape → Shape → Prop} (sub : ∀ s t, R s t → Alike s t)
      (own : s.Agrees t) (properties : Matched R s.properties t.properties)
      (patternProperties : Matched R s.patternProperties t.patternProperties)
      (items : Option.Rel R s.items t.items) (allOf : List.Forall₂ R s.allOf t.allOf)
      (oneOf : List.Forall₂ R s.oneOf t.oneOf) : Alike s t

lemma Api.Shape.Alike.requireNamed {s t : Shape} (h : s.Alike t) {names names' : List String}
    (hnames : names.Perm names') (key : String) :
    (Node.requireNamed names key s).Alike (Node.requireNamed names' key t) := by
  have hmem : decide (key ∈ names) = decide (key ∈ names') := decide_eq_decide.2 hnames.mem_iff
  unfold Node.requireNamed
  rw [hnames.isEmpty_eq]
  split
  · exact h
  · obtain ⟨sub, own, properties, patternProperties, items, allOf, oneOf⟩ := h
    exact ⟨sub, { own with isRequired := hmem }, properties, patternProperties, items, allOf, oneOf⟩

/-! ## Questions about keywords -/

namespace Keyword

variable {α β : Type} {Q : Keyword → Keyword → Prop} {ks ls : List Keyword} (name : String)

/-- Keywords that are matched give related answers to a question that only the keywords of one name
have answers to, if no name comes twice. -/
lemma findSome?_rel {T : α → β → Prop} {f : Keyword → Option α} {g : Keyword → Option β}
    (h : Matched Q ks ls) (hls : (ls.map Keyword.name).Nodup)
    (hfg : ∀ j k, Q j k → Option.Rel T (f j) (g k)) (hname : ∀ k, g k ≠ none → k.name = name) :
    Option.Rel T (ks.findSome? f) (ls.findSome? g) := by
  cases hfirst : ks.findSome? f with
  | none =>
    have hnone : ls.findSome? g = none := by
      rw [List.findSome?_eq_none_iff]
      intro k hk
      obtain ⟨j, hj, hjk⟩ := h.exists_left hk
      have hrel := hfg j k hjk
      rw [List.findSome?_eq_none_iff.1 hfirst j hj] at hrel
      generalize g k = b at hrel
      cases hrel
      rfl
    rw [hnone]
    exact .none
  | some a =>
    obtain ⟨j, hj, hja⟩ := List.exists_of_findSome?_eq_some hfirst
    obtain ⟨k, hk, hjk⟩ := h.exists_right hj
    have hrel := hfg j k hjk
    rw [hja] at hrel
    cases hb : g k with
    | none =>
      rw [hb] at hrel
      cases hrel
    | some b =>
      rw [hb] at hrel
      have hunique : ∀ l ∈ ls, g l ≠ none → l = k := by
        intro l hl hanswer
        refine List.inj_on_of_nodup_map hls hl hk ?_
        rw [hname l hanswer, hname k (by rw [hb]; exact Option.some_ne_none b)]
      rw [findSome?_eq_some_of_unique hk hb hunique]
      exact hrel

/-- What only one keyword can contribute to is its contribution. -/
lemma flatMap_eq_findSome? {f : Keyword → List α} (hks : (ks.map Keyword.name).Nodup)
    (hname : ∀ k, f k ≠ [] → k.name = name) :
    ks.flatMap f = (ks.findSome? fun k => if (f k).isEmpty then none else some (f k)).getD [] := by
  induction ks with
  | nil => rfl
  | cons k ks ih =>
    obtain ⟨hnew, hks⟩ := List.nodup_cons.1 hks
    rw [List.flatMap_cons, List.findSome?_cons, ih hks]
    cases hempty : (f k).isEmpty with
    | true => simp [List.isEmpty_iff.1 hempty]
    | false =>
      have hothers : ks.findSome? (fun l => if (f l).isEmpty then none else some (f l)) = none := by
        rw [List.findSome?_eq_none_iff]
        intro l hl
        rw [if_pos]
        by_contra hl'
        have hsame : l.name = k.name := by
          rw [hname l fun h => hl' (by simp [h]), hname k fun h => by simp [h] at hempty]
        exact hnew (hsame ▸ List.mem_map_of_mem hl)
      simp only [Bool.false_eq_true, if_false, hothers, Option.getD_none, List.append_nil,
        Option.getD_some]

/-- What only one keyword can contribute to is related if the contributions are. -/
lemma flatMap_rel {T : α → β → Prop} {f : Keyword → List α} {g : Keyword → List β}
    (h : Matched Q ks ls) (hks : (ks.map Keyword.name).Nodup) (hls : (ls.map Keyword.name).Nodup)
    (hfg : ∀ j k, Q j k → List.Forall₂ T (f j) (g k)) (hf : ∀ k, f k ≠ [] → k.name = name)
    (hg : ∀ k, g k ≠ [] → k.name = name) :
    List.Forall₂ T (ks.flatMap f) (ls.flatMap g) := by
  rw [flatMap_eq_findSome? name hks hf, flatMap_eq_findSome? name hls hg]
  have hrel : Option.Rel (List.Forall₂ T)
      (ks.findSome? fun k => if (f k).isEmpty then none else some (f k))
      (ls.findSome? fun k => if (g k).isEmpty then none else some (g k)) := by
    refine findSome?_rel name h hls (fun j k hjk => ?_) fun k hk =>
      hg k fun hempty => hk (by simp [hempty])
    have hcontributions := hfg j k hjk
    generalize f j = a, g k = b at hcontributions
    cases hcontributions with
    | nil => exact .none
    | cons hab htail => exact .some (.cons hab htail)
  generalize (ks.findSome? _) = x, (ls.findSome? _) = y at hrel
  cases hrel with
  | none => exact .nil
  | some h => exact h

end Keyword

/-! ## The own parts of a shape -/

lemma nodup_uniteNames {a b : List String} (h : a.Nodup) : (uniteNames a b).Nodup := by
  induction b generalizing a with
  | nil => exact h
  | cons s b ih =>
    rw [uniteNames]
    split
    case isTrue => exact ih h
    case isFalse hs => exact ih (List.nodup_append_comm.1 (List.nodup_cons.2 ⟨hs, h⟩))

/-- Whether an `additionalProperties` keyword allows any. -/
def Keyword.allowsMore? : Keyword → Option Bool
  | .additionalProperties schema => some (schema.truth == some true || !schema.isEmpty)
  | _ => none

namespace Node

variable {R : Node → Node → Prop} {m n : Node}

lemma allowsMore_eq (n : Node) :
    n.allowsMore = (n.keywords.findSome? Keyword.allowsMore?).getD false := by
  rw [allowsMore]
  congr 1

section Likewise

variable (h : Matched (Keyword.Likewise R) m.keywords n.keywords)
  (hn : (n.keywords.map Keyword.name).Nodup)

include h

lemma typeNames_perm : m.typeNames.Perm n.typeNames := by
  have htypes : (m.keywords.flatMap Keyword.typesOf).Perm (n.keywords.flatMap Keyword.typesOf) := by
    refine h.flatMap_perm fun j k hjk => ?_
    cases hjk with
    | @facet a b same =>
      cases a <;> cases b <;> first | exact .refl _ | cases same | skip
      case type.type => exact perm_of_sameElements same
    | _ => exact .refl _
  rw [typeNames_eq, typeNames_eq,
    List.perm_ext_iff_of_nodup (nodup_uniteNames List.nodup_nil) (nodup_uniteNames List.nodup_nil)]
  intro s
  rw [mem_uniteNames, mem_uniteNames, htypes.mem_iff]

lemma isEmpty_of_likewise : m.isEmpty = n.isEmpty := by
  obtain ⟨c, hmc, hcn⟩ := h
  have hlength : m.keywords.length = n.keywords.length := hmc.length_eq.trans hcn.length_eq
  rw [isEmpty, isEmpty, Bool.eq_iff_iff, List.isEmpty_iff, List.isEmpty_iff,
    ← List.length_eq_zero_iff, ← List.length_eq_zero_iff, hlength]

lemma valueType_of_likewise : m.valueType = n.valueType := by
  have hperm := typeNames_perm h
  unfold valueType
  rw [isEmpty_of_likewise h]
  generalize m.typeNames = names, n.typeNames = names' at hperm
  match names with
  | [] => rw [hperm.nil_eq]
  | [name] => rw [hperm.singleton_eq]
  | first :: second :: rest =>
    match names', hperm.length_eq with
    | _ :: _ :: _, _ => rfl

include hn

/-- Equal facets that have related answers to a question of one name are enough for related
answers. -/
lemma firstFacet?_rel {α β : Type} {T : α → β → Prop} {f : Facet → Option α} {g : Facet → Option β}
    (name : String) (hfg : ∀ a b, a.same b = true → Option.Rel T (f a) (g b))
    (hname : ∀ a, g a ≠ none → a.name = name) :
    Option.Rel T (m.firstFacet? f) (n.firstFacet? g) := by
  rw [firstFacet?_eq, firstFacet?_eq]
  refine Keyword.findSome?_rel name h hn (fun j k hjk => ?_) fun k hk => ?_
  · cases hjk with
    | facet same => exact hfg _ _ same
    | _ => exact .none
  · cases k with
    | facet a => exact hname a hk
    | _ => exact absurd rfl hk

/-- Equal facets that have the same answer to a question of one name are enough for the same
answer. -/
lemma firstFacet?_eq_of_likewise {α : Type} {f : Facet → Option α} (name : String)
    (hf : ∀ a b, a.same b = true → f a = f b) (hname : ∀ a, f a ≠ none → a.name = name) :
    m.firstFacet? f = n.firstFacet? f := by
  have hrel : Option.Rel (· = ·) (m.firstFacet? f) (n.firstFacet? f) := by
    refine firstFacet?_rel h hn name (fun a b hab => ?_) hname
    rw [hf a b hab]
    cases f b with
    | none => exact .none
    | some x => exact .some rfl
  generalize m.firstFacet? f = x, n.firstFacet? f = y at hrel
  cases hrel with
  | none => rfl
  | some heq => rw [heq]

lemma count?_of_likewise (kind : CountKind) : m.count? kind = n.count? kind := by
  refine firstFacet?_eq_of_likewise h hn kind.name (fun a b hab => ?_) fun a ha => ?_
  · cases a <;> cases b <;> first | rfl | cases hab | skip
    case count.count =>
      simp only [Facet.same, Bool.and_eq_true, beq_iff_eq] at hab
      rw [hab.1, hab.2]
  · cases a <;> first | exact absurd rfl ha | skip
    case count kind' c =>
      by_cases hkind : kind' = kind
      · rw [hkind, Facet.name]
      · exact absurd (if_neg hkind) ha

lemma label?_of_likewise (kind : LabelKind) : m.label? kind = n.label? kind := by
  refine firstFacet?_eq_of_likewise h hn kind.name (fun a b hab => ?_) fun a ha => ?_
  · cases a <;> cases b <;> first | rfl | cases hab | skip
    case label.label =>
      simp only [Facet.same, Bool.and_eq_true, beq_iff_eq] at hab
      rw [hab.1, hab.2]
  · cases a <;> first | exact absurd rfl ha | skip
    case label kind' c =>
      by_cases hkind : kind' = kind
      · rw [hkind, Facet.name]
      · exact absurd (if_neg hkind) ha

lemma flag_of_likewise (kind : FlagKind) : m.flag kind = n.flag kind := by
  refine congrArg (Option.getD · false)
    (firstFacet?_eq_of_likewise h hn kind.name (fun a b hab => ?_) fun a ha => ?_)
  · cases a <;> cases b <;> first | rfl | cases hab | skip
    case flag.flag =>
      simp only [Facet.same, Bool.and_eq_true, beq_iff_eq] at hab
      rw [hab.1, hab.2]
  · cases a <;> first | exact absurd rfl ha | skip
    case flag kind' c =>
      by_cases hkind : kind' = kind
      · rw [hkind, Facet.name]
      · exact absurd (if_neg hkind) ha

lemma limit?_rel (kind : LimitKind) :
    Option.Rel (fun x y => x.same y = true) (m.limit? kind) (n.limit? kind) := by
  refine firstFacet?_rel h hn kind.name (fun a b hab => ?_) fun a ha => ?_
  · cases a <;> cases b <;> first | exact .none | cases hab | skip
    case limit.limit kind₁ x kind₂ y =>
      simp only [Facet.same, Bool.and_eq_true, beq_iff_eq] at hab
      obtain ⟨rfl, hxy⟩ := hab
      by_cases hkind : kind₁ = kind
      · simp only [hkind, if_true]
        exact .some hxy
      · simp only [hkind, if_false]
        exact .none
  · cases a <;> first | exact absurd rfl ha | skip
    case limit kind' c =>
      by_cases hkind : kind' = kind
      · rw [hkind, Facet.name]
      · exact absurd (if_neg hkind) ha

lemma defaultText?_rel : Option.Rel TextAlike m.defaultText? n.defaultText? := by
  refine firstFacet?_rel h hn "default" (fun a b hab => ?_) fun a ha => ?_
  · cases a <;> cases b <;> first | exact .none | cases hab | skip
    case default.default => exact .some (Json.textAlike_of_same hab)
  · cases a <;> first | exact absurd rfl ha | rfl

lemma declaredValues?_rel :
    Option.Rel (List.Forall₂ fun v w => v.same w = true) m.declaredValues? n.declaredValues? := by
  refine firstFacet?_rel h hn "enum" (fun a b hab => ?_) fun a ha => ?_
  · cases a <;> cases b <;> first | exact .none | cases hab | skip
    case enum.enum => exact .some (Json.sameItems_iff.1 hab)
  · cases a <;> first | exact absurd rfl ha | rfl

lemma declaredNames?_rel : Option.Rel List.Perm m.declaredNames? n.declaredNames? := by
  refine firstFacet?_rel h hn "enumNames" (fun a b hab => ?_) fun a ha => ?_
  · cases a <;> cases b <;> first | exact .none | cases hab | skip
    case enumNames.enumNames => exact .some (perm_of_sameElements hab)
  · cases a <;> first | exact absurd rfl ha | rfl

lemma required?_rel : Option.Rel (fun r s => r.same s = true) m.required? n.required? := by
  refine firstFacet?_rel h hn "required" (fun a b hab => ?_) fun a ha => ?_
  · cases a <;> cases b <;> first | exact .none | cases hab | skip
    case required.required => exact .some hab
  · cases a <;> first | exact absurd rfl ha | rfl

lemma requiredNames_perm : m.requiredNames.Perm n.requiredNames := by
  have hrel := required?_rel h hn
  rw [requiredNames, requiredNames]
  generalize m.required? = r, n.required? = s at hrel
  cases hrel with
  | none => exact .refl _
  | @some r s hrs =>
    cases r <;> cases s <;> first | exact .refl _ | cases hrs | skip
    case properties.properties => exact perm_of_sameElements hrs

lemma isRequired_of_likewise :
    (m.required?.map Required.isRequired).getD false =
      (n.required?.map Required.isRequired).getD false := by
  have hrel := required?_rel h hn
  generalize m.required? = r, n.required? = s at hrel
  cases hrel with
  | none => rfl
  | @some r s hrs =>
    cases r <;> cases s <;> first | cases hrs | skip
    case flag.flag => exact eq_of_beq hrs
    case properties.properties names names' =>
      exact congrArg (!·) (perm_of_sameElements hrs).isEmpty_eq

/-- The values of an enumeration are alike, and the names the same in some order: whether they count
is told by their numbers. -/
lemma enumeration_of_likewise :
    List.Forall₂ TextAlike m.enumeration.1 n.enumeration.1 ∧
      m.enumeration.2.Perm n.enumeration.2 := by
  have hvalues : List.Forall₂ (fun v w : Json => v.same w = true)
      ((m.declaredValues?.getD []).filter fun v => !isNull v)
      ((n.declaredValues?.getD []).filter fun v => !isNull v) := by
    refine List.rel_filter (fun v w hvw => ?_) ?_
    · simp only [Json.isNull_of_same hvw]
    · have hrel := declaredValues?_rel h hn
      generalize m.declaredValues? = x, n.declaredValues? = y at hrel
      cases hrel with
      | none => exact .nil
      | some hxy => exact hxy
  have hnames : (m.declaredNames?.getD []).Perm (n.declaredNames?.getD []) := by
    have hrel := declaredNames?_rel h hn
    generalize m.declaredNames? = x, n.declaredNames? = y at hrel
    cases hrel with
    | none => exact .refl _
    | some hxy => exact hxy
  have htexts : List.Forall₂ TextAlike
      (((m.declaredValues?.getD []).filter fun v => !isNull v).map valueText)
      (((n.declaredValues?.getD []).filter fun v => !isNull v).map valueText) := by
    rw [List.forall₂_map_left_iff, List.forall₂_map_right_iff]
    exact hvalues.imp fun _ _ => Json.textAlike_of_same
  unfold enumeration
  dsimp only
  rw [htexts.length_eq, hnames.length_eq, hnames.isEmpty_eq]
  split
  · exact ⟨.nil, .refl _⟩
  · exact ⟨htexts, hnames⟩

variable (hR : ∀ c d, R c d → c.truth = d.truth ∧ c.isEmpty = d.isEmpty)

include hR

lemma allowsMore_of_likewise : m.allowsMore = n.allowsMore := by
  have hrel : Option.Rel (· = ·) (m.keywords.findSome? Keyword.allowsMore?)
      (n.keywords.findSome? Keyword.allowsMore?) := by
    refine Keyword.findSome?_rel "additionalProperties" h hn (fun j k hjk => ?_) fun k hk => ?_
    · cases hjk with
      | additionalProperties related =>
        obtain ⟨htruth, hempty⟩ := hR _ _ related
        exact .some (by rw [htruth, hempty])
      | _ => exact .none
    · cases k with
      | additionalProperties schema => rfl
      | _ => exact absurd rfl hk
  rw [allowsMore_eq, allowsMore_eq]
  generalize m.keywords.findSome? Keyword.allowsMore? = x,
    n.keywords.findSome? Keyword.allowsMore? = y at hrel
  cases hrel with
  | none => rfl
  | some heq => rw [heq]

omit hn in
lemma shownEntries_matched (kind : KeyedKind) :
    Matched (fun e f => e.1 = f.1 ∧ R e.2 f.2) (m.shownEntries kind) (n.shownEntries kind) := by
  rw [shownEntries, shownEntries, entries_eq, entries_eq]
  refine (h.flatMap fun j k hjk => ?_).filter fun e f hef => by rw [(hR _ _ hef.2).2]
  cases hjk with
  | @keyed kind' _ _ matched =>
    by_cases hkind : kind' = kind
    · simpa only [Keyword.entriesOf, if_pos hkind] using matched
    · simpa only [Keyword.entriesOf, if_neg hkind] using Matched.of_forall₂ .nil
  | _ => exact .of_forall₂ .nil

lemma shownItem?_rel : Option.Rel R m.shownItem? n.shownItem? := by
  have hrel : Option.Rel (Option.Rel R) (m.keywords.findSome? Keyword.itemOf?)
      (n.keywords.findSome? Keyword.itemOf?) := by
    refine Keyword.findSome?_rel "items" h hn (fun j k hjk => ?_) fun k hk => ?_
    · cases hjk with
      | @ordered kind schemas schemas' related =>
        cases kind with
        | items =>
          refine .some ?_
          cases related with
          | nil => exact .none
          | cons hcd _ => exact .some hcd
        | _ => exact .none
      | _ => exact .none
    · cases k with
      | ordered kind schemas =>
        cases kind with
        | items => rfl
        | _ => exact absurd rfl hk
      | _ => exact absurd rfl hk
  unfold shownItem?
  generalize m.keywords.findSome? Keyword.itemOf? = x, n.keywords.findSome? Keyword.itemOf? = y
    at hrel
  cases hrel with
  | none => exact .none
  | some hxy =>
    cases hxy with
    | none => exact .none
    | @some c d hcd =>
      simp only [Option.join_some, Option.filter_some, (hR c d hcd).2]
      split
      · exact .some hcd
      · exact .none

lemma shownBranches_rel (hm : (m.keywords.map Keyword.name).Nodup) (kind : OrderedKind) :
    List.Forall₂ R (m.shownBranches kind) (n.shownBranches kind) := by
  have hname (k : Keyword) (hk : k.branchesOf kind ≠ []) : k.name = kind.name := by
    cases k with
    | ordered kind' schemas =>
      by_cases hkind : kind' = kind
      · rw [hkind, Keyword.name]
      · exact absurd (if_neg hkind) hk
    | _ => exact absurd rfl hk
  refine List.rel_filter (fun c d hcd => ?_)
    (Keyword.flatMap_rel kind.name h hm hn (fun j k hjk => ?_) hname hname)
  · simp only [(hR c d hcd).2]
  · cases hjk with
    | @ordered kind' _ _ related =>
      by_cases hkind : kind' = kind
      · simpa only [Keyword.branchesOf, if_pos hkind] using related
      · simpa only [Keyword.branchesOf, if_neg hkind] using List.Forall₂.nil
    | _ => exact .nil

/-- Schemas with likewise keywords have frames that agree. -/
lemma agrees_frame (name : Option String) (i i' : Option Shape)
    (ps ps' qs qs' bs bs' cs cs' : List Shape) :
    (m.frame name i ps qs bs cs).Agrees (n.frame name i' ps' qs' bs' cs') where
  name := rfl
  type := valueType_of_likewise h
  format := congrArg StringFormat.ofName? (label?_of_likewise h hn .format)
  description := label?_of_likewise h hn .description
  enumValues := (enumeration_of_likewise h hn).1
  enumNames := (enumeration_of_likewise h hn).2
  minProperties := count?_of_likewise h hn .minProperties
  maxProperties := count?_of_likewise h hn .maxProperties
  minLength := count?_of_likewise h hn .minLength
  maxLength := count?_of_likewise h hn .maxLength
  maxItems := count?_of_likewise h hn .maxItems
  minimum := limit?_rel h hn .minimum
  maximum := limit?_rel h hn .maximum
  default := defaultText?_rel h hn
  additionalProperties := allowsMore_of_likewise h hn hR
  isRequired := isRequired_of_likewise h hn
  withSetters := flag_of_likewise h hn .withSetters
  withoutRefs := flag_of_likewise h hn .withoutRefs

end Likewise

/-! ## Equal schemas -/

lemma Single.exists_shape (hn : n.Single) (name : Option String) : ∃ s, n.shape name = .ok s := by
  refine exists_shape_iff.2 fun c hc => ?_
  have hc := hn.of_mem_nodes hc.mem_nodes
  exact not_repeatsProperty hc.names fun kind members hmem _ => hc.keywords _ hmem

section Shown

variable (h : Matched (Keyword.Likewise R) m.keywords n.keywords)
  (hR : ∀ c d, R c d → c.truth = d.truth ∧ c.isEmpty = d.isEmpty)
  (alike : ∀ c, (∃ k ∈ m.keywords, c ∈ k.nested) → ∀ d, R c d → ∀ name s, c.shape name = .ok s →
    ∃ t, d.shape name = .ok t ∧ s.Alike t)
  (hm : (m.keywords.map Keyword.name).Nodup) (hn : (n.keywords.map Keyword.name).Nodup)

include h hR alike hn

/-- The shapes of properties are alike in some order. -/
lemma shownShapes_alike {kind : KeyedKind} {ps qs : List Shape}
    (hps : (m.shownShapes kind >>= distinct) = .ok ps)
    (hqs : (n.shownShapes kind >>= distinct) = .ok qs) : Matched Shape.Alike ps qs := by
  obtain ⟨ps', hps', hdistinct⟩ := bind_eq_ok_iff.1 hps
  obtain ⟨rfl, -⟩ := distinct_eq_ok_iff.1 hdistinct
  obtain ⟨qs', hqs', hdistinct'⟩ := bind_eq_ok_iff.1 hqs
  obtain ⟨rfl, -⟩ := distinct_eq_ok_iff.1 hdistinct'
  rw [shownShapes, mapM_eq_ok_iff] at hps'
  have turn : ∀ e ∈ m.shownEntries kind, ∀ (f : String × Node) s, e.1 = f.1 ∧ R e.2 f.2 →
      requireNamed m.requiredNames e.1 <$> e.2.shape (some e.1) = .ok s →
      ∃ t, requireNamed n.requiredNames f.1 <$> f.2.shape (some f.1) = .ok t ∧ s.Alike t := by
    rintro e he f s ⟨hkey, hef⟩ hs
    obtain ⟨o, ho, rfl⟩ := map_eq_ok_iff.1 hs
    obtain ⟨t, ht, hot⟩ :=
      alike e.2 (exists_nested_of_mem_entries (List.mem_filter.1 he).1) f.2 hef _ o ho
    rw [← hkey]
    exact ⟨_, map_eq_ok_iff.2 ⟨t, ht, rfl⟩, hot.requireNamed (requiredNames_perm h hn) e.1⟩
  obtain ⟨ts, hts, hmatched⟩ := (shownEntries_matched h hR kind).exists_matched hps' turn
  rw [shownShapes, mapM_eq_ok_iff.2 hts] at hqs'
  exact Except.ok.inj hqs' ▸ hmatched

lemma itemShape_alike {i i' : Option Shape} (hi : m.shownItem?.mapM (shape none) = .ok i)
    (hi' : n.shownItem?.mapM (shape none) = .ok i') : Option.Rel Shape.Alike i i' := by
  have hrel := shownItem?_rel h hn hR
  have hshown (c : Node) (hc : m.shownItem? = some c) := alike c (Shows.nested (.inr (.inl hc)))
  generalize m.shownItem? = x, n.shownItem? = y at hi hi' hrel hshown
  cases hrel with
  | none =>
    obtain rfl := Except.ok.inj hi
    obtain rfl := Except.ok.inj hi'
    exact .none
  | @some c d hcd =>
    rw [Option.mapM_some, map_eq_ok_iff] at hi hi'
    obtain ⟨s, hs, rfl⟩ := hi
    obtain ⟨t, ht, rfl⟩ := hi'
    obtain ⟨t', ht', hst⟩ := hshown c rfl d hcd none s hs
    rw [ht] at ht'
    exact .some (Except.ok.inj ht' ▸ hst)

include hm

lemma branchShapes_alike {kind : OrderedKind} (hkind : kind = .allOf ∨ kind = .oneOf)
    {bs cs : List Shape} (hbs : (m.shownBranches kind).mapM (shape none) = .ok bs)
    (hcs : (n.shownBranches kind).mapM (shape none) = .ok cs) :
    List.Forall₂ Shape.Alike bs cs := by
  have turn : ∀ c ∈ m.shownBranches kind, ∀ d s, R c d → c.shape none = .ok s →
      ∃ t, d.shape none = .ok t ∧ s.Alike t := fun c hc d s hcd hs =>
    alike c (Shows.nested (.inr (.inr ⟨kind, hkind, hc⟩))) d hcd none s hs
  obtain ⟨ts, hts, hrel⟩ := exists_forall₂ (shownBranches_rel h hn hR hm kind)
     (mapM_eq_ok_iff.1 hbs) turn
  rw [mapM_eq_ok_iff.2 hts] at hcs
  exact Except.ok.inj hcs ▸ hrel

end Shown

/-- Equal schemas in which no keyword comes twice are projected alike. -/
theorem Single.alike (hm : m.Single) (hn : n.Single) (h : m.same n = true) {name : Option String}
    {s : Shape} (hs : m.shape name = .ok s) : ∃ t, n.shape name = .ok t ∧ s.Alike t := by
  induction m using Node.induction_nested generalizing n name s with
  | step m ih =>
    obtain ⟨t, ht⟩ := hn.exists_shape name
    refine ⟨t, ht, ?_⟩
    obtain ⟨-, hlikewise⟩ := likewise_of_same hm hn h
    have hR (c d : Node) (hcd : c.Single ∧ d.Single ∧ c.same d = true) :
        c.truth = d.truth ∧ c.isEmpty = d.isEmpty :=
      ⟨(likewise_of_same hcd.1 hcd.2.1 hcd.2.2).1, isEmpty_of_same hcd.2.2⟩
    have hnested (c : Node) (hc : ∃ k ∈ m.keywords, c ∈ k.nested) (d : Node)
        (hcd : c.Single ∧ d.Single ∧ c.same d = true) (name : Option String) (s : Shape)
        (hs : c.shape name = .ok s) : ∃ t, d.shape name = .ok t ∧ s.Alike t := by
      obtain ⟨k, hk, hc⟩ := hc
      exact ih k hk c hc hcd.1 hcd.2.1 hcd.2.2 hs
    obtain ⟨i, hi, ps, hps, qs, hqs, bs, hbs, cs, hcs, rfl⟩ := shape_eq_ok_iff.1 hs
    obtain ⟨i', hi', ps', hps', qs', hqs', bs', hbs', cs', hcs', rfl⟩ := shape_eq_ok_iff.1 ht
    exact .mk (fun _ _ h => h) (agrees_frame hlikewise hn.names hR ..)
      (shownShapes_alike hlikewise hR hnested hn.names hps hps')
      (shownShapes_alike hlikewise hR hnested hn.names hqs hqs')
      (itemShape_alike hlikewise hR hnested hn.names hi hi')
      (branchShapes_alike hlikewise hR hnested hm.names hn.names (.inl rfl) hbs hbs')
      (branchShapes_alike hlikewise hR hnested hm.names hn.names (.inr rfl) hcs hcs')

/-- **Equal schemas are projected alike.**  Equal schemas that are decoded from values without
repeated names both have shapes under any name, and these agree in all parts at every depth, up to
the order of properties, of pattern properties and of the names of enumerated values, and up to the
writing of values that can be written in several ways. -/
theorem alike_of_same {v w : Json} (hv : v.hasDistinctNames = true) (hw : w.hasDistinctNames = true)
    (hm : decode v = .ok m) (hn : decode w = .ok n) (h : m.same n = true) (name : Option String) :
    ∃ s t, m.shape name = .ok s ∧ n.shape name = .ok t ∧ s.Alike t := by
  have hmsingle := single_of_decode hv hm
  obtain ⟨s, hs⟩ := hmsingle.exists_shape name
  obtain ⟨t, ht, hst⟩ := hmsingle.alike (single_of_decode hw hn) h hs
  exact ⟨s, t, hs, ht, hst⟩

end Node

/-! ## Two switches -/

/-- A schema with two properties and two values that have names. -/
def Json.switch (values : List Json) (names keys : List String) : Json :=
  .object [("enum", .array values), ("enumNames", .array (names.map .string)),
    ("properties", .object (keys.map fun key => (key, .object [("type", .string "integer")])))]

/-- Two schemas that differ in the order of their properties, and of the names of their values, are
projected alike. -/
theorem Node.alike_of_same_switch :
    ∃ m n s t, decode (.switch [.bool false, .bool true] ["off", "on"] ["a", "b"]) = .ok m ∧
      decode (.switch [.bool false, .bool true] ["on", "off"] ["b", "a"]) = .ok n ∧
      m.same n = true ∧ m.shape none = .ok s ∧ n.shape none = .ok t ∧
      s.properties.map Shape.name = [some "a", some "b"] ∧
      t.properties.map Shape.name = [some "b", some "a"] ∧ s.Alike t := by
  have hevaluated : ((decode (.switch [.bool false, .bool true] ["off", "on"] ["a", "b"])).toOption.any
      fun m => (decode (.switch [.bool false, .bool true] ["on", "off"] ["b", "a"])).toOption.any
        fun n => m.sameFully n &&
          ((m.shape none).toOption.any fun s => s.properties.map Shape.name == [some "a", some "b"]) &&
          (n.shape none).toOption.any fun t => t.properties.map Shape.name == [some "b", some "a"]) =
      true := by
    decide +kernel
  obtain ⟨m, hm, hevaluated⟩ := exists_of_any_toOption hevaluated
  obtain ⟨n, hn, hevaluated⟩ := exists_of_any_toOption hevaluated
  rw [Bool.and_eq_true, Bool.and_eq_true, ← same_eq_sameFully] at hevaluated
  obtain ⟨⟨hsame, hfirst⟩, hsecond⟩ := hevaluated
  obtain ⟨s', hs', hfirst⟩ := exists_of_any_toOption hfirst
  obtain ⟨t', ht', hsecond⟩ := exists_of_any_toOption hsecond
  obtain ⟨s, t, hs, ht, hst⟩ :=
    alike_of_same (by decide) (by decide) hm hn hsame none
  obtain rfl := Except.ok.inj (hs.symm.trans hs')
  obtain rfl := Except.ok.inj (ht.symm.trans ht')
  exact ⟨m, n, s, t, hm, hn, hsame, hs, ht, eq_of_beq hfirst, eq_of_beq hsecond, hst⟩

/-- Whether two values are decoded to equal schemas whose shapes have different entries. -/
def Json.EnumeratedUnlike (v w : Json) : Prop :=
  v.hasDistinctNames = true ∧ w.hasDistinctNames = true ∧ ∃ m n s t, Node.decode v = .ok m ∧
    Node.decode w = .ok n ∧ m.same n = true ∧ m.shape none = .ok s ∧ n.shape none = .ok t ∧
      ¬ s.enumEntries.Perm t.enumEntries

/-- Equal schemas may give the same values other names, and equal values other texts. -/
theorem Node.unlike_of_same :
    Json.EnumeratedUnlike (.switch [.bool false, .bool true] ["off", "on"] ["a"])
      (.switch [.bool false, .bool true] ["on", "off"] ["a"]) ∧
    Json.EnumeratedUnlike (.switch [.object [("x", .null), ("y", .null)]] [] ["a"])
      (.switch [.object [("y", .null), ("x", .null)]] [] ["a"]) ∧
    Json.EnumeratedUnlike (.switch [.number (.float (.zero false))] [] ["a"])
      (.switch [.number (.float (.zero true))] [] ["a"]) := by
  have unlike {v w : Json} (hv : v.hasDistinctNames = true) (hw : w.hasDistinctNames = true)
      (hevaluated : ((decode v).toOption.any fun m => (decode w).toOption.any fun n =>
        m.sameFully n && (m.shape none).toOption.any fun s => (n.shape none).toOption.any fun t =>
          !decide (s.enumEntries.Perm t.enumEntries)) = true) : v.EnumeratedUnlike w := by
    obtain ⟨m, hm, hevaluated⟩ := exists_of_any_toOption hevaluated
    obtain ⟨n, hn, hevaluated⟩ := exists_of_any_toOption hevaluated
    rw [Bool.and_eq_true, ← same_eq_sameFully] at hevaluated
    obtain ⟨hsame, hevaluated⟩ := hevaluated
    obtain ⟨s, hs, hevaluated⟩ := exists_of_any_toOption hevaluated
    obtain ⟨t, ht, hevaluated⟩ := exists_of_any_toOption hevaluated
    exact ⟨hv, hw, m, n, s, t, hm, hn, hsame, hs, ht, by simpa using hevaluated⟩
  exact ⟨unlike (by decide) (by decide) (by decide +kernel),
    unlike (by decide) (by decide) (by decide +kernel),
    unlike (by decide) (by decide) (by decide +kernel)⟩

end SchemaCatalog
