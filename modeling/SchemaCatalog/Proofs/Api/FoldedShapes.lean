import SchemaCatalog.Proofs.Api.Shapes
import SchemaCatalog.Proofs.Schema.FoldedTrees

/-!
# The shapes of folded schemas

Projection and folding both make one of what a merged schema repeats, each by rules of its own.
Where a first keyword stands for its term when the keywords are folded (`Term.stands`), it is also
the first keyword that projection asks (`Keyword.findSome?_foldWith`).  What projection collects
from all keywords of one name is what it collects from the folded ones, as soon as that is so of two
keywords that become one (`Keyword.flatMap_foldWith`): this holds of the names of types, of
branches, and of named schemas as long as no two that are shown have one name.

Of `required` projection asks the first keyword alone, whereas folding unites the lists
(`Node.requiresMore`).
-/

namespace SchemaCatalog

open Api

variable {ks r : List Keyword}

/-! ## The keywords of one term -/

/-- Whether the first keyword of a term stays as it is when later ones are folded in. -/
def Term.stands : Term → Bool
  | .keyed _ | .type | .required => false
  | .ordered kind => kind = .items
  | _ => true

namespace Keyword

variable {eq : Node → Node → Bool}

lemma absorbWith_of_stands {j : Keyword} {t : Term} (hj : j.term? = some t)
    (ht : t.stands = true) (k : Keyword) : j.absorbWith eq k = .ok j := by
  cases j with
  | keyed kind members =>
    obtain rfl := Option.some.inj hj
    cases ht
  | ordered kind schemas =>
    obtain rfl := Option.some.inj hj
    obtain rfl : kind = .items := of_decide_eq_true ht
    cases k <;> simp [absorbWith]
  | facet a =>
    cases k with
    | facet b =>
      cases a with
      | type _ => obtain rfl := Option.some.inj hj; cases ht
      | required _ => obtain rfl := Option.some.inj hj; cases ht
      | _ => cases b <;> rfl
    | _ => rfl
  | _ => cases k <;> rfl

/-- A question that exactly the keywords of one term answer is answered by the first of them. -/
lemma findSome?_eq {α : Type} {f : Keyword → Option α} {t : Term}
    (hf : ∀ k, (f k).isSome = true ↔ k.term? = some t) (hks : ∀ k ∈ ks, k.Proper) :
    ks.findSome? f = (ks.find? (·.name = t.name)).bind f := by
  induction ks with
  | nil => rfl
  | cons k ks ih =>
    obtain ⟨hk, hks⟩ := List.forall_mem_cons.1 hks
    by_cases hname : k.name = t.name
    · obtain ⟨a, ha⟩ := Option.isSome_iff_exists.1 ((hf k).2 (hk.name_eq_iff.1 hname))
      simp [hname, ha]
    · have hnone : f k = none := by
        rw [← Option.not_isSome_iff_eq_none, hf, ← hk.name_eq_iff]
        exact hname
      simpa [hname, hnone] using ih hks

/-- Folding keeps the answer to a question about a term whose first keyword stands. -/
lemma findSome?_foldWith {α : Type} {f : Keyword → Option α} {t : Term}
    (hf : ∀ k, (f k).isSome = true ↔ k.term? = some t) (ht : t.stands = true)
    (hks : ∀ k ∈ ks, k.Proper) (hfold : foldWith eq ks = .ok r) :
    r.findSome? f = ks.findSome? f := by
  rw [findSome?_eq hf hks, findSome?_eq hf (Proper.fold hfold hks), find?_foldWith ?_ hfold]
  exact fun j hj hname k _ => absorbWith_of_stands ((hks j hj).name_eq_iff.1 hname) ht k

end Keyword

/-! ## What a frame is made of -/

namespace Node

variable {n m : Node}

/-- What two nodes must have in common for the same frame. -/
structure FrameLike (m n : Node) : Prop where
  isEmpty : m.isEmpty = n.isEmpty
  typeNames : m.typeNames = n.typeNames
  required? : m.required? = n.required?
  count? : ∀ kind, m.count? kind = n.count? kind
  limit? : ∀ kind, m.limit? kind = n.limit? kind
  label? : ∀ kind, m.label? kind = n.label? kind
  flag : ∀ kind, m.flag kind = n.flag kind
  defaultText? : m.defaultText? = n.defaultText?
  declaredValues? : m.declaredValues? = n.declaredValues?
  declaredNames? : m.declaredNames? = n.declaredNames?
  allowsMore : m.allowsMore = n.allowsMore

lemma FrameLike.frame_eq (h : m.FrameLike n) : m.frame = n.frame := by
  funext name items ps qs bs cs
  simp only [frame, valueType, enumeration, h.isEmpty, h.typeNames, h.required?, h.count?,
    h.limit?, h.label?, h.flag, h.defaultText?, h.declaredValues?, h.declaredNames?, h.allowsMore]

lemma firstFacet?_eq {α : Type} (n : Node) (f : Facet → Option α) :
    n.firstFacet? f = n.keywords.findSome? fun k => k.facet?.bind f := by
  rw [firstFacet?, facets]
  induction n.keywords with
  | nil => rfl
  | cons k ks ih =>
    rw [List.filterMap_cons, List.findSome?_cons, ← ih]
    cases k.facet? with
    | none => rfl
    | some a => rw [List.findSome?_cons]; rfl

end Node

/-! ## Collections of all keywords of a name -/

/-- What is collected from all keywords of one name compares to what is collected from the folded
ones as a keyword compares to two that it absorbs. -/
lemma Keyword.flatMap_foldWith {β : Type} {eq : Node → Node → Bool} {g : Keyword → List β}
    {s : String} {Q : List β → List β → Prop} (refl : ∀ l, Q l l)
    (trans : ∀ l l' l'', Q l l' → Q l' l'' → Q l l'') (hg : ∀ k, k.name ≠ s → g k = [])
    (absorb : ∀ j k i rest, j.Proper → k.Proper → j.name = s → k.name = s →
      j.absorbWith eq k = .ok i → Q (g i ++ rest) (g j ++ (g k ++ rest)))
    (hks : ∀ k ∈ ks, k.Proper) (hfold : foldWith eq ks = .ok r) :
    Q (r.flatMap g) (ks.flatMap g) := by
  have focus (ks : List Keyword) : ks.flatMap g = (ks.filter (·.name = s)).flatMap g := by
    induction ks with
    | nil => rfl
    | cons k ks ih =>
      by_cases hname : k.name = s
      · simp [hname, ih]
      · simp [hname, ih, hg k hname]
  rw [focus, focus ks]
  have hnamed : ∀ k ∈ ks.filter (·.name = s), k.Proper ∧ k.name = s := by
    intro k hk
    obtain ⟨hk, hname⟩ := List.mem_filter.1 hk
    exact ⟨hks k hk, of_decide_eq_true hname⟩
  rcases filter_foldWith hfold s with ⟨hks, hr⟩ | ⟨j, js, i, hks, hrun, hr⟩
  · rw [hks, hr]
    exact refl _
  · rw [hr]
    rw [hks] at hnamed ⊢
    clear hks hr
    induction js generalizing j with
    | nil =>
      obtain rfl := Except.ok.inj hrun
      exact refl _
    | cons k js ih =>
      obtain ⟨j', hj', hrun⟩ := bind_eq_ok_iff.1 hrun
      simp only [List.forall_mem_cons] at hnamed
      obtain ⟨⟨hj, hjname⟩, ⟨hk, hkname⟩, hjs⟩ := hnamed
      refine trans _ _ _ (ih j' ?_ hrun) ?_
      · exact List.forall_mem_cons.2 ⟨⟨hj.absorb hk hj', (name_absorbWith hj').trans hjname⟩, hjs⟩
      · exact absorb j k j' (js.flatMap g) hj hk hjname hkname hj'

/-! ### Names of types -/

/-- The names of types of a keyword. -/
def Keyword.typesOf : Keyword → List String
  | .facet (.type names) => names
  | _ => []

lemma Node.typeNames_eq (n : Node) :
    n.typeNames = uniteNames [] (n.keywords.flatMap Keyword.typesOf) := by
  have unite (more : List String) (names : List String) :
      more.foldl (fun names s => if s ∈ names then names else names ++ [s]) names =
        uniteNames names more := by
    induction more generalizing names with
    | nil => rfl
    | cons s more ih =>
      rw [List.foldl_cons, ih, uniteNames]
      split <;> rfl
  have run (step : List String → Facet → List String)
      (hstep : ∀ names a, step names a = uniteNames names (Keyword.facet a).typesOf)
      (names : List String) : (n.keywords.filterMap Keyword.facet?).foldl step names =
        uniteNames names (n.keywords.flatMap Keyword.typesOf) := by
    induction n.keywords generalizing names with
    | nil => rfl
    | cons k ks ih =>
      rw [List.flatMap_cons, uniteNames_append, ← ih, List.filterMap_cons]
      cases k with
      | facet a => exact congrArg (fun names => List.foldl step names _) (hstep names a)
      | _ => rfl
  refine run _ (fun names a => ?_) []
  cases a with
  | type more => exact unite more names
  | _ => rfl

lemma Node.typeNames_fold {n : Node} (hks : ∀ k ∈ n.keywords, k.Proper)
    (hfold : n.foldedKeywords = .ok ks) : (ofKeywords ks).typeNames = n.typeNames := by
  rw [typeNames_eq, typeNames_eq]
  refine Keyword.flatMap_foldWith (s := Term.type.name)
    (Q := fun l l' => uniteNames [] l = uniteNames [] l') (fun _ => rfl)
    (fun _ _ _ h h' => h.trans h') ?_ ?_ hks hfold
  · intro k hname
    cases k with
    | facet a =>
      cases a with
      | type names => exact absurd rfl hname
      | _ => rfl
    | _ => rfl
  · intro j k i rest hj hk hjname hkname hi
    obtain ⟨a, rfl⟩ := Keyword.eq_type_of_term? (hj.name_eq_iff.1 hjname)
    obtain ⟨b, rfl⟩ := Keyword.eq_type_of_term? (hk.name_eq_iff.1 hkname)
    obtain rfl := Except.ok.inj hi
    calc uniteNames [] (uniteNames a b ++ rest)
        = uniteNames (uniteNames [] (uniteNames a b)) rest := uniteNames_append _ _ _
      _ = uniteNames [] (a ++ (b ++ rest)) := by
        rw [uniteNames_uniteNames, uniteNames_append, uniteNames_append]

/-! ### Required names -/

/-- The payload of a `required` keyword, in a list. -/
def Keyword.requiredOf : Keyword → List Required
  | .facet (.required r) => [r]
  | _ => []

/-- Whether a later payload of `required` names a property that the first one, a list too, does not
name. -/
def Required.addsNames : List Required → Bool
  | .properties first :: later => later.any fun r => r.names.any fun s => s ∉ first
  | _ => false

/-- Whether a later `required` of a schema requires a property that its first one does not. -/
def Node.requiresMore (n : Node) : Bool :=
  Required.addsNames (n.keywords.flatMap Keyword.requiredOf)

lemma Node.required?_eq (n : Node) :
    n.required? = (n.keywords.flatMap Keyword.requiredOf).head? := by
  rw [required?, firstFacet?_eq]
  induction n.keywords with
  | nil => rfl
  | cons k ks ih =>
    rw [List.findSome?_cons, List.flatMap_cons, List.head?_append, ← ih]
    cases k with
    | facet a => cases a <;> rfl
    | _ => rfl

/-- Folding keeps the first `required` unless a later one requires more. -/
lemma Node.required?_fold {n : Node} (hmore : n.requiresMore = false)
    (hks : ∀ k ∈ n.keywords, k.Proper) (hfold : n.foldedKeywords = .ok ks) :
    (ofKeywords ks).required? = n.required? := by
  rw [required?_eq, required?_eq]
  suffices hkept : Required.addsNames (n.keywords.flatMap Keyword.requiredOf) = false →
      Required.addsNames (ks.flatMap Keyword.requiredOf) = false ∧
        (ks.flatMap Keyword.requiredOf).head? = (n.keywords.flatMap Keyword.requiredOf).head? from
    (hkept hmore).2
  refine Keyword.flatMap_foldWith (s := Term.required.name)
    (Q := fun l l' => Required.addsNames l' = false →
      Required.addsNames l = false ∧ l.head? = l'.head?) (fun _ h => ⟨h, rfl⟩) ?_ ?_ ?_ hks hfold
  · intro l l' l'' h h' hmore
    obtain ⟨hmore, hhead⟩ := h' hmore
    exact ⟨(h hmore).1, (h hmore).2.trans hhead⟩
  · intro k hname
    cases k with
    | facet a =>
      cases a with
      | required r => exact absurd rfl hname
      | _ => rfl
    | _ => rfl
  · intro j k i rest hj hk hjname hkname hi hmore
    obtain ⟨a, rfl⟩ := Keyword.eq_required_of_term? (hj.name_eq_iff.1 hjname)
    obtain ⟨b, rfl⟩ := Keyword.eq_required_of_term? (hk.name_eq_iff.1 hkname)
    obtain rfl := Except.ok.inj hi
    cases a with
    | flag x => exact ⟨rfl, rfl⟩
    | properties first =>
      simp only [Keyword.requiredOf, List.cons_append, List.nil_append, Required.addsNames,
        List.any_cons, Bool.or_eq_false_iff] at hmore
      have hfirst : (Facet.required (.properties first)).absorb (.required b) =
          .required (.properties first) := by
        cases b with
        | flag x => rfl
        | properties names =>
          rw [Facet.absorb, uniteNames_of_mem]
          simpa [Required.names] using hmore.1
      rw [hfirst]
      exact ⟨hmore.2, rfl⟩

/-! ### Branches and named schemas -/

lemma Node.shownBranches_fold {n : Node} {kind : OrderedKind} (hkind : kind ≠ .items)
    (hks : ∀ k ∈ n.keywords, k.Proper) (hfold : n.foldedKeywords = .ok ks) :
    (ofKeywords ks).shownBranches kind = n.shownBranches kind := by
  rw [shownBranches, shownBranches]
  congr 1
  refine Keyword.flatMap_foldWith (s := (Term.ordered kind).name) (Q := Eq) (fun _ => rfl)
    (fun _ _ _ h h' => h.trans h') ?_ ?_ hks hfold
  · intro k hname
    cases k with
    | ordered kind' schemas =>
      rw [Keyword.branchesOf, if_neg]
      rintro rfl
      exact hname rfl
    | _ => rfl
  · intro j k i rest hj hk hjname hkname hi
    obtain ⟨a, rfl⟩ := Keyword.eq_ordered_of_term? (hj.name_eq_iff.1 hjname)
    obtain ⟨b, rfl⟩ := Keyword.eq_ordered_of_term? (hk.name_eq_iff.1 hkname)
    obtain rfl := Except.ok.inj hi
    simp [Keyword.branchesOf, hkind]

lemma Keyword.isEmpty_foldWith {eq : Node → Node → Bool} (h : foldWith eq ks = .ok r) :
    r.isEmpty = ks.isEmpty := by
  have hmem (s : String) := mem_names_foldWith h (s := s)
  cases r with
  | nil =>
    cases ks with
    | nil => rfl
    | cons k ks => exact absurd ((hmem k.name).2 List.mem_cons_self) List.not_mem_nil
  | cons k r =>
    cases ks with
    | nil => exact absurd ((hmem k.name).1 List.mem_cons_self) List.not_mem_nil
    | cons k' ks => rfl

lemma Node.isEmpty_of_same {m n : Node} (h : m.same n = true) : m.isEmpty = n.isEmpty := by
  have length {a b : List Keyword} {eq : Keyword → Keyword → Bool}
      (h : sameElements eq a b = true) : a.isEmpty = b.isEmpty := by
    have hlength : a.length = b.length := by
      simpa using (Bool.and_eq_true_iff.1 h).1
    cases a <;> cases b <;> simp_all
  rw [same_eq_sameWith, sameWith] at h
  have h := (Bool.and_eq_true_iff.1 h).2
  split at h
  case h_1 a b ha hb =>
    rw [isEmpty, isEmpty, ← Keyword.isEmpty_foldWith ha, ← Keyword.isEmpty_foldWith hb]
    exact length h
  case h_2 => exact length h

/-- Named schemas that are united are shown one after the other, if their names are distinct: those
that are left out because they have the name of another are empty. -/
lemma shown_uniteWith {keyword : String} {a b c : List (String × Node)}
    (h : uniteWith Node.same keyword a b = .ok c)
    (hnodup : (OrderedMap.keys ((a ++ b).filter fun e => !e.2.isEmpty)).Nodup) :
    c.filter (fun e => !e.2.isEmpty) = (a ++ b).filter fun e => !e.2.isEmpty := by
  induction b generalizing a with
  | nil =>
    obtain rfl := Except.ok.inj h
    rw [List.append_nil]
  | cons e b ih =>
    obtain ⟨key, n⟩ := e
    rw [uniteWith] at h
    split at h
    case h_2 => simpa using ih h (by simpa using hnodup)
    case h_1 m hm =>
      split at h
      case isFalse => cases h
      case isTrue hsame =>
        cases hempty : n.isEmpty with
        | true =>
          have hskip : (a ++ (key, n) :: b).filter (fun e => !e.2.isEmpty) =
              (a ++ b).filter fun e => !e.2.isEmpty := by simp [hempty]
          rw [hskip] at hnodup ⊢
          exact ih h hnodup
        | false =>
          -- The schema that has the name already is shown, and so would this one be.
          have hshown : (key, m) ∈ a.filter fun e => !e.2.isEmpty := by
            simp [OrderedMap.mem_of_get?_eq_some hm, Node.isEmpty_of_same hsame, hempty]
          have htwice : key ∈ OrderedMap.keys (a.filter fun e => !e.2.isEmpty) :=
            List.mem_map_of_mem hshown
          simp only [List.filter_append, OrderedMap.keys, List.map_append,
            List.nodup_append] at hnodup
          refine absurd rfl (hnodup.2.2 key htwice key ?_)
          simp [hempty]

/-- Folding keeps the named schemas that are shown, if their names are distinct. -/
lemma Node.shownEntries_fold {n : Node} {kind : KeyedKind} (hkind : kind.isPositional = false)
    (hnodup : (OrderedMap.keys (n.shownEntries kind)).Nodup)
    (hks : ∀ k ∈ n.keywords, k.Proper) (hfold : n.foldedKeywords = .ok ks) :
    (ofKeywords ks).shownEntries kind = n.shownEntries kind := by
  rw [shownEntries, entries_eq] at hnodup ⊢
  rw [shownEntries, entries_eq]
  revert hnodup
  refine Keyword.flatMap_foldWith (s := (Term.keyed kind).name)
    (Q := fun (l l' : List (String × Node)) =>
      (OrderedMap.keys (l'.filter fun e => !e.2.isEmpty)).Nodup →
        l.filter (fun e => !e.2.isEmpty) = l'.filter fun e => !e.2.isEmpty) (fun _ _ => rfl)
    (fun _ _ _ h h' hnodup => ?_) ?_ ?_ hks hfold
  · rw [h (h' hnodup ▸ hnodup), h' hnodup]
  · intro k hname
    exact Keyword.entriesOf_eq_nil fun members hk => hname (hk ▸ rfl)
  · intro j k i rest hj hk hjname hkname hi hnodup
    obtain ⟨a, rfl⟩ := Keyword.eq_keyed_of_term? (hj.name_eq_iff.1 hjname)
    obtain ⟨b, rfl⟩ := Keyword.eq_keyed_of_term? (hk.name_eq_iff.1 hkname)
    simp only [Keyword.absorbWith, ne_eq, not_true_eq_false, if_false, hkind, Bool.false_eq_true]
      at hi
    obtain ⟨c, hc, rfl⟩ := map_eq_ok_iff.1 hi
    simp only [Keyword.entriesOf, if_true, ← List.append_assoc, List.filter_append (a ++ b)]
      at hnodup ⊢
    rw [List.filter_append, shown_uniteWith hc]
    simp only [OrderedMap.keys, List.map_append, List.nodup_append] at hnodup ⊢
    exact hnodup.1

/-! ## Frames of folded schemas -/

lemma Keyword.exists_eq_facet_of_term? {a : Facet} {k : Keyword} {t : Term}
    (ha : (facet a).term? = some t) (hk : k.term? = some t) : ∃ b, k = .facet b := by
  cases k with
  | facet b => exact ⟨b, rfl⟩
  | _ =>
    cases hk
    cases a <;> cases ha

/-- A schema and its folded keywords are framed alike, unless a later `required` requires more. -/
lemma Node.frameLike_fold {n : Node} (hmore : n.requiresMore = false)
    (hks : ∀ k ∈ n.keywords, k.Proper) (hfold : n.foldedKeywords = .ok ks) :
    (ofKeywords ks).FrameLike n := by
  -- A question about facets is answered by the keywords of the term that one of them, `b`, has.
  have facet {α : Type} {f : Facet → Option α} {t : Term} (b : Facet)
      (hb : (Keyword.facet b).term? = some t) (ht : t.stands = true)
      (hf : ∀ a, (f a).isSome = true ↔ (Keyword.facet a).term? = some t) :
      (ofKeywords ks).firstFacet? f = n.firstFacet? f := by
    rw [firstFacet?_eq, firstFacet?_eq]
    refine Keyword.findSome?_foldWith (fun k => ?_) ht hks hfold
    cases k with
    | facet a => exact hf a
    | _ =>
      refine iff_of_false (by simp [Keyword.facet?]) fun hk => ?_
      obtain ⟨a, ha⟩ := Keyword.exists_eq_facet_of_term? hb hk
      cases ha
  have guard {p : Prop} [Decidable p] {α : Type} {x : α} :
      (if p then some x else none).isSome = true ↔ p := by
    by_cases hp : p <;> simp [hp]
  exact {
    isEmpty := Keyword.isEmpty_foldWith hfold
    typeNames := typeNames_fold hks hfold
    required? := required?_fold hmore hks hfold
    count? := fun kind => facet (.count kind 0) rfl rfl fun a => by
      cases a <;> simp [Keyword.term?, guard, eq_comm]
    limit? := fun kind => facet (.limit kind default) rfl rfl fun a => by
      cases a <;> simp [Keyword.term?, guard, eq_comm]
    label? := fun kind => facet (.label kind "") rfl rfl fun a => by
      cases a <;> simp [Keyword.term?, guard, eq_comm]
    flag := fun kind => congrArg (Option.getD · false) <|
      facet (.flag kind true) rfl rfl fun a => by
        cases a <;> simp [Keyword.term?, guard, eq_comm]
    defaultText? := facet (.default .null) rfl rfl fun a => by
      cases a <;> simp [Keyword.term?]
    declaredValues? := facet (.enum []) rfl rfl fun a => by
      cases a <;> simp [Keyword.term?]
    declaredNames? := facet (.enumNames []) rfl rfl fun a => by
      cases a <;> simp [Keyword.term?]
    allowsMore := by
      refine congrArg (Option.getD · false) ?_
      refine Keyword.findSome?_foldWith (t := .additionalProperties) (fun k => ?_) rfl hks hfold
      cases k with
      | facet a => cases a <;> simp [Keyword.term?]
      | _ => simp [Keyword.term?] }

lemma Node.shownItem?_fold {n : Node} (hks : ∀ k ∈ n.keywords, k.Proper)
    (hfold : n.foldedKeywords = .ok ks) : (ofKeywords ks).shownItem? = n.shownItem? := by
  rw [shownItem?, shownItem?]
  congr 2
  refine Keyword.findSome?_foldWith (t := .ordered .items) (fun k => ?_) rfl hks hfold
  cases k with
  | facet a => cases a <;> simp [Keyword.term?, Keyword.itemOf?]
  | ordered kind schemas => cases kind <;> simp [Keyword.term?, Keyword.itemOf?]
  | _ => simp [Keyword.term?, Keyword.itemOf?]

end SchemaCatalog
