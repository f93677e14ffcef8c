import SchemaCatalog.Proofs.Json.Equality
import SchemaCatalog.Proofs.Schema.Comparable
import SchemaCatalog.Proofs.Schema.FoldedTrees

/-!
# Equality of schemas is an equivalence

Two schemas are compared by their folded keywords if both can be folded, and by their keywords as
they stand if one of them cannot.  A relation that is put together from two others in this way has
no reason to be transitive: a middle schema that folds could be compared as folded on the one side
and as it stands on the other.  What saves it is that whether a schema can be folded is itself a
matter of equality.  Folding fails if and only if two keywords of a kind hold different schemas
under one name (`Keyword.exists_foldWith_iff`), and keywords that are the same, in any order, agree
on this (`Keyword.Agree.of_matched`).  So a schema that folds is never equal to one that does not,
and each of the two comparisons is an equivalence on its own side.

The proof goes by levels.  Given a comparison that is an equivalence among some schemas, each
comparison built on it is an equivalence among what holds such schemas only: of members
(`EquivalenceOn.members`), of keywords (`EquivalenceOn.keywords`) and of schemas
(`EquivalenceOn.nodes`).  Equality of schemas is the comparison built on itself, one level deeper.
-/

namespace SchemaCatalog

variable {P : Node → Prop} {eq : Node → Node → Bool}

/-! ## Facets -/

lemma equivalenceOn_sameNames :
    EquivalenceOn (fun _ : List String => True) (sameElements (· == ·)) :=
  EquivalenceOn.of_beq.sameElements.mono fun _ _ _ _ => trivial

lemma Required.equivalenceOn_same : EquivalenceOn (fun _ => True) Required.same := by
  refine ⟨Required.same_refl, ?_, ?_⟩
  · intro r s _ _ h
    cases r <;> cases s <;> first | cases h | skip
    case flag.flag =>
      simp only [Required.same, beq_iff_eq] at h ⊢
      exact h.symm
    case properties.properties => exact equivalenceOn_sameNames.symm trivial trivial h
  · intro r s t _ _ _ h h'
    cases r <;> cases s <;> first | cases h | cases t <;> first | cases h' | skip
    case flag.flag.flag => simp_all [Required.same]
    case properties.properties.properties =>
      exact equivalenceOn_sameNames.trans trivial trivial trivial h h'

theorem Facet.equivalenceOn_same : EquivalenceOn Facet.Comparable Facet.same := by
  have tokens : EquivalenceOn (fun _ : List AccessTokenType => True) (sameElements (· == ·)) :=
    EquivalenceOn.of_beq.sameElements.mono fun _ _ _ _ => trivial
  have values := Json.equivalenceOn_same
  refine ⟨Facet.same_refl, ?_, ?_⟩
  · intro a b ha hb h
    cases a <;> cases b <;> first | cases h | skip
    case type.type => exact equivalenceOn_sameNames.symm trivial trivial h
    case required.required => exact Required.equivalenceOn_same.symm trivial trivial h
    case enum.enum =>
      exact values.symm (Json.hasDistinctNames_array.2 ha) (Json.hasDistinctNames_array.2 hb) h
    case enumNames.enumNames => exact equivalenceOn_sameNames.symm trivial trivial h
    case default.default => exact values.symm ha hb h
    case accessTokens.accessTokens => exact tokens.symm trivial trivial h
    case unrecognized.unrecognized =>
      simp only [Facet.same, Bool.and_eq_true, beq_iff_eq] at h ⊢
      exact ⟨h.1.symm, values.symm ha.2 hb.2 h.2⟩
    case limit.limit =>
      simp only [Facet.same, Bool.and_eq_true, beq_iff_eq] at h ⊢
      exact ⟨h.1.symm, by rw [Number.same_comm, h.2]⟩
    all_goals
      simp only [Facet.same, Bool.and_eq_true, beq_iff_eq] at h ⊢
      exact ⟨h.1.symm, h.2.symm⟩
  · intro a b c ha hb hc h h'
    cases a <;> cases b <;> first | cases h | cases c <;> first | cases h' | skip
    case type.type.type => exact equivalenceOn_sameNames.trans trivial trivial trivial h h'
    case required.required.required =>
      exact Required.equivalenceOn_same.trans trivial trivial trivial h h'
    case enum.enum.enum =>
      exact values.trans (Json.hasDistinctNames_array.2 ha) (Json.hasDistinctNames_array.2 hb)
        (Json.hasDistinctNames_array.2 hc) h h'
    case enumNames.enumNames.enumNames =>
      exact equivalenceOn_sameNames.trans trivial trivial trivial h h'
    case default.default.default => exact values.trans ha hb hc h h'
    case accessTokens.accessTokens.accessTokens =>
      exact tokens.trans trivial trivial trivial h h'
    case unrecognized.unrecognized.unrecognized =>
      simp only [Facet.same, Bool.and_eq_true, beq_iff_eq] at h h' ⊢
      exact ⟨h.1.trans h'.1, values.trans ha.2 hb.2 hc.2 h.2 h'.2⟩
    case limit.limit.limit =>
      simp only [Facet.same, Bool.and_eq_true, beq_iff_eq] at h h' ⊢
      exact ⟨h.1.trans h'.1, Number.same_trans h.2 h'.2⟩
    all_goals
      simp only [Facet.same, Bool.and_eq_true, beq_iff_eq] at h h' ⊢
      exact ⟨h.1.trans h'.1, h.2.trans h'.2⟩

/-! ## Keywords -/

lemma sameMembersWith_iff {a b : List (String × Node)} (ha : (OrderedMap.keys a).Nodup)
    (hb : (OrderedMap.keys b).Nodup) :
    sameMembersWith eq a b = true ↔ OrderedMap.SameMap (fun m n => eq m n = true) a b := by
  rw [sameMembersWith, Bool.and_eq_true, beq_iff_eq, List.all_eq_true]
  refine and_congr_right fun _ => forall₂_congr fun e he => ?_
  have hfirst : OrderedMap.get? a e.1 = some e.2 := (OrderedMap.get?_eq_some_iff ha).2 he
  simp only [hfirst, ← OrderedMap.get?_eq_some_iff hb]
  cases OrderedMap.get? b e.1 <;> simp

lemma sameSchemasWith_iff {a b : List Node} :
    sameSchemasWith eq a b = true ↔ List.Forall₂ (fun m n => eq m n = true) a b := by
  induction a generalizing b with
  | nil => cases b <;> simp [sameSchemasWith]
  | cons m a ih => cases b <;> simp [sameSchemasWith, ih]

namespace EquivalenceOn

theorem members (h : EquivalenceOn P eq) :
    EquivalenceOn (fun a => (OrderedMap.keys a).Nodup ∧ AllMembers P a) (sameMembersWith eq) where
  refl := sameMembersWith_refl h.refl
  symm ha hb hab := by
    rw [sameMembersWith_iff ha.1 hb.1] at hab
    rw [sameMembersWith_iff hb.1 ha.1]
    exact hab.symm ha.1 hb.1 fun e he f hf => h.symm (ha.2 e he) (hb.2 f hf)
  trans ha hb hc hab hbc := by
    rw [sameMembersWith_iff ha.1 hb.1] at hab
    rw [sameMembersWith_iff hb.1 hc.1] at hbc
    rw [sameMembersWith_iff ha.1 hc.1]
    exact hab.trans hbc fun e he f hf g hg => h.trans (ha.2 e he) (hb.2 f hf) (hc.2 g hg)

theorem schemas (h : EquivalenceOn P eq) :
    EquivalenceOn (fun a => ∀ n ∈ a, P n) (sameSchemasWith eq) where
  refl := sameSchemasWith_refl h.refl
  symm ha hb hab := by
    rw [sameSchemasWith_iff] at hab ⊢
    exact forall₂_symm hab fun m hm n hn => h.symm (ha m hm) (hb n hn)
  trans ha hb hc hab hbc := by
    rw [sameSchemasWith_iff] at hab hbc ⊢
    exact forall₂_trans hab hbc fun l hl m hm n hn => h.trans (ha l hl) (hb m hm) (hc n hn)

theorem keywords (h : EquivalenceOn P eq) :
    EquivalenceOn (fun k => k.Comparable ∧ k.All P) (Keyword.sameWith eq) := by
  refine ⟨Keyword.sameWith_refl h.refl, ?_, ?_⟩
  · rintro j k ⟨hj, hjP⟩ ⟨hk, hkP⟩ hjk
    cases j <;> cases k <;> first | cases hjk | skip
    case keyed.keyed =>
      simp only [Keyword.sameWith, Bool.and_eq_true, beq_iff_eq] at hjk ⊢
      exact ⟨hjk.1.symm,
        h.members.symm ⟨hj, all_keyed.1 hjP⟩ ⟨hk, all_keyed.1 hkP⟩ hjk.2⟩
    case ordered.ordered =>
      simp only [Keyword.sameWith, Bool.and_eq_true, beq_iff_eq] at hjk ⊢
      exact ⟨hjk.1.symm, h.schemas.symm hjP hkP hjk.2⟩
    case additionalProperties.additionalProperties m n =>
      exact h.symm (hjP m (List.mem_singleton_self m)) (hkP n (List.mem_singleton_self n)) hjk
    case ref.ref =>
      simp only [Keyword.sameWith, beq_iff_eq] at hjk ⊢
      exact hjk.symm
    case facet.facet => exact Facet.equivalenceOn_same.symm hj hk hjk
  · rintro i j k ⟨hi, hiP⟩ ⟨hj, hjP⟩ ⟨hk, hkP⟩ hij hjk
    cases i <;> cases j <;> first | cases hij | cases k <;> first | cases hjk | skip
    case keyed.keyed.keyed =>
      simp only [Keyword.sameWith, Bool.and_eq_true, beq_iff_eq] at hij hjk ⊢
      exact ⟨hij.1.trans hjk.1, h.members.trans ⟨hi, all_keyed.1 hiP⟩ ⟨hj, all_keyed.1 hjP⟩
        ⟨hk, all_keyed.1 hkP⟩ hij.2 hjk.2⟩
    case ordered.ordered.ordered =>
      simp only [Keyword.sameWith, Bool.and_eq_true, beq_iff_eq] at hij hjk ⊢
      exact ⟨hij.1.trans hjk.1, h.schemas.trans hiP hjP hkP hij.2 hjk.2⟩
    case additionalProperties.additionalProperties.additionalProperties l m n =>
      exact h.trans (hiP l (List.mem_singleton_self l)) (hjP m (List.mem_singleton_self m))
        (hkP n (List.mem_singleton_self n)) hij hjk
    case ref.ref.ref =>
      simp only [Keyword.sameWith, beq_iff_eq] at hij hjk ⊢
      exact hij.trans hjk
    case facet.facet.facet => exact Facet.equivalenceOn_same.trans hi hj hk hij hjk

end EquivalenceOn

/-! ## When keywords can be folded -/

namespace Keyword

variable {kind : KeyedKind} {j k i : Keyword} {ks ks' r : List Keyword} {key : String} {m n : Node}

/-- Whether one of some keywords has a schema under a name in a collection of the given kind. -/
def Entry (kind : KeyedKind) (ks : List Keyword) (key : String) (n : Node) : Prop :=
  ∃ members, keyed kind members ∈ ks ∧ (key, n) ∈ members

/-- Whether keywords hold equal schemas wherever a name must lead to one schema. -/
def Agree (eq : Node → Node → Bool) (ks : List Keyword) : Prop :=
  ∀ kind key m n, kind.isPositional = false →
    Entry kind ks key m → Entry kind ks key n → eq m n = true

lemma entry_append : Entry kind (ks ++ ks') key n ↔ Entry kind ks key n ∨ Entry kind ks' key n := by
  simp only [Entry, List.mem_append, or_and_right, exists_or]

lemma entry_singleton :
    Entry kind [k] key n ↔ ∃ members, k = keyed kind members ∧ (key, n) ∈ members := by
  simp only [Entry, List.mem_singleton, eq_comm]

lemma exists_uniteWith {keyword : String} {a b : List (String × Node)}
    (hb : (OrderedMap.keys b).Nodup)
    (agree : ∀ e ∈ a, ∀ f ∈ b, e.1 = f.1 → eq e.2 f.2 = true) :
    ∃ r, uniteWith eq keyword a b = .ok r := by
  induction b generalizing a with
  | nil => exact ⟨a, rfl⟩
  | cons f b ih =>
    obtain ⟨key, n⟩ := f
    obtain ⟨hkey, hb⟩ := List.nodup_cons.1 hb
    have hrest : ∀ e ∈ a, ∀ f ∈ b, e.1 = f.1 → eq e.2 f.2 = true := fun e he f hf =>
      agree e he f (List.mem_cons_of_mem _ hf)
    rw [uniteWith]
    split
    case h_1 m hm =>
      have hmn : eq m n = true :=
        agree (key, m) (OrderedMap.mem_of_get?_eq_some hm) (key, n) List.mem_cons_self rfl
      rw [if_pos hmn]
      exact ih hb hrest
    case h_2 =>
      refine ih hb fun e he f hf hef => ?_
      rcases List.mem_append.1 he with he | he
      · exact hrest e he f hf hef
      · obtain rfl := List.mem_singleton.1 he
        have hmem : f.1 ∈ OrderedMap.keys b := OrderedMap.mem_keys_of_mem hf
        exact absurd (hef ▸ hmem) hkey

/-- Each schema of the collections united is the same as the one under its name in the union. -/
lemma exists_of_uniteWith {keyword : String} {a b r : List (String × Node)}
    (refl : ∀ n, eq n n = true) (h : uniteWith eq keyword a b = .ok r) :
    (∀ e ∈ a, e ∈ r) ∧ ∀ f ∈ b, ∃ m, (f.1, m) ∈ r ∧ eq m f.2 = true := by
  induction b generalizing a with
  | nil =>
    obtain rfl := Except.ok.inj h
    exact ⟨fun e he => he, fun f hf => absurd hf List.not_mem_nil⟩
  | cons f b ih =>
    obtain ⟨key, n⟩ := f
    rw [uniteWith] at h
    split at h
    case h_1 m hm =>
      split at h
      case isFalse => cases h
      case isTrue hmn =>
        obtain ⟨hkept, hfound⟩ := ih h
        refine ⟨hkept, List.forall_mem_cons.2 ⟨⟨m, ?_, hmn⟩, hfound⟩⟩
        exact hkept _ (OrderedMap.mem_of_get?_eq_some hm)
    case h_2 =>
      obtain ⟨hkept, hfound⟩ := ih h
      refine ⟨fun e he => hkept e (List.mem_append_left _ he), ?_⟩
      refine List.forall_mem_cons.2 ⟨⟨n, ?_, refl n⟩, hfound⟩
      exact hkept _ (List.mem_append_right _ (List.mem_singleton_self _))

/-- What a keyword holds after it has absorbed another one of its name: its own schemas, schemas of
the other one, and one that is the same for each of those. -/
lemma entry_absorbWith (refl : ∀ n, eq n n = true) (hpositional : kind.isPositional = false)
    (hj : j.Comparable) (hk : k.Comparable) (hname : j.name = k.name)
    (h : j.absorbWith eq k = .ok i) (key : String) :
    (∀ n, Entry kind [i] key n → Entry kind [j] key n ∨ Entry kind [k] key n) ∧
      (∀ n, Entry kind [j] key n → Entry kind [i] key n) ∧
        ∀ n, Entry kind [k] key n → ∃ m, Entry kind [i] key m ∧ eq m n = true := by
  simp only [entry_singleton]
  by_cases hkind : j.name = kind.name
  · obtain ⟨a, rfl⟩ := hj.eq_keyed hkind
    obtain ⟨b, rfl⟩ := hk.eq_keyed (hname.symm.trans hkind)
    simp only [absorbWith, ne_eq, not_true_eq_false, if_false, hpositional, Bool.false_eq_true]
      at h
    obtain ⟨united, hunited, rfl⟩ := map_eq_ok_iff.1 h
    obtain ⟨hkept, hfound⟩ := exists_of_uniteWith refl hunited
    simp only [keyed.injEq, true_and, exists_eq_left']
    exact ⟨fun n hn => (uniteWith_eq_ok hunited).2 _ hn, fun n hn => hkept _ hn,
      fun n hn => hfound _ hn⟩
  · have none {l : Keyword} (hl : l.name = j.name) (members : List (String × Node)) :
        l ≠ keyed kind members := by
      rintro rfl
      exact hkind hl.symm
    simp only [none (name_absorbWith h), none rfl, none hname.symm, false_and, exists_false,
      or_false, false_imp_iff, implies_true, and_self]

/-- What folded keywords hold: schemas of the keywords that were folded, and one that is the same
for each of theirs. -/
lemma entry_foldWith (refl : ∀ n, eq n n = true) (hpositional : kind.isPositional = false)
    (hks : ∀ k ∈ ks, k.Comparable) (h : foldWith eq ks = .ok r) (key : String) :
    (∀ n, Entry kind r key n → Entry kind ks key n) ∧
      ∀ n, Entry kind ks key n → ∃ m, Entry kind r key m ∧ eq m n = true := by
  refine (foldWith_induction (motive := fun done r => (∀ k ∈ done, k.Comparable) →
    (∀ k ∈ r, k.Comparable) ∧ (∀ n, Entry kind r key n → Entry kind done key n) ∧
      ∀ n, Entry kind done key n → ∃ m, Entry kind r key m ∧ eq m n = true) ?_ ?_ ?_ h hks).2
  · exact fun h => ⟨h, fun n hn => hn, fun n hn => ⟨n, hn, refl n⟩⟩
  · intro done r k ih _ hdone
    rw [List.forall_mem_append, List.forall_mem_singleton] at hdone
    obtain ⟨hr, hback, hforth⟩ := ih hdone.1
    refine ⟨List.forall_mem_append.2 ⟨hr, List.forall_mem_singleton.2 hdone.2⟩, ?_, ?_⟩
    · intro n hn
      rw [entry_append] at hn ⊢
      exact hn.imp_left (hback n)
    · intro n hn
      rcases entry_append.1 hn with hn | hn
      · obtain ⟨m, hm, hmn⟩ := hforth n hn
        exact ⟨m, entry_append.2 (.inl hm), hmn⟩
      · exact ⟨n, entry_append.2 (.inr hn), refl n⟩
  · intro done before j after k i ih hname _ hi hdone
    rw [List.forall_mem_append, List.forall_mem_singleton] at hdone
    obtain ⟨hr, hback, hforth⟩ := ih hdone.1
    rw [List.forall_mem_append, List.forall_mem_cons] at hr
    obtain ⟨hbefore, hj, hafter⟩ := hr
    obtain ⟨hnew, hkept, hfound⟩ :=
      entry_absorbWith refl hpositional hj hdone.2 hname hi key
    -- the keyword that absorbs apart from the others
    have split (l : Keyword) (n : Node) : Entry kind (before ++ l :: after) key n ↔
        Entry kind [l] key n ∨ Entry kind (before ++ after) key n := by
      rw [← List.singleton_append, entry_append, entry_append, entry_append]
      tauto
    have last (n : Node) : Entry kind (done ++ [k]) key n ↔
        Entry kind done key n ∨ Entry kind [k] key n := entry_append
    simp only [split, last] at hback hforth ⊢
    refine ⟨List.forall_mem_append.2 ⟨hbefore, List.forall_mem_cons.2 ⟨hj.absorb hi, hafter⟩⟩,
      ?_, ?_⟩
    · rintro n (hn | hn)
      · exact (hnew n hn).imp_left fun hn => hback n (.inl hn)
      · exact .inl (hback n (.inr hn))
    · rintro n (hn | hn)
      · obtain ⟨m, hm, hmn⟩ := hforth n hn
        exact ⟨m, hm.imp_left (hkept m), hmn⟩
      · obtain ⟨m, hm, hmn⟩ := hfound n hn
        exact ⟨m, .inl hm, hmn⟩

lemma eq_of_entry_foldWith (hks : ∀ k ∈ ks, k.Comparable) (h : foldWith eq ks = .ok r)
    (hm : Entry kind r key m) (hn : Entry kind r key n) : m = n := by
  obtain ⟨a, ha, hm⟩ := hm
  obtain ⟨b, hb, hn⟩ := hn
  obtain ⟨-, rfl⟩ := keyed.inj
    (List.inj_on_of_nodup_map (names_foldWith_nodup h) ha hb (show name _ = name _ from rfl))
  have hnodup : (OrderedMap.keys a).Nodup := Comparable.fold h hks _ ha
  exact OrderedMap.eq_of_mem hnodup hm hn

lemma exists_foldInWith (h : ∀ j ∈ ks, j.name = k.name → ∃ i, j.absorbWith eq k = .ok i) :
    ∃ r, foldInWith eq ks k = .ok r := by
  induction ks with
  | nil => exact ⟨[k], rfl⟩
  | cons j ks ih =>
    obtain ⟨hj, hks⟩ := List.forall_mem_cons.1 h
    rw [foldInWith]
    split
    case isTrue hname =>
      obtain ⟨i, hi⟩ := hj hname
      exact ⟨i :: ks, map_eq_ok_iff.2 ⟨i, hi, rfl⟩⟩
    case isFalse =>
      obtain ⟨r, hr⟩ := ih hks
      exact ⟨j :: r, map_eq_ok_iff.2 ⟨r, hr, rfl⟩⟩

/-- A keyword can absorb another one that agrees with it. -/
lemma exists_absorbWith (hk : k.Comparable) (agree : ∀ kind key m n, kind.isPositional = false →
    Entry kind [j] key m → Entry kind [k] key n → eq m n = true) :
    ∃ i, j.absorbWith eq k = .ok i := by
  cases j with
  | keyed kind a =>
    cases k with
    | keyed kind' b =>
      simp only [absorbWith]
      by_cases hkind : kind = kind'
      · subst hkind
        cases hpositional : kind.isPositional with
        | true => exact ⟨.keyed kind (appendWith eq a b), by simp⟩
        | false =>
          have hab : ∀ e ∈ a, ∀ f ∈ b, e.1 = f.1 → eq e.2 f.2 = true := fun e he f hf hef =>
            agree kind e.1 e.2 f.2 hpositional ⟨a, List.mem_singleton_self _, he⟩
              ⟨b, List.mem_singleton_self _, hef ▸ hf⟩
          obtain ⟨r, hr⟩ : ∃ r, uniteWith eq kind.name a b = .ok r := exists_uniteWith hk hab
          exact ⟨.keyed kind r, by simp [hr]⟩
      · exact ⟨.keyed kind a, if_pos hkind⟩
    | _ => exact ⟨_, rfl⟩
  | ordered kind schemas => cases k <;> exact ⟨_, rfl⟩
  | facet a => cases k <;> exact ⟨_, rfl⟩
  | _ => cases k <;> exact ⟨_, rfl⟩

/-- Keywords can be folded if and only if they agree wherever a name must lead to one schema. -/
theorem exists_foldWith_iff (h : EquivalenceOn P eq)
    (hks : ∀ k ∈ ks, k.Comparable ∧ k.All P) :
    (∃ r, foldWith eq ks = .ok r) ↔ Agree eq ks := by
  have hcomparable : ∀ k ∈ ks, k.Comparable := fun k hk => (hks k hk).1
  have holds {kind : KeyedKind} {key : String} {n : Node} (hn : Entry kind ks key n) : P n := by
    obtain ⟨members, hmembers, hn⟩ := hn
    exact all_keyed.1 (hks _ hmembers).2 _ hn
  constructor
  · rintro ⟨r, hr⟩ kind key m n hpositional hm hn
    obtain ⟨hback, hforth⟩ := entry_foldWith h.refl hpositional hcomparable hr key
    obtain ⟨m', hm', hmm⟩ := hforth m hm
    obtain ⟨n', hn', hnn⟩ := hforth n hn
    -- both are the same as the one schema that is left under the name
    obtain rfl := eq_of_entry_foldWith hcomparable hr hm' hn'
    have hP : P m' := holds (hback m' hm')
    exact h.trans (holds hm) hP (holds hn) (h.symm hP (holds hm) hmm) hnn
  · intro hagree
    induction ks using List.reverseRecOn with
    | nil => exact ⟨[], rfl⟩
    | append_singleton ks k ih =>
      rw [List.forall_mem_append, List.forall_mem_singleton] at hks hcomparable
      have hagree' : Agree eq ks := fun kind key m n hpositional hm hn =>
        hagree kind key m n hpositional (entry_append.2 (.inl hm)) (entry_append.2 (.inl hn))
      obtain ⟨r, hr⟩ := ih hks.1 hcomparable.1
        (fun hn => holds (entry_append.2 (.inl hn))) hagree'
      obtain ⟨r', hr'⟩ : ∃ r', foldInWith eq r k = .ok r' := by
        refine exists_foldInWith fun j hj _ => exists_absorbWith hcomparable.2 ?_
        intro kind key m n hpositional hm hn
        obtain ⟨hback, -⟩ := entry_foldWith h.refl hpositional hcomparable.1 hr key
        have hm' : Entry kind r key m := by
          obtain ⟨members, rfl, hmember⟩ := entry_singleton.1 hm
          exact ⟨members, hj, hmember⟩
        exact hagree kind key m n hpositional (entry_append.2 (.inl (hback m hm')))
          (entry_append.2 (.inr hn))
      refine ⟨r', ?_⟩
      rw [foldWith] at hr ⊢
      rw [List.foldlM_append, hr]
      exact (bind_pure (foldInWith eq r k)).trans hr'

/-- Keywords that are the same in any order agree if one side does. -/
theorem Agree.of_matched (h : EquivalenceOn P eq) (hks : ∀ k ∈ ks, k.Comparable ∧ k.All P)
    (hks' : ∀ k ∈ ks', k.Comparable ∧ k.All P) (hmatched : Matched (sameWith eq · ·) ks ks')
    (hagree : Agree eq ks) : Agree eq ks' := by
  have follow {kind : KeyedKind} {key : String} {n : Node} (hn : Entry kind ks' key n) :
      P n ∧ ∃ m, P m ∧ Entry kind ks key m ∧ eq m n = true := by
    obtain ⟨members, hmembers, hn⟩ := hn
    obtain ⟨k, hk, hsame⟩ := hmatched.exists_left hmembers
    cases k with
    | keyed kind' members' =>
      simp only [sameWith, Bool.and_eq_true, beq_iff_eq] at hsame
      obtain ⟨rfl, hsame⟩ := hsame
      obtain ⟨hnodup, hall⟩ := hks _ hk
      obtain ⟨hnodup', hall'⟩ := hks' _ hmembers
      have hback := h.members.symm ⟨hnodup, all_keyed.1 hall⟩ ⟨hnodup', all_keyed.1 hall'⟩ hsame
      rw [sameMembersWith_iff hnodup' hnodup] at hback
      obtain ⟨m, hm, hnm⟩ := hback.2 _ hn
      have hPm : P m := all_keyed.1 hall _ hm
      have hPn : P n := all_keyed.1 hall' _ hn
      exact ⟨hPn, m, hPm, ⟨members', hk, hm⟩, h.symm hPn hPm hnm⟩
    | _ => cases hsame
  intro kind key m n hpositional hm hn
  obtain ⟨hPm, m', hPm', hm', hmm⟩ := follow hm
  obtain ⟨hPn, n', hPn', hn', hnn⟩ := follow hn
  have hsame : eq m' n' = true := hagree kind key m' n' hpositional hm' hn'
  exact h.trans hPm hPm' hPn (h.symm hPm' hPm hmm) (h.trans hPm' hPn' hPn hsame hnn)

end Keyword

/-! ## Schemas -/

namespace EquivalenceOn

lemma keywords_fold {ks r : List Keyword} (hks : ∀ k ∈ ks, k.Comparable ∧ k.All P)
    (hr : Keyword.foldWith eq ks = .ok r) : ∀ k ∈ r, k.Comparable ∧ k.All P := by
  have hcomparable := Keyword.Comparable.fold hr fun k hk => (hks k hk).1
  have hall := (Keyword.foldWith_congr (fun _ _ _ _ => rfl) fun k hk => (hks k hk).2).2 r hr
  exact fun k hk => ⟨hcomparable k hk, hall k hk⟩

/-- Schemas are the same if their folded keywords can be matched, or if neither can be folded and
their keywords can be matched as they stand. -/
theorem sameWith_iff (h : EquivalenceOn P eq) {m n : Node}
    (hm : ∀ k ∈ m.keywords, k.Comparable ∧ k.All P)
    (hn : ∀ k ∈ n.keywords, k.Comparable ∧ k.All P) :
    Node.sameWith eq m n = true ↔ m.truth = n.truth ∧
      ((∃ a b, Keyword.foldWith eq m.keywords = .ok a ∧ Keyword.foldWith eq n.keywords = .ok b ∧
          Matched (Keyword.sameWith eq · ·) a b) ∨
        ¬ Keyword.Agree eq m.keywords ∧ ¬ Keyword.Agree eq n.keywords ∧
          Matched (Keyword.sameWith eq · ·) m.keywords n.keywords) := by
  rw [Node.sameWith, Bool.and_eq_true, beq_iff_eq]
  refine and_congr_right fun _ => ?_
  have hmfold := Keyword.exists_foldWith_iff h hm
  have hnfold := Keyword.exists_foldWith_iff h hn
  have hraw := h.keywords.sameElements_iff_matched hm hn
  cases ha : Keyword.foldWith eq m.keywords with
  | ok a =>
    have hmagree : Keyword.Agree eq m.keywords := hmfold.1 ⟨a, ha⟩
    cases hb : Keyword.foldWith eq n.keywords with
    | ok b =>
      have hfolded := h.keywords.sameElements_iff_matched (keywords_fold hm ha)
        (keywords_fold hn hb)
      simp [hfolded, hmagree]
    | error e =>
      have hnagree : ¬ Keyword.Agree eq n.keywords := by simp [← hnfold, hb]
      have hnot : ¬ Matched (Keyword.sameWith eq · ·) m.keywords n.keywords := fun hmatched =>
        hnagree (hmagree.of_matched h hm hn hmatched)
      simp [hraw, hmagree, hnot]
  | error e =>
    have hmagree : ¬ Keyword.Agree eq m.keywords := by simp [← hmfold, ha]
    cases hb : Keyword.foldWith eq n.keywords with
    | ok b =>
      have hnagree : Keyword.Agree eq n.keywords := hnfold.1 ⟨b, hb⟩
      have hnot : ¬ Matched (Keyword.sameWith eq · ·) m.keywords n.keywords := fun hmatched =>
        hmagree (hnagree.of_matched h hn hm (h.keywords.matched_symm hm hn hmatched))
      simp [hraw, hnagree, hnot]
    | error e' =>
      have hnagree : ¬ Keyword.Agree eq n.keywords := by simp [← hnfold, hb]
      simp [hraw, hmagree, hnagree]

theorem nodes (h : EquivalenceOn P eq) :
    EquivalenceOn (fun n : Node => ∀ k ∈ n.keywords, k.Comparable ∧ k.All P)
      (Node.sameWith eq) where
  refl := Node.sameWith_refl h.refl
  symm {m n} hm hn hmn := by
    rw [h.sameWith_iff hm hn] at hmn
    rw [h.sameWith_iff hn hm]
    obtain ⟨htruth, ⟨a, b, ha, hb, hab⟩ | ⟨hmagree, hnagree, hmn⟩⟩ := hmn
    · refine ⟨htruth.symm, .inl ⟨b, a, hb, ha, ?_⟩⟩
      exact h.keywords.matched_symm (keywords_fold hm ha) (keywords_fold hn hb) hab
    · exact ⟨htruth.symm, .inr ⟨hnagree, hmagree, h.keywords.matched_symm hm hn hmn⟩⟩
  trans {l m n} hl hm hn hlm hmn := by
    rw [h.sameWith_iff hl hm] at hlm
    rw [h.sameWith_iff hm hn] at hmn
    rw [h.sameWith_iff hl hn]
    obtain ⟨htruth, hlm⟩ := hlm
    obtain ⟨htruth', hmn⟩ := hmn
    refine ⟨htruth.trans htruth', ?_⟩
    rcases hlm with ⟨a, b, ha, hb, hab⟩ | ⟨hlagree, hmagree, hlm⟩
    · rcases hmn with ⟨b', c, hb', hc, hbc⟩ | ⟨hmagree, -, -⟩
      · obtain rfl : b = b' := Except.ok.inj (hb.symm.trans hb')
        exact .inl ⟨a, c, ha, hc, h.keywords.matched_trans (keywords_fold hl ha)
          (keywords_fold hm hb) (keywords_fold hn hc) hab hbc⟩
      · exact absurd ((Keyword.exists_foldWith_iff h hm).1 ⟨b, hb⟩) hmagree
    · rcases hmn with ⟨b, -, hb, -, -⟩ | ⟨-, hnagree, hmn⟩
      · exact absurd ((Keyword.exists_foldWith_iff h hm).1 ⟨b, hb⟩) hmagree
      · exact .inr ⟨hlagree, hnagree, h.keywords.matched_trans hl hm hn hlm hmn⟩

end EquivalenceOn

namespace Node

/-- Whether everything in a schema can be compared. -/
def Comparable (n : Node) : Prop := ∀ c ∈ n.nodes, ∀ k ∈ c.keywords, k.Comparable

lemma Comparable.nested {n c : Node} (h : n.Comparable) {k : Keyword} (hk : k ∈ n.keywords)
    (hc : c ∈ k.nested) : c.Comparable :=
  fun d hd => h d (mem_nodes_of_nested hk hc hd)

/-- Equality is an equivalence among schemas of so many levels. -/
lemma equivalenceOn_same_of_height (levels : Nat) :
    EquivalenceOn (fun n => n.Comparable ∧ n.height ≤ levels) same := by
  induction levels with
  | zero =>
    have none (n : Node) : ¬ n.height ≤ 0 := by
      have := height_eq n
      omega
    exact ⟨same_refl, fun hm => absurd hm.2 (none _), fun hm => absurd hm.2 (none _)⟩
  | succ levels ih =>
    have hsame : sameWith same = same := by
      funext m n
      exact (same_eq_sameWith m n).symm
    have hnodes := ih.nodes
    rw [hsame] at hnodes
    refine hnodes.mono fun n hn k hk => ⟨hn.1 n n.self_mem_nodes k hk, fun c hc => ?_⟩
    exact ⟨hn.1.nested hk hc, all_height_le hn.2 k hk c hc⟩

/-- Equality is an equivalence among schemas in which everything can be compared. -/
theorem equivalenceOn_same : EquivalenceOn Comparable same where
  refl := same_refl
  symm {m n} hm hn hmn := by
    have h := equivalenceOn_same_of_height (max m.height n.height)
    exact h.symm ⟨hm, Nat.le_max_left _ _⟩ ⟨hn, Nat.le_max_right _ _⟩ hmn
  trans {l m n} hl hm hn hlm hmn := by
    have h := equivalenceOn_same_of_height (max l.height (max m.height n.height))
    exact h.trans ⟨hl, by omega⟩ ⟨hm, by omega⟩ ⟨hn, by omega⟩ hlm hmn

end Node

/-- Equality is an equivalence among keywords in which everything can be compared. -/
theorem Keyword.equivalenceOn_same :
    EquivalenceOn (fun k => k.Comparable ∧ k.All Node.Comparable) Keyword.same :=
  Node.equivalenceOn_same.keywords

end SchemaCatalog
