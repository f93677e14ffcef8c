import SchemaCatalog.Schema.Fold

/-!
# Equality of schemas

Two schemas are compared with as many levels as the deeper of them has: `Node.sameAt` at that
height is `Node.sameFully`. More levels change nothing (`Node.sameAt_eq_sameFully`), because
folding only ever brings together schemas that were nested in the ones compared, and so the
comparison is its own comparison of nested schemas (`Node.sameFully_eq_sameWith`).

Resolved schemas share their parts, and a walk over all paths of such a schema can take time
exponential in its height; finding the height is such a walk, and so is comparing a part with
itself. `Node.same` does neither unless it must. It starts with more levels than a schema in
memory has, finds heights only where those are used up, and takes a schema that stands in memory
once to be the same as itself, which `Node.sameAt_refl` justifies. That it is `Node.sameFully` all
the same is `Node.same_eq_sameFully`.
-/

namespace SchemaCatalog

universe u

/-! ## What a comparison looks at -/

/-- Lists are compared by what an equality says of their elements. -/
theorem sameElements_congr {α : Type u} {P : α → Prop} {eq eq' : α → α → Bool}
    (h : ∀ x y, P x → P y → eq x y = eq' x y) {a b : List α} (ha : ∀ x ∈ a, P x)
    (hb : ∀ x ∈ b, P x) : sameElements eq a b = sameElements eq' a b := by
  have count : ∀ x, P x → ∀ l : List α, (∀ y ∈ l, P y) →
      l.countP (eq · x) = l.countP (eq' · x) := fun x hx l hl =>
    List.countP_congr fun y hy => by rw [h y x (hl y hy) hx]
  suffices hc : ∀ before after : List α, (∀ x ∈ before, P x) → (∀ x ∈ after, P x) →
      sameCounts eq b before after = sameCounts eq' b before after by
    rw [sameElements, sameElements, hc [] a (by simp) ha]
  intro before after hbefore hafter
  induction after generalizing before with
  | nil => rfl
  | cons x after ih =>
    obtain ⟨hx, hafter⟩ := List.forall_mem_cons.1 hafter
    simp only [sameCounts, count x hx before hbefore, count x hx after hafter, count x hx b hb,
      ih (x :: before) (List.forall_mem_cons.2 ⟨hx, hbefore⟩) hafter]

/-- Whether all schemas that a keyword holds have a property. -/
def Keyword.All (P : Node → Prop) (k : Keyword) : Prop := ∀ n ∈ k.nested, P n

/-- Whether all schemas under names have a property. -/
def AllMembers (P : Node → Prop) (members : List (String × Node)) : Prop :=
  ∀ m ∈ members, P m.2

section Congruence

variable {P : Node → Prop} {eq eq' : Node → Node → Bool}

theorem all_keyed {kind : KeyedKind} {members : List (String × Node)} :
    (Keyword.keyed kind members).All P ↔ AllMembers P members :=
  List.forall_mem_map

theorem AllMembers.get? {members : List (String × Node)} (h : AllMembers P members)
    {name : String} {n : Node} (hn : OrderedMap.get? members name = some n) : P n :=
  h _ (OrderedMap.mem_of_get?_eq_some hn)

theorem AllMembers.snoc {members : List (String × Node)} (h : AllMembers P members)
    {name : String} {n : Node} (hn : P n) : AllMembers P (members ++ [(name, n)]) := by
  intro m hm
  rcases List.mem_append.1 hm with hm | hm
  · exact h m hm
  · rw [List.mem_singleton.1 hm]
    exact hn

theorem sameMembersWith_congr (h : ∀ m n, P m → P n → eq m n = eq' m n)
    {a b : List (String × Node)} (ha : AllMembers P a) (hb : AllMembers P b) :
    sameMembersWith eq a b = sameMembersWith eq' a b := by
  simp only [sameMembersWith]
  congr 2
  funext m
  cases hm : OrderedMap.get? a m.1 <;> cases hn : OrderedMap.get? b m.1 <;>
    first | rfl | exact h _ _ (ha.get? hm) (hb.get? hn)

theorem sameSchemasWith_congr (h : ∀ m n, P m → P n → eq m n = eq' m n) {a b : List Node}
    (ha : ∀ n ∈ a, P n) (hb : ∀ n ∈ b, P n) :
    sameSchemasWith eq a b = sameSchemasWith eq' a b := by
  induction a generalizing b with
  | nil => cases b <;> rfl
  | cons m a ih =>
    cases b with
    | nil => rfl
    | cons n b =>
      obtain ⟨hm, ha⟩ := List.forall_mem_cons.1 ha
      obtain ⟨hn, hb⟩ := List.forall_mem_cons.1 hb
      simp only [sameSchemasWith, h m n hm hn, ih ha hb]

theorem Keyword.sameWith_congr (h : ∀ m n, P m → P n → eq m n = eq' m n) {j k : Keyword}
    (hj : j.All P) (hk : k.All P) : j.sameWith eq k = j.sameWith eq' k := by
  cases j <;> cases k <;> simp only [Keyword.sameWith]
  · exact congrArg _ (sameMembersWith_congr h (all_keyed.1 hj) (all_keyed.1 hk))
  · exact congrArg _ (sameSchemasWith_congr h hj hk)
  · exact h _ _ (hj _ (by simp [Keyword.nested])) (hk _ (by simp [Keyword.nested]))

/-- What uniting gives depends on the comparison of the given schemas only. -/
theorem uniteWith_congr (h : ∀ m n, P m → P n → eq m n = eq' m n) (keyword : String)
    {a b : List (String × Node)} (ha : AllMembers P a) (hb : AllMembers P b) :
    uniteWith eq keyword a b = uniteWith eq' keyword a b ∧
      ∀ r, uniteWith eq keyword a b = .ok r → AllMembers P r := by
  induction b generalizing a with
  | nil => exact ⟨rfl, fun r hr => by simp only [uniteWith, Except.ok.injEq] at hr; exact hr ▸ ha⟩
  | cons e b ih =>
    obtain ⟨key, n⟩ := e
    obtain ⟨hn, hb⟩ := List.forall_mem_cons.1 hb
    simp only [uniteWith]
    cases hm : OrderedMap.get? a key with
    | none => exact ih (ha.snoc hn) hb
    | some m =>
      simp only [h m n (ha.get? hm) hn]
      cases eq' m n with
      | true => exact ih ha hb
      | false => simp

/-- What appending gives depends on the comparison of the given schemas only. -/
theorem appendWith_congr (h : ∀ m n, P m → P n → eq m n = eq' m n)
    {a b : List (String × Node)} (ha : AllMembers P a) (hb : AllMembers P b) :
    appendWith eq a b = appendWith eq' a b ∧ AllMembers P (appendWith eq a b) := by
  induction b generalizing a with
  | nil => exact ⟨rfl, ha⟩
  | cons e b ih =>
    obtain ⟨key, n⟩ := e
    obtain ⟨hn, hb⟩ := List.forall_mem_cons.1 hb
    simp only [appendWith]
    cases hm : OrderedMap.get? a key with
    | none => exact ih (ha.snoc hn) hb
    | some m =>
      simp only [h m n (ha.get? hm) hn]
      cases eq' m n with
      | true => exact ih ha hb
      | false => exact ih (ha.snoc hn) hb

theorem Keyword.absorbWith_congr (h : ∀ m n, P m → P n → eq m n = eq' m n) {j k : Keyword}
    (hj : j.All P) (hk : k.All P) :
    j.absorbWith eq k = j.absorbWith eq' k ∧ ∀ r, j.absorbWith eq k = .ok r → r.All P := by
  have same : ∀ r, (.ok j : Except EncodeError Keyword) = .ok r → r.All P := fun r hr => by
    cases hr
    exact hj
  cases j with
  | keyed i a =>
    cases k with
    | keyed i' b =>
      simp only [Keyword.absorbWith]
      split
      · exact ⟨rfl, same⟩
      · split
        · obtain ⟨hab, hall⟩ := appendWith_congr h (all_keyed.1 hj) (all_keyed.1 hk)
          refine ⟨by rw [hab], fun r hr => ?_⟩
          cases hr
          exact all_keyed.2 hall
        · obtain ⟨hab, hall⟩ := uniteWith_congr h i.name (all_keyed.1 hj) (all_keyed.1 hk)
          refine ⟨by rw [hab], fun r hr => ?_⟩
          cases hu : uniteWith eq i.name a b with
          | error e => simp [hu, Functor.map, Except.map] at hr
          | ok members =>
            simp only [hu, Functor.map, Except.map, Except.ok.injEq] at hr
            exact hr ▸ all_keyed.2 (hall members hu)
    | _ => exact ⟨rfl, same⟩
  | ordered i a =>
    cases k with
    | ordered i' b =>
      refine ⟨rfl, fun r hr => ?_⟩
      simp only [Keyword.absorbWith, Except.ok.injEq] at hr
      subst hr
      intro n hn
      simp only [Keyword.nested] at hn
      split at hn
      · rcases List.mem_append.1 hn with hn | hn
        · exact hj n hn
        · exact hk n hn
      · exact hj n hn
    | _ => exact ⟨rfl, same⟩
  | facet a =>
    cases k with
    | facet b =>
      refine ⟨rfl, fun r hr => ?_⟩
      simp only [Keyword.absorbWith, Except.ok.injEq] at hr
      subst hr
      intro n hn
      simp [Keyword.nested] at hn
    | _ => exact ⟨rfl, same⟩
  | _ => exact ⟨by cases k <;> rfl, by cases k <;> exact same⟩

theorem Keyword.foldInWith_congr (h : ∀ m n, P m → P n → eq m n = eq' m n) {ks : List Keyword}
    {k : Keyword} (hks : ∀ j ∈ ks, j.All P) (hk : k.All P) :
    Keyword.foldInWith eq ks k = Keyword.foldInWith eq' ks k ∧
      ∀ r, Keyword.foldInWith eq ks k = .ok r → ∀ j ∈ r, j.All P := by
  induction ks with
  | nil =>
    refine ⟨rfl, fun r hr => ?_⟩
    simp only [Keyword.foldInWith, Except.ok.injEq] at hr
    subst hr
    simpa using hk
  | cons j ks ih =>
    obtain ⟨hj, hks⟩ := List.forall_mem_cons.1 hks
    simp only [Keyword.foldInWith]
    split
    · obtain ⟨hab, hall⟩ := Keyword.absorbWith_congr h hj hk
      refine ⟨by rw [hab], fun r hr => ?_⟩
      cases ha : j.absorbWith eq k with
      | error e => simp [ha, Functor.map, Except.map] at hr
      | ok i =>
        simp only [ha, Functor.map, Except.map, Except.ok.injEq] at hr
        exact hr ▸ List.forall_mem_cons.2 ⟨hall i ha, hks⟩
    · obtain ⟨hab, hall⟩ := ih hks
      refine ⟨by rw [hab], fun r hr => ?_⟩
      cases ha : Keyword.foldInWith eq ks k with
      | error e => simp [ha, Functor.map, Except.map] at hr
      | ok is =>
        simp only [ha, Functor.map, Except.map, Except.ok.injEq] at hr
        exact hr ▸ List.forall_mem_cons.2 ⟨hj, hall is ha⟩

/-- Folding depends on the comparison of the given schemas only, and it brings no others. -/
theorem Keyword.foldWith_congr (h : ∀ m n, P m → P n → eq m n = eq' m n) {ks : List Keyword}
    (hks : ∀ k ∈ ks, k.All P) :
    Keyword.foldWith eq ks = Keyword.foldWith eq' ks ∧
      ∀ r, Keyword.foldWith eq ks = .ok r → ∀ k ∈ r, k.All P := by
  suffices hf : ∀ done : List Keyword, (∀ j ∈ done, j.All P) →
      ks.foldlM (Keyword.foldInWith eq) done = ks.foldlM (Keyword.foldInWith eq') done ∧
        ∀ r, ks.foldlM (Keyword.foldInWith eq) done = .ok r → ∀ k ∈ r, k.All P from
    hf [] (by simp)
  induction ks with
  | nil =>
    intro done hdone
    refine ⟨rfl, fun r hr => ?_⟩
    simp only [List.foldlM_nil, pure, Except.pure, Except.ok.injEq] at hr
    exact hr ▸ hdone
  | cons k ks ih =>
    obtain ⟨hk, hks⟩ := List.forall_mem_cons.1 hks
    intro done hdone
    obtain ⟨hin, hall⟩ := Keyword.foldInWith_congr h hdone hk
    simp only [List.foldlM_cons, ← hin]
    cases hr : Keyword.foldInWith eq done k with
    | error e => exact ⟨rfl, fun r hr' => by simp [bind, Except.bind] at hr'⟩
    | ok next => exact ih hks next (hall next hr)

/-- Schemas are compared by what an equality says of the schemas nested in them. -/
theorem Node.sameWith_congr (h : ∀ m n, P m → P n → eq m n = eq' m n) {m n : Node}
    (hm : ∀ k ∈ m.keywords, k.All P) (hn : ∀ k ∈ n.keywords, k.All P) :
    Node.sameWith eq m n = Node.sameWith eq' m n := by
  have hkeys : ∀ j k : Keyword, j.All P → k.All P → j.sameWith eq k = j.sameWith eq' k :=
    fun _ _ hj hk => Keyword.sameWith_congr h hj hk
  obtain ⟨hmf, hma⟩ := Keyword.foldWith_congr h hm
  obtain ⟨hnf, hna⟩ := Keyword.foldWith_congr h hn
  simp only [Node.sameWith, ← hmf, ← hnf]
  congr 1
  cases ha : Keyword.foldWith eq m.keywords <;> cases hb : Keyword.foldWith eq n.keywords <;>
    first
    | exact sameElements_congr hkeys (hma _ ha) (hna _ hb)
    | exact sameElements_congr hkeys hm hn

end Congruence

/-! ## Levels -/

namespace Node

theorem height_le_membersHeight {members : List (String × Node)} {m : String × Node}
    (h : m ∈ members) : m.2.height ≤ membersHeight members := by
  induction members with
  | nil => simp at h
  | cons e members ih =>
    rcases List.mem_cons.1 h with rfl | h
    · exact Nat.le_max_left _ _
    · exact Nat.le_trans (ih h) (Nat.le_max_right _ _)

theorem height_le_schemasHeight {schemas : List Node} {n : Node} (h : n ∈ schemas) :
    n.height ≤ schemasHeight schemas := by
  induction schemas with
  | nil => simp at h
  | cons e schemas ih =>
    rcases List.mem_cons.1 h with rfl | h
    · exact Nat.le_max_left _ _
    · exact Nat.le_trans (ih h) (Nat.le_max_right _ _)

theorem height_le_keywordHeight {k : Keyword} {n : Node} (h : n ∈ k.nested) :
    n.height ≤ keywordHeight k := by
  cases k with
  | keyed kind members =>
    obtain ⟨m, hm, rfl⟩ := List.mem_map.1 h
    exact height_le_membersHeight hm
  | ordered kind schemas => exact height_le_schemasHeight h
  | additionalProperties schema =>
    rw [List.mem_singleton.1 h]
    exact Nat.le_refl _
  | ref target => simp [Keyword.nested] at h
  | facet a => simp [Keyword.nested] at h

theorem keywordHeight_le_keywordsHeight {ks : List Keyword} {k : Keyword} (h : k ∈ ks) :
    keywordHeight k ≤ keywordsHeight ks := by
  induction ks with
  | nil => simp at h
  | cons e ks ih =>
    rcases List.mem_cons.1 h with rfl | h
    · exact Nat.le_max_left _ _
    · exact Nat.le_trans (ih h) (Nat.le_max_right _ _)

theorem height_eq (n : Node) : n.height = keywordsHeight n.keywords + 1 := by
  cases n
  simp [height]

/-- What a schema holds has fewer levels. -/
theorem all_height_le {n : Node} {levels : Nat} (h : n.height ≤ levels + 1) :
    ∀ k ∈ n.keywords, k.All fun m => m.height ≤ levels := by
  intro k hk m hm
  have := height_le_keywordHeight hm
  have := keywordHeight_le_keywordsHeight hk
  have := height_eq n
  omega

/-- Equality of schemas at all their levels. -/
def sameFully (m n : Node) : Bool := sameAt (max m.height n.height) m n

theorem sameAt_succ {levels : Nat} {m n : Node} (hm : m.height ≤ levels)
    (hn : n.height ≤ levels) : sameAt (levels + 1) m n = sameAt levels m n := by
  induction levels generalizing m n with
  | zero =>
    have := height_eq m
    omega
  | succ levels ih =>
    exact sameWith_congr (P := fun n => n.height ≤ levels) (fun _ _ ha hb => ih ha hb)
      (all_height_le hm) (all_height_le hn)

/-- Levels below the deeper of two schemas change nothing. -/
theorem sameAt_eq_sameFully {levels : Nat} {m n : Node} (hm : m.height ≤ levels)
    (hn : n.height ≤ levels) : sameAt levels m n = m.sameFully n := by
  have h : ∀ more, sameAt (max m.height n.height + more) m n = m.sameFully n := by
    intro more
    induction more with
    | zero => rfl
    | succ more ih =>
      rw [← Nat.add_assoc, sameAt_succ (by omega) (by omega), ih]
  rw [← h (levels - max m.height n.height)]
  congr 1
  omega

/-- Equality at all levels compares nested schemas at all levels. -/
theorem sameFully_eq_sameWith (m n : Node) : m.sameFully n = sameWith sameFully m n := by
  have hm : m.height ≤ max (keywordsHeight m.keywords) (keywordsHeight n.keywords) + 1 := by
    have := height_eq m
    omega
  have hn : n.height ≤ max (keywordsHeight m.keywords) (keywordsHeight n.keywords) + 1 := by
    have := height_eq n
    omega
  rw [← sameAt_eq_sameFully hm hn]
  exact sameWith_congr (P := fun n => n.height ≤ _) (fun _ _ ha hb => sameAt_eq_sameFully ha hb)
    (all_height_le hm) (all_height_le hn)

end Node

/-! ## Reflexivity -/

theorem Required.same_refl (r : Required) : r.same r = true := by
  cases r <;> simp [Required.same, sameElements_refl]

theorem Facet.same_refl (a : Facet) : a.same a = true := by
  cases a <;> simp [Facet.same, sameElements_refl, Required.same_refl, Json.same_refl,
    Json.sameItems_refl]

theorem sameMembersWith_refl {eq : Node → Node → Bool} (refl : ∀ n, eq n n = true)
    (a : List (String × Node)) : sameMembersWith eq a a = true := by
  simp only [sameMembersWith, beq_self_eq_true, Bool.true_and, List.all_eq_true]
  intro m hm
  have hc := (OrderedMap.contains_iff_mem_keys a m.1).2 (List.mem_map_of_mem hm)
  obtain ⟨n, hn⟩ := Option.isSome_iff_exists.1 hc
  simp [hn, refl]

theorem sameSchemasWith_refl {eq : Node → Node → Bool} (refl : ∀ n, eq n n = true)
    (a : List Node) : sameSchemasWith eq a a = true := by
  induction a with
  | nil => rfl
  | cons n a ih => simp [sameSchemasWith, refl, ih]

theorem Keyword.sameWith_refl {eq : Node → Node → Bool} (refl : ∀ n, eq n n = true)
    (k : Keyword) : k.sameWith eq k = true := by
  cases k <;> simp [Keyword.sameWith, sameMembersWith_refl refl, sameSchemasWith_refl refl,
    Facet.same_refl, refl]

theorem Node.sameWith_refl {eq : Node → Node → Bool} (refl : ∀ n, eq n n = true) (n : Node) :
    Node.sameWith eq n n = true := by
  simp only [Node.sameWith, beq_self_eq_true, Bool.true_and]
  cases Keyword.foldWith eq n.keywords <;> exact sameElements_refl (Keyword.sameWith_refl refl) _

theorem Node.sameAt_refl (levels : Nat) (n : Node) : Node.sameAt levels n n = true := by
  induction levels generalizing n with
  | zero => rfl
  | succ levels ih => exact Node.sameWith_refl ih n

/-! ## Equality -/

namespace Node

/-- More levels than a schema in memory has. -/
def manyLevels : Nat := Nat.pow 2 62

/-- Equality at all levels, by levels as long as there are any. Shared schemas are not looked
into. -/
def comparison : Nat → { eq : Node → Node → Bool // eq = sameFully }
  | 0 => ⟨sameFully, rfl⟩
  | levels + 1 =>
    have unfolded : ∀ m n, sameWith (comparison levels).1 m n = m.sameFully n := fun m n => by
      rw [(comparison levels).2, ← sameFully_eq_sameWith]
    ⟨fun m n => withPtrEq m n (fun _ => sameWith (comparison levels).1 m n) fun h => by
        rw [unfolded, h]
        exact sameAt_refl _ n,
      funext fun m => funext fun n => unfolded m n⟩

/-- Equality of schemas. -/
def same : Node → Node → Bool := (comparison manyLevels).1

theorem same_eq_sameFully : same = sameFully := (comparison manyLevels).2

/-- Schemas are the same when what they hold is, folded where possible. -/
theorem same_eq_sameWith (m n : Node) : m.same n = sameWith same m n := by
  rw [same_eq_sameFully, sameFully_eq_sameWith]

@[simp] theorem same_refl (n : Node) : n.same n = true := by
  rw [same_eq_sameFully]
  exact sameAt_refl _ n

/-- The keywords of a node with repeated names folded into one. -/
def foldedKeywords (n : Node) : Except EncodeError (List Keyword) :=
  Keyword.foldWith same n.keywords

end Node

/-- Equality of keywords. -/
def Keyword.same (j k : Keyword) : Bool := j.sameWith Node.same k

/-- A keyword with a later one folded in. -/
def Keyword.absorb (j k : Keyword) : Except EncodeError Keyword := j.absorbWith Node.same k

end SchemaCatalog
