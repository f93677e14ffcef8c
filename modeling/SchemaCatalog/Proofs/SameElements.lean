import Mathlib.Data.List.Perm.Basic
import Mathlib.Tactic.Lemma
import SchemaCatalog.SameElements

/-!
# Lists compared without regard to order, as a matching

`sameElements` counts on one side only: it looks at the elements of the first list and never asks
which elements of the second have no equal in the first.  That this is enough rests on the lengths
and on the comparison being an equivalence.  Then, and only then, equal counts mean that the two
lists can be matched element by element (`EquivalenceOn.sameElements_iff_matched`), and whatever
one wants to know of `sameElements` is read off the matching: it is symmetric and transitive
(`EquivalenceOn.sameElements`), and no element of either side is without an equal on the other.
The matching itself needs only that no element has fewer equals in the second list than in the
first (`EquivalenceOn.exists_forall₂_append`); the lengths then leave nothing unmatched.

Comparisons of trees are equivalences among well-formed trees alone, and which trees those are is
known level by level, so an equivalence is always one among the values with some property.
-/

namespace SchemaCatalog

universe u

variable {α : Type u}

lemma forall₂_symm {R : α → α → Prop} {a b : List α} (h : List.Forall₂ R a b)
    (symm : ∀ x ∈ a, ∀ y ∈ b, R x y → R y x) : List.Forall₂ R b a := by
  induction h with
  | nil => exact .nil
  | cons hxy _ ih =>
    refine .cons (symm _ List.mem_cons_self _ List.mem_cons_self hxy) (ih fun x hx y hy => ?_)
    exact symm x (List.mem_cons_of_mem _ hx) y (List.mem_cons_of_mem _ hy)

lemma forall₂_trans {β γ : Type*} {R : α → β → Prop} {S : β → γ → Prop} {T : α → γ → Prop}
    {a : List α} {b : List β} {c : List γ} (hab : List.Forall₂ R a b) (hbc : List.Forall₂ S b c)
    (trans : ∀ x ∈ a, ∀ y ∈ b, ∀ z ∈ c, R x y → S y z → T x z) : List.Forall₂ T a c := by
  induction hab generalizing c with
  | nil =>
    obtain rfl := List.forall₂_nil_left_iff.1 hbc
    exact .nil
  | cons hxy _ ih =>
    obtain ⟨z, c', hyz, htail, rfl⟩ := List.forall₂_cons_left_iff.1 hbc
    refine .cons
      (trans _ List.mem_cons_self _ List.mem_cons_self _ List.mem_cons_self hxy hyz)
      (ih htail fun x hx y hy z hz => ?_)
    exact trans x (List.mem_cons_of_mem _ hx) y (List.mem_cons_of_mem _ hy) z
      (List.mem_cons_of_mem _ hz)

lemma exists_getElem?_of_forall₂ {β : Type*} {R : α → β → Prop} {a : List α} {b : List β}
    (h : List.Forall₂ R a b) {i : Nat} {x : α} (hx : a[i]? = some x) :
    ∃ y, b[i]? = some y ∧ R x y := by
  obtain ⟨hlt, rfl⟩ := List.getElem?_eq_some_iff.1 hx
  have hlt' : i < b.length := h.length_eq ▸ hlt
  exact ⟨_, List.getElem?_eq_getElem hlt', h.get hlt hlt'⟩

lemma exists_forall₂_iff {β : Type*} {R : α → β → Prop} {l : List α} :
    (∃ l', List.Forall₂ R l l') ↔ ∀ a ∈ l, ∃ b, R a b := by
  induction l with
  | nil => simp
  | cons a l ih =>
    simp only [List.forall₂_cons_left_iff, List.forall_mem_cons, ← ih]
    constructor
    · rintro ⟨_, b, l', hab, hl, rfl⟩
      exact ⟨⟨b, hab⟩, l', hl⟩
    · rintro ⟨⟨b, hab⟩, l', hl⟩
      exact ⟨_, b, l', hab, hl, rfl⟩

/-- What the elements of a list are turned into, one by one, is related to what the elements of a
related list are turned into, if that is so of related elements. -/
lemma exists_forall₂ {β γ δ : Type*} {R : α → β → Prop} {D : α → γ → Prop} {D' : β → δ → Prop}
    {T : γ → δ → Prop} {a : List α} {b : List β} {c : List γ} (hab : List.Forall₂ R a b)
    (hac : List.Forall₂ D a c) (turn : ∀ x ∈ a, ∀ y z, R x y → D x z → ∃ w, D' y w ∧ T z w) :
    ∃ d, List.Forall₂ D' b d ∧ List.Forall₂ T c d := by
  induction hab generalizing c with
  | nil =>
    obtain rfl := List.forall₂_nil_left_iff.1 hac
    exact ⟨[], .nil, .nil⟩
  | @cons x y a b hxy _ ih =>
    obtain ⟨z, c', hxz, htail, rfl⟩ := List.forall₂_cons_left_iff.1 hac
    obtain ⟨w, hyw, hzw⟩ := turn x List.mem_cons_self y z hxy hxz
    obtain ⟨d, hbd, hcd⟩ := ih htail fun x hx => turn x (List.mem_cons_of_mem _ hx)
    exact ⟨w :: d, .cons hyw hbd, .cons hzw hcd⟩

lemma findSome?_eq_some_of_unique {β : Type*} {f : α → Option β} {l : List α} {a : α} {b : β}
    (ha : a ∈ l) (hf : f a = some b) (unique : ∀ c ∈ l, f c ≠ none → c = a) :
    l.findSome? f = some b := by
  cases hfirst : l.findSome? f with
  | none =>
    rw [List.findSome?_eq_none_iff.1 hfirst a ha] at hf
    cases hf
  | some b' =>
    obtain ⟨c, hc, hfc⟩ := List.exists_of_findSome?_eq_some hfirst
    obtain rfl := unique c hc (by rw [hfc]; exact Option.some_ne_none b')
    rw [← hfc, hf]

/-- A comparison that is an equivalence among the values with a property.  Any value at all is the
same as itself. -/
structure EquivalenceOn (P : α → Prop) (eq : α → α → Bool) : Prop where
  refl : ∀ x, eq x x = true
  symm : ∀ {x y}, P x → P y → eq x y = true → eq y x = true
  trans : ∀ {x y z}, P x → P y → P z → eq x y = true → eq y z = true → eq x z = true

/-- Whether two lists have related elements place by place after the second is rearranged. -/
def Matched {β : Type*} (R : α → β → Prop) (a : List α) (b : List β) : Prop :=
  ∃ c, List.Forall₂ R a c ∧ c.Perm b

namespace Matched

variable {β γ δ : Type*} {R S : α → β → Prop} {a : List α} {b : List β}

lemma of_forall₂ (h : List.Forall₂ R a b) : Matched R a b := ⟨b, h, .refl b⟩

lemma exists_right (h : Matched R a b) {x : α} (hx : x ∈ a) : ∃ y ∈ b, R x y := by
  obtain ⟨d, had, hdb⟩ := h
  obtain ⟨i, hi, rfl⟩ := List.getElem_of_mem hx
  have hi' : i < d.length := had.length_eq ▸ hi
  exact ⟨d[i], hdb.subset (List.getElem_mem hi'), had.get hi hi'⟩

lemma exists_left (h : Matched R a b) {y : β} (hy : y ∈ b) : ∃ x ∈ a, R x y := by
  obtain ⟨c, hac, hcb⟩ := h
  obtain ⟨i, hi, rfl⟩ := List.getElem_of_mem (hcb.symm.subset hy)
  have hi' : i < a.length := hac.length_eq ▸ hi
  exact ⟨a[i], List.getElem_mem hi', hac.get hi' hi⟩

lemma mono (h : Matched R a b) (sub : ∀ x y, R x y → S x y) : Matched S a b := by
  obtain ⟨c, hac, hcb⟩ := h
  exact ⟨c, hac.imp sub, hcb⟩

lemma imp_of_mem (h : Matched R a b) (sub : ∀ x ∈ a, ∀ y ∈ b, R x y → S x y) : Matched S a b := by
  obtain ⟨c, hac, hcb⟩ := h
  refine ⟨c, ?_, hcb⟩
  have hsub : ∀ x ∈ a, ∀ y ∈ c, R x y → S x y := fun x hx y hy => sub x hx y (hcb.subset hy)
  clear hcb sub
  induction hac with
  | nil => exact .nil
  | cons hxy _ ih =>
    refine .cons (hsub _ List.mem_cons_self _ List.mem_cons_self hxy) (ih fun x hx y hy => ?_)
    exact hsub x (List.mem_cons_of_mem _ hx) y (List.mem_cons_of_mem _ hy)

lemma comp_forall₂ {T : γ → β → Prop} {Q : γ → α → Prop} {c : List γ}
    (hca : List.Forall₂ Q c a) (h : Matched R a b) (trans : ∀ z x y, Q z x → R x y → T z y) :
    Matched T c b := by
  obtain ⟨d, had, hdb⟩ := h
  exact ⟨d, forall₂_trans hca had fun z _ x _ y _ => trans z x y, hdb⟩

lemma flip (h : Matched R a b) : Matched (fun y x => R x y) b a := by
  obtain ⟨c, hac, hcb⟩ := h
  exact List.perm_comp_forall₂ hcb.symm hac.flip

lemma map {T : γ → δ → Prop} {f : α → γ} {g : β → δ} (h : Matched R a b)
    (hfg : ∀ x y, R x y → T (f x) (g y)) : Matched T (a.map f) (b.map g) := by
  obtain ⟨c, hac, hcb⟩ := h
  refine ⟨c.map g, ?_, hcb.map g⟩
  rw [List.forall₂_map_left_iff, List.forall₂_map_right_iff]
  exact hac.imp hfg

lemma append {a' : List α} {b' : List β} (h : Matched R a b) (h' : Matched R a' b') :
    Matched R (a ++ a') (b ++ b') := by
  obtain ⟨c, hac, hcb⟩ := h
  obtain ⟨c', hac', hcb'⟩ := h'
  exact ⟨c ++ c', List.rel_append hac hac', hcb.append hcb'⟩

/-- Lists in the places of related elements are matched as a whole if they are one by one. -/
lemma flatMap {T : γ → δ → Prop} {f : α → List γ} {g : β → List δ} (h : Matched R a b)
    (hfg : ∀ x y, R x y → Matched T (f x) (g y)) : Matched T (a.flatMap f) (b.flatMap g) := by
  obtain ⟨c, hac, hcb⟩ := h
  have hplaces : Matched T (a.flatMap f) (c.flatMap g) := by
    clear hcb
    induction hac with
    | nil => exact .of_forall₂ .nil
    | cons hxy _ ih => exact (hfg _ _ hxy).append ih
  obtain ⟨d, had, hdc⟩ := hplaces
  exact ⟨d, had, hdc.trans (hcb.flatMap_right g)⟩

lemma filter {p : α → Bool} {q : β → Bool} (h : Matched R a b) (hpq : ∀ x y, R x y → p x = q y) :
    Matched R (a.filter p) (b.filter q) := by
  obtain ⟨c, hac, hcb⟩ := h
  refine ⟨c.filter q, ?_, hcb.filter q⟩
  clear hcb
  induction hac with
  | nil => exact .nil
  | @cons x y _ _ hxy _ ih =>
    cases hq : q y with
    | true =>
      rw [List.filter_cons_of_pos (hpq x y hxy ▸ hq), List.filter_cons_of_pos hq]
      exact .cons hxy ih
    | false =>
      rw [List.filter_cons_of_neg (by simp [hpq x y hxy, hq]),
        List.filter_cons_of_neg (by simp [hq])]
      exact ih

lemma flatMap_perm {f : α → List γ} {g : β → List γ} (h : Matched R a b)
    (hfg : ∀ x y, R x y → (f x).Perm (g y)) : (a.flatMap f).Perm (b.flatMap g) := by
  obtain ⟨c, hac, hcb⟩ := h
  have hperm : (a.flatMap f).Perm (c.flatMap g) := by
    clear hcb
    induction hac with
    | nil => exact .nil
    | cons hxy _ ih => exact (hfg _ _ hxy).append ih
  exact hperm.trans (hcb.flatMap_right g)

lemma filterMap_perm {f : α → Option γ} {g : β → Option γ} (h : Matched R a b)
    (hfg : ∀ x y, R x y → f x = g y) : (a.filterMap f).Perm (b.filterMap g) := by
  obtain ⟨c, hac, hcb⟩ := h
  have heq : a.filterMap f = c.filterMap g := by
    clear hcb
    induction hac with
    | nil => rfl
    | @cons x y a c hxy _ ih => rw [List.filterMap_cons, List.filterMap_cons, hfg x y hxy, ih]
  rw [heq]
  exact hcb.filterMap g

/-- What the elements of a list are turned into, one by one, is matched by what the elements of a
matched list are turned into, if that is so of related elements. -/
lemma exists_matched {D : α → γ → Prop} {D' : β → δ → Prop} {T : γ → δ → Prop} {c : List γ}
    (h : Matched R a b) (hD : List.Forall₂ D a c)
    (turn : ∀ x ∈ a, ∀ y z, R x y → D x z → ∃ w, D' y w ∧ T z w) :
    ∃ d, List.Forall₂ D' b d ∧ Matched T c d := by
  obtain ⟨b', hab, hb⟩ := h
  obtain ⟨d', hbd, hcd⟩ := exists_forall₂ hab hD turn
  obtain ⟨d, hd, hperm⟩ := List.perm_comp_forall₂ hb.symm hbd
  exact ⟨d, hd, d', hcd, hperm.symm⟩

end Matched

namespace EquivalenceOn

variable {P Q : α → Prop} {eq : α → α → Bool}

lemma of_beq [BEq α] [LawfulBEq α] : EquivalenceOn (fun _ : α => True) (· == ·) where
  refl x := beq_self_eq_true x
  symm _ _ h := by rw [eq_of_beq h, beq_self_eq_true]
  trans _ _ _ h h' := by rw [eq_of_beq h, h']

lemma of_equivalence (h : Equivalence fun x y : α => eq x y = true) :
    EquivalenceOn (fun _ => True) eq where
  refl := h.refl
  symm _ _ := h.symm
  trans _ _ _ := h.trans

lemma mono (h : EquivalenceOn P eq) (sub : ∀ x, Q x → P x) : EquivalenceOn Q eq where
  refl := h.refl
  symm hx hy := h.symm (sub _ hx) (sub _ hy)
  trans hx hy hz := h.trans (sub _ hx) (sub _ hy) (sub _ hz)

section

variable (h : EquivalenceOn P eq)
include h

lemma eq_of_eq {x y z : α} (hx : P x) (hy : P y) (hz : P z) (hxy : eq x y = true) :
    eq x z = eq y z :=
  Bool.eq_iff_iff.2 ⟨h.trans hy hx hz (h.symm hx hy hxy), h.trans hx hy hz hxy⟩

lemma countP_eq_of_forall₂ {a b : List α} (hab : List.Forall₂ (fun x y => eq x y = true) a b)
    (ha : ∀ x ∈ a, P x) (hb : ∀ x ∈ b, P x) {z : α} (hz : P z) :
    a.countP (eq · z) = b.countP (eq · z) := by
  induction hab with
  | nil => rfl
  | @cons x y a b hxy _ ih =>
    obtain ⟨hx, ha⟩ := List.forall_mem_cons.1 ha
    obtain ⟨hy, hb⟩ := List.forall_mem_cons.1 hb
    rw [List.countP_cons, List.countP_cons, ih ha hb, h.eq_of_eq hx hy hz hxy]

/-- A list that has no more equals of any of its elements than another one has can be matched with
a part of it. -/
lemma exists_forall₂_append {a b : List α} (ha : ∀ x ∈ a, P x) (hb : ∀ x ∈ b, P x)
    (hcount : ∀ z ∈ a, a.countP (eq · z) ≤ b.countP (eq · z)) :
    ∃ c rest, List.Forall₂ (fun x y => eq x y = true) a c ∧ (c ++ rest).Perm b := by
  induction a generalizing b with
  | nil => exact ⟨[], b, .nil, .refl b⟩
  | cons x a ih =>
    obtain ⟨hx, ha⟩ := List.forall_mem_cons.1 ha
    -- the head counts itself, hence it has an equal in the other list to be matched with
    have hpos : 0 < b.countP (eq · x) := by
      have hself : (x :: a).countP (eq · x) = a.countP (eq · x) + 1 :=
        List.countP_cons_of_pos (h.refl x)
      have := hcount x List.mem_cons_self
      omega
    obtain ⟨y, hy, hyx⟩ := List.countP_pos_iff.1 hpos
    obtain ⟨before, after, rfl⟩ := List.append_of_mem hy
    have hperm : (y :: (before ++ after)).Perm (before ++ y :: after) := List.perm_middle.symm
    have hrest : ∀ z ∈ y :: (before ++ after), P z := fun z hz => hb z (hperm.subset hz)
    obtain ⟨hPy, hrest⟩ := List.forall_mem_cons.1 hrest
    have hxy : eq x y = true := h.symm hPy hx hyx
    -- taking the two out lowers the counts of the same values on both sides
    have hless : ∀ z ∈ a, a.countP (eq · z) ≤ (before ++ after).countP (eq · z) := by
      intro z hz
      have hz' := hcount z (List.mem_cons_of_mem _ hz)
      rw [← hperm.countP_eq, List.countP_cons, List.countP_cons,
        h.eq_of_eq hx hPy (ha z hz) hxy] at hz'
      omega
    obtain ⟨c, rest, hac, hc⟩ := ih ha hrest hless
    exact ⟨y :: c, rest, .cons hxy hac, (hc.cons y).trans hperm⟩

lemma length_eq_of_countP_eq {a b : List α} (ha : ∀ x ∈ a, P x) (hb : ∀ x ∈ b, P x)
    (hcount : ∀ z, P z → a.countP (eq · z) = b.countP (eq · z)) : a.length = b.length := by
  obtain ⟨c, rest, hac, hcb⟩ :=
    h.exists_forall₂_append ha hb fun z hz => Nat.le_of_eq (hcount z (ha z hz))
  obtain ⟨d, rest', hbd, hda⟩ :=
    h.exists_forall₂_append hb ha fun z hz => Nat.le_of_eq (hcount z (hb z hz)).symm
  have hle := hcb.length_eq
  have hge := hda.length_eq
  rw [List.length_append, ← hac.length_eq] at hle
  rw [List.length_append, ← hbd.length_eq] at hge
  omega

/-- Lists have the same elements if and only if they can be matched. -/
theorem sameElements_iff_matched {a b : List α} (ha : ∀ x ∈ a, P x) (hb : ∀ x ∈ b, P x) :
    SchemaCatalog.sameElements eq a b = true ↔ Matched (eq · ·) a b := by
  simp only [sameElements_eq_countP h.refl, Bool.and_eq_true, beq_iff_eq, List.all_eq_true]
  constructor
  · rintro ⟨hlength, hcount⟩
    obtain ⟨c, rest, hac, hcb⟩ :=
      h.exists_forall₂_append ha hb fun z hz => Nat.le_of_eq (hcount z hz)
    -- as long as the first list, the second has no room for elements that were not matched
    have hnil : rest = [] := by
      have := hcb.length_eq
      rw [List.length_append, ← hac.length_eq] at this
      exact List.length_eq_zero_iff.1 (by omega)
    exact ⟨c, hac, by simpa [hnil] using hcb⟩
  · rintro ⟨c, hac, hcb⟩
    refine ⟨by rw [hac.length_eq, hcb.length_eq], fun x hx => ?_⟩
    rw [← hcb.countP_eq]
    exact h.countP_eq_of_forall₂ hac ha (fun y hy => hb y (hcb.subset hy)) (ha x hx)

/-- Lists have the same elements if and only if they have as many equals of every value. -/
lemma sameElements_iff_countP_eq {a b : List α} (ha : ∀ x ∈ a, P x) (hb : ∀ x ∈ b, P x) :
    SchemaCatalog.sameElements eq a b = true ↔
      ∀ z, P z → a.countP (eq · z) = b.countP (eq · z) := by
  constructor
  · intro hab z hz
    obtain ⟨c, hac, hcb⟩ := (h.sameElements_iff_matched ha hb).1 hab
    rw [← hcb.countP_eq]
    exact h.countP_eq_of_forall₂ hac ha (fun y hy => hb y (hcb.subset hy)) hz
  · intro hcount
    simp only [sameElements_eq_countP h.refl, Bool.and_eq_true, beq_iff_eq, List.all_eq_true]
    exact ⟨h.length_eq_of_countP_eq ha hb hcount, fun x hx => hcount x (ha x hx)⟩

lemma matched_symm {a b : List α} (ha : ∀ x ∈ a, P x) (hb : ∀ x ∈ b, P x)
    (hab : Matched (eq · ·) a b) : Matched (eq · ·) b a := by
  obtain ⟨c, hac, hcb⟩ := hab
  have hc : ∀ x ∈ c, P x := fun x hx => hb x (hcb.subset hx)
  have hca : List.Forall₂ (fun x y => eq x y = true) c a :=
    forall₂_symm hac fun x hx y hy => h.symm (ha x hx) (hc y hy)
  exact List.perm_comp_forall₂ hcb.symm hca

lemma matched_trans {a b c : List α} (ha : ∀ x ∈ a, P x) (hb : ∀ x ∈ b, P x)
    (hc : ∀ x ∈ c, P x) (hab : Matched (eq · ·) a b) (hbc : Matched (eq · ·) b c) :
    Matched (eq · ·) a c := by
  obtain ⟨b', hab', hb'⟩ := hab
  obtain ⟨c', hbc', hc'⟩ := hbc
  obtain ⟨d, hbd, hd⟩ := List.perm_comp_forall₂ hb' hbc'
  have hPb : ∀ x ∈ b', P x := fun x hx => hb x (hb'.subset hx)
  have hPd : ∀ x ∈ d, P x := fun x hx => hc x (hc'.subset (hd.subset hx))
  refine ⟨d, ?_, hd.trans hc'⟩
  exact forall₂_trans hab' hbd fun x hx y hy z hz => h.trans (ha x hx) (hPb y hy) (hPd z hz)

/-- An equivalence of elements is one of lists without regard to order. -/
theorem sameElements :
    EquivalenceOn (fun a => ∀ x ∈ a, P x) (SchemaCatalog.sameElements eq) where
  refl a := sameElements_refl h.refl a
  symm ha hb hab := by
    rw [h.sameElements_iff_matched ha hb] at hab
    rw [h.sameElements_iff_matched hb ha]
    exact h.matched_symm ha hb hab
  trans ha hb hc hab hbc := by
    rw [h.sameElements_iff_matched ha hb] at hab
    rw [h.sameElements_iff_matched hb hc] at hbc
    rw [h.sameElements_iff_matched ha hc]
    exact h.matched_trans ha hb hc hab hbc

end

end EquivalenceOn

lemma perm_of_sameElements [BEq α] [LawfulBEq α] {a b : List α}
    (h : sameElements (· == ·) a b = true) : a.Perm b := by
  obtain ⟨c, hac, hcb⟩ := (EquivalenceOn.of_beq.sameElements_iff_matched (fun _ _ => trivial)
    fun _ _ => trivial).1 h
  have heq : a = c := List.forall₂_eq_eq_eq ▸ hac.imp fun _ _ => eq_of_beq
  exact heq ▸ hcb

/-- **Counting the elements of one list compares two lists as multisets.**  For a comparison that
is an equivalence, two lists have the same elements if and only if the second is a permutation of
the first up to the comparison, which is to say if and only if they have as many equals of every
value, those without an equal in the first list included.  Hence it is an equivalence of lists. -/
theorem sameElements_iff_same_multiset {eq : α → α → Bool}
    (h : Equivalence fun x y => eq x y = true) :
    (∀ a b, sameElements eq a b = true ↔
      ∃ c, List.Forall₂ (fun x y => eq x y = true) a c ∧ c.Perm b) ∧
    (∀ a b, sameElements eq a b = true ↔ ∀ z, a.countP (eq · z) = b.countP (eq · z)) ∧
    Equivalence fun a b => sameElements eq a b = true := by
  have hon : EquivalenceOn (fun _ => True) eq := .of_equivalence h
  have all : ∀ a : List α, ∀ x ∈ a, True := fun _ _ _ => trivial
  have hlists := hon.sameElements
  refine ⟨fun a b => hon.sameElements_iff_matched (all a) (all b), fun a b => ?_, ?_⟩
  · rw [hon.sameElements_iff_countP_eq (all a) (all b)]
    simp only [forall_const]
  · exact ⟨hlists.refl, hlists.symm (all _) (all _), hlists.trans (all _) (all _) (all _)⟩

/-- Numbers with the same remainder are compared as equal: a list is the same as one that has other
numbers in another order, and not the same as an equally long one of the same remainders that has
them in other multiplicities. -/
theorem sameElements_remainders :
    (Equivalence fun x y : Nat => (x % 3 == y % 3) = true) ∧
    (∃ c, List.Forall₂ (fun x y : Nat => (x % 3 == y % 3) = true) [1, 5, 2, 4] c ∧
      c.Perm [8, 10, 2, 7]) ∧
    ¬ ∃ c, List.Forall₂ (fun x y : Nat => (x % 3 == y % 3) = true) [1, 5, 2, 4] c ∧
      c.Perm [8, 10, 4, 7] := by
  have hequiv : Equivalence fun x y : Nat => (x % 3 == y % 3) = true := by
    simp only [beq_iff_eq]
    exact ⟨fun _ => rfl, Eq.symm, Eq.trans⟩
  have hiff := (sameElements_iff_same_multiset hequiv).1
  refine ⟨hequiv, (hiff _ _).1 (by decide), fun hmatched => ?_⟩
  exact absurd ((hiff _ _).2 hmatched) (by decide)

end SchemaCatalog
