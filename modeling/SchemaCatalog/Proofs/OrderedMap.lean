import Mathlib.Data.List.Induction
import Mathlib.Data.List.Nodup
import Mathlib.Data.List.Perm.Subperm
import Mathlib.Tactic.Lemma
import SchemaCatalog.OrderedMap
import SchemaCatalog.Proofs.SameElements

/-!
# Maps with distinct keys

With distinct keys the entries of a map are what look-ups find (`OrderedMap.get?_eq_some_iff`),
and their order no longer matters (`OrderedMap.exists_get?_of_matched`).  Two such maps are equal as maps
when they are equally long and every entry of the first has an equal one under its key in the
second.  The definition looks at one side only, but with distinct keys on both sides equal lengths
leave no key of the second over, so that the comparison goes both ways
(`OrderedMap.SameMap.symm`).
-/

namespace SchemaCatalog

/-! ## Lists without repetitions -/

section EraseDups

variable {α : Type*} [DecidableEq α]

lemma eraseDups_concat (l : List α) (a : α) :
    (l ++ [a]).eraseDups = if a ∈ l then l.eraseDups else l.eraseDups ++ [a] := by
  rw [List.eraseDups_append]
  by_cases ha : a ∈ l <;> simp [List.removeAll, ha, List.eraseDups_cons]

lemma nodup_eraseDups (l : List α) : l.eraseDups.Nodup := by
  induction l using List.reverseRecOn with
  | nil => exact List.nodup_nil
  | append_singleton l a ih =>
    rw [eraseDups_concat]
    split
    case isTrue => exact ih
    case isFalse ha => exact List.concat_eq_append ▸ ih.concat (mt List.mem_eraseDups.1 ha)

end EraseDups

namespace OrderedMap

universe u v

variable {κ : Type u} {α : Type v}

lemma mem_keys_of_mem {m : OrderedMap κ α} {e : κ × α} (h : e ∈ m) : e.1 ∈ keys m :=
  List.mem_map_of_mem h

lemma exists_mem_of_mem_keys {m : OrderedMap κ α} {key : κ} (h : key ∈ keys m) :
    ∃ a, (key, a) ∈ m := by
  obtain ⟨e, he, rfl⟩ := List.mem_map.1 h
  exact ⟨e.2, he⟩

lemma eq_of_mem {m : OrderedMap κ α} (h : (keys m).Nodup) {key : κ} {a b : α}
    (ha : (key, a) ∈ m) (hb : (key, b) ∈ m) : a = b :=
  congrArg Prod.snd (List.inj_on_of_nodup_map h ha hb rfl)

lemma nodup_keys_snoc {m : OrderedMap κ α} (h : (keys m).Nodup) {key : κ} (a : α)
    (hkey : key ∉ keys m) : (keys (m ++ [(key, a)])).Nodup := by
  rw [keys, List.map_append, List.nodup_append]
  refine ⟨h, List.nodup_singleton _, fun x hx y hy => ?_⟩
  rw [List.mem_singleton.1 hy]
  rintro rfl
  exact hkey hx

lemma keys_perm_of_matched {β : Type*} {R : α → β → Prop} {m : OrderedMap κ α}
    {m' : OrderedMap κ β} (h : Matched (fun e e' => e.1 = e'.1 ∧ R e.2 e'.2) m m') :
    (keys m).Perm (keys m') := by
  obtain ⟨c, hmc, hcm'⟩ := h
  have hkeys : keys m = keys c := by
    clear hcm'
    induction hmc with
    | nil => rfl
    | cons he _ ih => rw [keys_cons, keys_cons, he.1, ih]
  rw [hkeys]
  exact hcm'.map Prod.fst

section

variable [DecidableEq κ]

lemma exists_get?_of_mem_keys {m : OrderedMap κ α} {key : κ} (h : key ∈ keys m) :
    ∃ a, get? m key = some a :=
  Option.isSome_iff_exists.1 ((contains_iff_mem_keys m key).2 h)

/-- Entries are what is found under their keys. -/
theorem get?_eq_some_iff {m : OrderedMap κ α} (h : (keys m).Nodup) {key : κ} {a : α} :
    get? m key = some a ↔ (key, a) ∈ m := by
  refine ⟨mem_of_get?_eq_some, fun ha => ?_⟩
  obtain ⟨b, hb⟩ := exists_get?_of_mem_keys (mem_keys_of_mem ha)
  rw [hb, eq_of_mem h ha (mem_of_get?_eq_some hb)]

lemma get?_eq_none_iff {m : OrderedMap κ α} {key : κ} : get? m key = none ↔ key ∉ keys m := by
  rw [← contains_iff_mem_keys, contains, Bool.not_eq_true, Option.isSome_eq_false_iff,
    Option.isNone_iff_eq_none]

lemma insert_of_notMem {m : OrderedMap κ α} {key : κ} (h : key ∉ keys m) (a : α) :
    insert m key a = m ++ [(key, a)] := by
  fun_induction insert m key a with
  | case1 => rfl
  | case2 => exact absurd List.mem_cons_self h
  | case3 k b m key a _ ih => rw [ih fun hkey => h (List.mem_cons_of_mem _ hkey), List.cons_append]

lemma insert_append_of_notMem {before after : OrderedMap κ α} {key : κ} (h : key ∉ keys before)
    (a b : α) : insert (before ++ (key, b) :: after) key a = before ++ (key, a) :: after := by
  induction before with
  | nil => simp [insert]
  | cons e before ih =>
    rw [keys_cons, List.mem_cons, not_or] at h
    rw [List.cons_append, insert, if_neg (Ne.symm h.1), ih h.2, List.cons_append]

lemma get?_insert_eq_some_iff {m : OrderedMap κ α} {key other : κ} {a b : α} :
    get? (insert m key a) other = some b ↔
      (other = key ∧ b = a) ∨ (other ≠ key ∧ get? m other = some b) := by
  by_cases h : other = key
  · subst h
    simp [get?_insert_self, eq_comm]
  · rw [get?_insert_of_ne m a (Ne.symm h)]
    simp [h]

lemma mem_keys_insert {m : OrderedMap κ α} {key other : κ} {a : α} :
    other ∈ keys (insert m key a) ↔ other = key ∨ other ∈ keys m := by
  rw [keys_insert]
  split
  case isTrue hkey =>
    constructor
    · exact .inr
    · rintro (rfl | h)
      · exact hkey
      · exact h
  case isFalse => simp [or_comm]

/-- What is found under a key among entries is related to what is found under it among entries
matched with them. -/
theorem exists_get?_of_matched {β : Type*} {R : α → β → Prop} {m : OrderedMap κ α}
    {m' : OrderedMap κ β} (h : Matched (fun e e' => e.1 = e'.1 ∧ R e.2 e'.2) m m')
    (hm' : (keys m').Nodup) {key : κ} {a : α} (ha : get? m key = some a) :
    ∃ b, get? m' key = some b ∧ R a b := by
  obtain ⟨⟨_, b⟩, hb, rfl, hab⟩ := h.exists_right (mem_of_get?_eq_some ha)
  exact ⟨b, (get?_eq_some_iff hm').2 hb, hab⟩

lemma mem_keys_ofEntries {entries : List (κ × α)} {key : κ} :
    key ∈ keys (ofEntries entries) ↔ key ∈ keys entries := by
  induction entries using List.reverseRecOn with
  | nil => rfl
  | append_singleton entries e ih =>
    rw [ofEntries, List.foldl_append, List.foldl_cons, List.foldl_nil, ← ofEntries,
      mem_keys_insert, ih, keys, keys, List.map_append, List.mem_append, List.map_singleton,
      List.mem_singleton, or_comm]

/-- Of several entries under one key the last one is read back. -/
theorem get?_ofEntries (entries : List (κ × α)) (key : κ) :
    get? (ofEntries entries) key = get? entries.reverse key := by
  induction entries using List.reverseRecOn with
  | nil => rfl
  | append_singleton entries e ih =>
    rw [ofEntries, List.foldl_append, List.foldl_cons, List.foldl_nil, ← ofEntries,
      List.reverse_append, List.reverse_singleton, List.singleton_append, get?]
    by_cases he : e.1 = key
    · rw [if_pos he, ← he, get?_insert_self]
    · rw [if_neg he, get?_insert_of_ne _ _ he, ih]

end

/-- Whether a map has as many entries as another one, each with an equal value under its key
there. -/
def SameMap (R : α → α → Prop) (a b : OrderedMap κ α) : Prop :=
  a.length = b.length ∧ ∀ e ∈ a, ∃ y, (e.1, y) ∈ b ∧ R e.2 y

namespace SameMap

variable {R : α → α → Prop} {a b c : OrderedMap κ α}

lemma keys_perm (h : SameMap R a b) (ha : (keys a).Nodup) : (keys a).Perm (keys b) := by
  have hsub : keys a ⊆ keys b := by
    intro key hkey
    obtain ⟨x, hx⟩ := exists_mem_of_mem_keys hkey
    obtain ⟨y, hy, -⟩ := h.2 _ hx
    exact mem_keys_of_mem hy
  refine (List.subperm_of_subset ha hsub).perm_of_length_le ?_
  simp only [keys, List.length_map]
  exact Nat.le_of_eq h.1.symm

/-- The entries of maps that are equal can be matched. -/
theorem matched (h : SameMap R a b) (ha : (keys a).Nodup) :
    Matched (fun e f => e.1 = f.1 ∧ R e.2 f.2) a b := by
  have hfound : ∀ e ∈ a, ∃ f ∈ b, e.1 = f.1 ∧ R e.2 f.2 := by
    intro e he
    obtain ⟨y, hy, hxy⟩ := h.2 e he
    exact ⟨(e.1, y), hy, rfl, hxy⟩
  obtain ⟨c, hac, hcb⟩ : ∃ c, List.Forall₂ (fun e f => e.1 = f.1 ∧ R e.2 f.2) a c ∧ c ⊆ b := by
    clear ha h
    induction a with
    | nil => exact ⟨[], .nil, List.nil_subset b⟩
    | cons e a ih =>
      obtain ⟨⟨f, hf, hef⟩, hfound⟩ := List.forall_mem_cons.1 hfound
      obtain ⟨c, hac, hcb⟩ := ih hfound
      exact ⟨f :: c, .cons hef hac, List.cons_subset.2 ⟨hf, hcb⟩⟩
  -- The entries found have distinct keys, and there are as many as in the other map.
  have hkeys : keys c = keys a := by
    clear hfound hcb ha h
    induction hac with
    | nil => rfl
    | cons hef _ ih => rw [keys_cons, keys_cons, ih, hef.1]
  have hnodup : c.Nodup := List.Nodup.of_map Prod.fst (by rwa [← keys, hkeys])
  refine ⟨c, hac, (List.subperm_of_subset hnodup hcb).perm_of_length_le ?_⟩
  exact Nat.le_of_eq (h.1.symm.trans hac.length_eq)

theorem symm (h : SameMap R a b) (ha : (keys a).Nodup) (hb : (keys b).Nodup)
    (symm : ∀ e ∈ a, ∀ f ∈ b, R e.2 f.2 → R f.2 e.2) : SameMap R b a := by
  refine ⟨h.1.symm, fun f hf => ?_⟩
  obtain ⟨x, hx⟩ := exists_mem_of_mem_keys ((h.keys_perm ha).symm.subset (mem_keys_of_mem hf))
  obtain ⟨y, hy, hxy⟩ := h.2 _ hx
  obtain rfl : y = f.2 := eq_of_mem hb hy hf
  exact ⟨x, hx, symm _ hx _ hf hxy⟩

theorem trans (h : SameMap R a b) (h' : SameMap R b c)
    (trans : ∀ e ∈ a, ∀ f ∈ b, ∀ g ∈ c, R e.2 f.2 → R f.2 g.2 → R e.2 g.2) :
    SameMap R a c := by
  refine ⟨h.1.trans h'.1, fun e he => ?_⟩
  obtain ⟨y, hy, hxy⟩ := h.2 e he
  obtain ⟨z, hz, hyz⟩ := h'.2 _ hy
  exact ⟨z, hz, trans _ he _ hy _ hz hxy hyz⟩

end SameMap

end OrderedMap

end SchemaCatalog
