import SchemaCatalog.Proofs.Schema.RoundTrip
import Std.Data.String.ToNat

/-!
# Folded trees are the same trees

Equality of schemas folds both sides before it compares them, so a tree and its folded tree are
the same (`Node.Folds.same`).  Folded keywords have distinct names, hence a comparison without
regard to order finds for each keyword the one of its name and no other.

Entries that were listed have their positions for keys.  Folding appends the later entries of a
name under the positions that follow, so that the folded tree has all its entries under their
positions again (`Node.Folds.listsEntries`).
-/

namespace SchemaCatalog

open Relation

variable {eq : Node → Node → Bool}

/-! ## Equality -/

lemma Facet.name_eq_of_same {a b : Facet} (h : a.same b = true) : a.name = b.name := by
  cases a <;> cases b <;> simp_all [Facet.same, Facet.name]

lemma Keyword.name_eq_of_sameWith {j k : Keyword} (h : j.sameWith eq k = true) :
    j.name = k.name := by
  cases j with
  | facet a =>
    cases k with
    | facet b => exact Facet.name_eq_of_same h
    | _ => cases h
  | _ => cases k <;> simp_all [sameWith, name]

lemma sameMembersWith_of_forall₂ {a b : List (String × Node)}
    (h : List.Forall₂ (fun e e' => e.1 = e'.1 ∧ eq e.2 e'.2 = true) a b) :
    sameMembersWith eq a b = true := by
  have get : ∀ name, name ∈ OrderedMap.keys a →
      ∃ m n, OrderedMap.get? a name = some m ∧ OrderedMap.get? b name = some n ∧
        eq m n = true := by
    intro name hname
    induction h with
    | nil => cases hname
    | @cons e e' a b hee _ ih =>
      by_cases he : e.1 = name
      · have he' : e'.1 = name := hee.1.symm.trans he
        refine ⟨e.2, e'.2, ?_, ?_, hee.2⟩
        · simp only [OrderedMap.get?, he, if_true]
        · simp only [OrderedMap.get?, he', if_true]
      · have he' : ¬ e'.1 = name := fun h => he (hee.1.trans h)
        simp only [OrderedMap.keys_cons, List.mem_cons, Ne.symm he, false_or] at hname
        simpa only [OrderedMap.get?, he, he', if_false] using ih hname
  simp only [sameMembersWith, h.length_eq, beq_self_eq_true, Bool.true_and, List.all_eq_true]
  intro e he
  obtain ⟨m, n, hm, hn, heq⟩ := get e.1 (List.mem_map_of_mem he)
  simp only [hm, hn, heq]

lemma sameSchemasWith_of_forall₂ {a b : List Node}
    (h : List.Forall₂ (fun m n => eq m n = true) a b) : sameSchemasWith eq a b = true := by
  induction h with
  | nil => rfl
  | cons h _ ih => rw [sameSchemasWith, h, ih, Bool.and_self]

lemma Keyword.sameWith_of_related {j k : Keyword}
    (h : Related (fun a b => eq a b = true) j k) : j.sameWith eq k = true := by
  cases h with
  | keyed h => rw [sameWith, sameMembersWith_of_forall₂ h, beq_self_eq_true, Bool.and_self]
  | ordered h => rw [sameWith, sameSchemasWith_of_forall₂ h, beq_self_eq_true, Bool.and_self]
  | additionalProperties h => exact h
  | ref => exact beq_self_eq_true _
  | facet => exact Facet.same_refl _

/-- Keywords that are equal one by one have the same elements, if their names are distinct: no
keyword but the one in its place equals a given one. -/
lemma sameElements_of_forall₂ (refl : ∀ n, eq n n = true) {a b : List Keyword}
    (h : List.Forall₂ (fun j k => j.sameWith eq k = true ∧ k.sameWith eq j = true) a b)
    (nodup : (a.map Keyword.name).Nodup) : sameElements (Keyword.sameWith eq) a b = true := by
  have hnames : b.map Keyword.name = a.map Keyword.name := by
    clear nodup
    induction h with
    | nil => rfl
    | cons h _ ih => rw [List.map_cons, List.map_cons, ih, Keyword.name_eq_of_sameWith h.1]
  have hcount (l : List Keyword) (s : String) :
      l.countP (fun k => k.name = s) = (l.map Keyword.name).count s := by
    rw [List.count, List.countP_map]
    rfl
  rw [sameElements_eq_countP (Keyword.sameWith_refl refl), h.length_eq, beq_self_eq_true,
    Bool.true_and, List.all_eq_true]
  intro x hx
  have unique : ∀ y ∈ a, y.name = x.name → y = x := fun y hy hname =>
    List.inj_on_of_nodup_map nodup hy hx hname
  have ha : a.countP (Keyword.sameWith eq · x) = a.countP fun k => k.name = x.name := by
    refine List.countP_congr fun y hy => ?_
    rw [decide_eq_true_eq]
    refine ⟨Keyword.name_eq_of_sameWith, fun hname => ?_⟩
    rw [unique y hy hname]
    exact Keyword.sameWith_refl refl x
  have hb : b.countP (Keyword.sameWith eq · x) = b.countP fun k => k.name = x.name := by
    refine List.countP_congr fun y hy => ?_
    rw [decide_eq_true_eq]
    refine ⟨Keyword.name_eq_of_sameWith, fun hname => ?_⟩
    obtain ⟨z, hz, hyz⟩ := Keyword.exists_rel_of_mem h.flip hy
    obtain rfl := unique z hz ((Keyword.name_eq_of_sameWith hyz.1).trans hname)
    exact hyz.2
  rw [ha, hb, hcount, hcount, hnames, beq_self_eq_true]

theorem Node.Folds.same {n m : Node} (h : n.Folds m) : n.same m = true ∧ m.same n = true := by
  induction h with
  | @fold n ks ks' P _ folded keywords ih =>
    have hsame : List.Forall₂ (fun j k => j.sameWith Node.same k = true ∧
        k.sameWith Node.same j = true) ks ks' := by
      refine keywords.imp fun j k hjk => ⟨?_, ?_⟩
      · exact Keyword.sameWith_of_related (hjk.mono fun a _ b hab => (ih a b hab).1)
      · exact Keyword.sameWith_of_related (hjk.flip.mono fun b _ a hab => (ih a b hab).2)
    have hnodup : (ks.map Keyword.name).Nodup := Keyword.names_foldWith_nodup folded
    have hnodup' : (ks'.map Keyword.name).Nodup := by rwa [Keyword.names_of_related keywords]
    have hfold : Keyword.foldWith Node.same ks' = .ok ks' := Keyword.foldWith_of_nodup hnodup'
    rw [foldedKeywords] at folded
    simp only [same_eq_sameWith, sameWith, folded, hfold, beq_self_eq_true, Bool.true_and]
    exact ⟨sameElements_of_forall₂ same_refl hsame hnodup,
      sameElements_of_forall₂ same_refl (hsame.flip.imp fun _ _ h => h.symm) hnodup'⟩

/-! ## Keys by position -/

/-- The keys of listed entries. -/
def positions (n : Nat) : List String := (List.range n).map toString

lemma mem_positions {i n : Nat} : toString i ∈ positions n ↔ i < n := by
  rw [positions, List.mem_map]
  constructor
  · rintro ⟨j, hj, hji⟩
    rw [← Nat.repr_inj.1 hji]
    exact List.mem_range.1 hj
  · exact fun hi => ⟨i, List.mem_range.2 hi, rfl⟩

lemma positions_succ (n : Nat) : positions (n + 1) = positions n ++ [toString n] := by
  rw [positions, List.range_succ, List.map_append]
  rfl

/-- A keyword whose entries, if they go by position, are under their positions. -/
def Keyword.ListsEntries : Keyword → Prop
  | .keyed kind members =>
    kind.isPositional = true → OrderedMap.keys members = positions members.length
  | _ => True

namespace Keyword

/-- Whether entries are under their positions does not depend on the schemas. -/
lemma ListsEntries.related {R : Node → Node → Prop} {j k : Keyword} (h : j.ListsEntries)
    (hrel : Related R j k) : k.ListsEntries := by
  cases hrel with
  | keyed hmembers =>
    intro hpositional
    rw [OrderedMap.keys_eq_of_forall₂ hmembers fun _ _ h => h.1, ← hmembers.length_eq]
    exact h hpositional
  | _ => trivial

lemma lasting_listsEntries : Lasting ListsEntries :=
  fun _ _ _ _ hrel hj => hj.related hrel

/-- A keyword that was written as an array lists its entries. -/
theorem Reads.listsEntries {name : String} {items : List Json} {k : Keyword}
    (h : Reads name (.array items) k) : k.ListsEntries := by
  cases h with
  | indexed _ _ =>
    intro _
    rw [Decode.keys_indexed]
    simp [positions, Decode.indexed]
  | named layout _ =>
    intro hpositional
    rw [KeyedKind.layout_eq_indexed_iff.2 hpositional] at layout
    cases layout
  | @plain t v k h =>
    cases t <;> simp only [Decode.plain, Decode.reject, Decode.schemaShape, reduceCtorEq,
      map_eq_ok_iff, Except.ok.injEq] at h
    case default => exact h ▸ trivial
    all_goals
      obtain ⟨a, -, rfl⟩ := h
      trivial
  | _ => trivial

/-- The first free position of listed entries is the next one. -/
lemma freeIndex_of_positions {a : List (String × Node)}
    (h : OrderedMap.keys a = positions a.length) : freeIndex a = a.length := by
  have hfree : OrderedMap.contains a (toString a.length) = false := by
    rw [← Bool.not_eq_true, OrderedMap.contains_iff_mem_keys, h, mem_positions]
    exact Nat.lt_irrefl _
  rw [freeIndex]
  generalize a.length = n at hfree
  cases n with
  | zero => rfl
  | succ n => rw [freeIndexFrom, hfree, if_neg Bool.false_ne_true]

/-- Listed entries to which others are appended are listed, if those begin no later than the next
position. -/
lemma positions_appendWith {a b : List (String × Node)} {i : Nat} (hi : i ≤ a.length)
    (ha : OrderedMap.keys a = positions a.length)
    (hb : OrderedMap.keys b = (List.range' i b.length).map toString) :
    OrderedMap.keys (appendWith eq a b) = positions (appendWith eq a b).length := by
  induction b generalizing a i with
  | nil => exact ha
  | cons e b ih =>
    obtain ⟨key, n⟩ := e
    have snoc : ∀ m : Node, OrderedMap.keys (a ++ [(toString a.length, m)]) =
        positions (a ++ [(toString a.length, m)]).length := by
      intro m
      rw [List.length_append, List.length_singleton, positions_succ, ← ha]
      simp [OrderedMap.keys]
    rw [OrderedMap.keys_cons, List.length_cons, List.range'_succ, List.map_cons,
      List.cons.injEq] at hb
    obtain ⟨rfl, hb⟩ := hb
    rw [appendWith]
    split
    case h_1 m hm =>
      have hlt : i < a.length := by
        rw [← mem_positions, ← ha, ← OrderedMap.contains_iff_mem_keys, OrderedMap.contains, hm]
        rfl
      split
      · exact ih hlt ha hb
      · rw [freeIndex_of_positions ha]
        refine ih ?_ (snoc n) hb
        rw [List.length_append]
        omega
    case h_2 hnone =>
      have hge : ¬ i < a.length := by
        rw [← mem_positions, ← ha, ← OrderedMap.contains_iff_mem_keys, OrderedMap.contains, hnone]
        exact Bool.false_ne_true
      obtain rfl : i = a.length := by omega
      refine ih ?_ (snoc n) hb
      rw [List.length_append, List.length_singleton]

lemma ListsEntries.absorb {j k i : Keyword} (hj : j.ListsEntries) (hk : k.ListsEntries)
    (h : j.absorbWith eq k = .ok i) : i.ListsEntries := by
  cases j with
  | keyed kind members =>
    cases k with
    | keyed kind' members' =>
      simp only [absorbWith] at h
      split at h
      case isTrue => exact Except.ok.inj h ▸ hj
      case isFalse hkind =>
        obtain rfl : kind = kind' := not_not.1 hkind
        split at h
        case isTrue hpositional =>
          obtain rfl := Except.ok.inj h
          refine fun _ => positions_appendWith (Nat.zero_le _) (hj hpositional) ?_
          rw [hk hpositional, positions, List.range_eq_range']
        case isFalse hpositional =>
          obtain ⟨united, -, rfl⟩ := map_eq_ok_iff.1 h
          exact fun h => absurd h hpositional
    | _ => cases h; exact hj
  | facet a => cases k <;> cases h <;> trivial
  | ordered kind schemas => cases k <;> cases h <;> trivial
  | _ => cases k <;> cases h <;> trivial

lemma ListsEntries.rekeyed_eq {k : Keyword} (h : k.ListsEntries) : k.rekeyed = k := by
  have ext {a b : List (String × Node)} (hkeys : OrderedMap.keys a = OrderedMap.keys b)
      (hvalues : OrderedMap.values a = OrderedMap.values b) : a = b := by
    rw [← List.zip_unzip a, ← List.zip_unzip b, List.unzip_eq_map, List.unzip_eq_map]
    exact congrArg₂ List.zip hkeys hvalues
  cases k with
  | keyed kind members =>
    rw [rekeyed, KeyedKind.rekey]
    split
    case isFalse => rfl
    case isTrue hpositional =>
      rw [ext (a := Decode.indexed (OrderedMap.values members)) (b := members)]
      · rw [Decode.keys_indexed, h hpositional, OrderedMap.values, List.length_map, positions]
      · exact Decode.values_indexed _
  | _ => rfl

lemma map_eq_self {f : Node → Node} {k : Keyword} (h : ∀ c ∈ k.nested, f c = c) : k.map f = k := by
  cases k with
  | keyed kind members =>
    rw [Keyword.map, List.map_congr_left (g := id), List.map_id]
    exact fun e he => Prod.ext rfl (h e.2 (List.mem_map_of_mem he))
  | ordered kind schemas =>
    rw [Keyword.map, List.map_congr_left (g := id), List.map_id]
    exact h
  | additionalProperties schema => rw [Keyword.map, h schema (List.mem_singleton_self schema)]
  | ref target => rfl
  | facet a => rfl

end Keyword

namespace Json

/-- Whether every `errors` and `subcodes` keyword of a schema is an array, in the schema itself and
in all schemas inside it. -/
def ListsEntries (v : Json) : Prop :=
  ∀ members, ReflTransGen HasSchema v (.object members) →
    ∀ m ∈ members, m.1 = "errors" ∨ m.1 = "subcodes" → ∃ items, m.2 = .array items

lemma ListsEntries.hasSchema {v u : Json} (h : v.ListsEntries) (hu : v.HasSchema u) :
    u.ListsEntries := fun members hreach => h members (.head hu hreach)

end Json

namespace Node

/-- A schema whose entries that go by position were written as arrays lists them throughout. -/
theorem listsEntries_of_decode {v : Json} {n : Node} (hv : v.ListsEntries)
    (h : decode v = .ok n) : n.Throughout (Carries Keyword.ListsEntries) := by
  refine decode_throughout (fun _ _ hv hu => hv.hasSchema hu) ?_ hv h
  intro members hv m hm k hread
  have harray := hv members .refl m hm
  generalize m.1 = name, m.2 = w at hread harray
  cases k with
  | keyed kind entries =>
    intro hpositional
    have hname : name = "errors" ∨ name = "subcodes" := by
      rw [← hread.name_eq]
      cases kind <;> simp_all [KeyedKind.isPositional, Keyword.name, KeyedKind.name]
    obtain ⟨items, rfl⟩ := harray hname
    exact hread.listsEntries hpositional
  | _ => trivial

theorem positional_eq_self {n : Node} (h : ∀ c ∈ n.nodes, ∀ k ∈ c.keywords, k.ListsEntries) :
    n.positional = n := by
  induction n using induction_nested with
  | step n ih =>
    have hkeywords : n.keywords.map (fun k => (k.map positional).rekeyed) = n.keywords := by
      rw [List.map_congr_left (g := id), List.map_id]
      intro k hk
      rw [Keyword.map_eq_self fun c hc => ih k hk c hc fun d hd =>
        h d (mem_nodes_of_nested hk hc hd)]
      exact (h n n.self_mem_nodes k hk).rekeyed_eq
    rw [positional_eq, hkeywords]
    cases n
    rfl

theorem Folds.listsEntries {n m : Node} (h : n.Folds m)
    (hn : ∀ c ∈ n.nodes, ∀ k ∈ c.keywords, k.ListsEntries) :
    ∀ c ∈ m.nodes, ∀ k ∈ c.keywords, k.ListsEntries := by
  induction h with
  | @fold n ks ks' P _ folded keywords ih =>
    have hlists : ∀ k ∈ ks, k.ListsEntries :=
      Keyword.foldWith_forall (fun _ _ _ hj hk _ hi => hj.absorb hk hi) folded
        (hn n n.self_mem_nodes)
    intro c hc k' hk'
    rcases mem_nodes.1 hc with rfl | ⟨j', hj', d', hd', hc⟩
    · obtain ⟨k, hk, hrel⟩ := Keyword.exists_rel_of_mem keywords.flip hk'
      exact (hlists k hk).related hrel
    · obtain ⟨j, hj, hrel⟩ := Keyword.exists_rel_of_mem keywords.flip hj'
      obtain ⟨d, hd, hP⟩ := Keyword.exists_rel_of_mem hrel.nested.flip hd'
      obtain ⟨l, hl, hd⟩ := nested_foldedKeywords folded hj hd
      exact ih d d' hP (fun e he => hn e (mem_nodes_of_nested hl hd he)) c hc k' hk'

end Node

end SchemaCatalog
