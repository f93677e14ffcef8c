import SchemaCatalog.Proofs.Schema.Proper
import Std.Data.String.ToNat

/-!
# Keywords that can be compared

Equality of schemas looks names up: keywords in what has been folded, schemas in named
collections, members in JSON objects.  It is well behaved where a name leads to one thing, which is
what `Keyword.Comparable` says of a keyword: it repeats no key, no JSON in it repeats a member name,
and if it keeps a member as it is then under a name outside the vocabulary, so that keywords of one
name are of one sort.

All this holds of keywords that are read (`Keyword.Reads.comparable`), it asks nothing of nested
schemas (`Keyword.lasting_comparable`), and folding keeps it (`Keyword.Comparable.fold`).  Folding
may give entries that go by position new keys, and these are free indeed
(`freeIndex_notMem_keys`): of one more candidate than there are entries one is no key.
-/

namespace SchemaCatalog

/-- What a comparison needs of a facet. -/
def Facet.Comparable : Facet → Prop
  | .enum values => ∀ v ∈ values, v.hasDistinctNames = true
  | .default v => v.hasDistinctNames = true
  | .unrecognized name v => Term.ofName? name = none ∧ v.hasDistinctNames = true
  | _ => True

/-- What a comparison needs of a keyword. -/
def Keyword.Comparable : Keyword → Prop
  | .keyed _ members => (OrderedMap.keys members).Nodup
  | .facet a => a.Comparable
  | _ => True

namespace Keyword

lemma Comparable.name_eq_iff {k : Keyword} (h : k.Comparable) {t : Term} :
    k.name = t.name ↔ k.term? = some t :=
  Keyword.name_eq_iff (by rintro name v rfl; exact h.1)

lemma Comparable.eq_keyed {k : Keyword} (h : k.Comparable) {kind : KeyedKind}
    (hname : k.name = kind.name) : ∃ members, k = .keyed kind members :=
  eq_keyed_of_term? (h.name_eq_iff.1 hname)

/-! ## Reading and resolving -/

lemma nodup_keys_indexed (schemas : List Node) :
    (OrderedMap.keys (Decode.indexed schemas)).Nodup := by
  rw [Decode.keys_indexed]
  exact List.nodup_range.map fun _ _ h => Nat.repr_inj.1 h

lemma comparable_of_plain {t : Term} {v : Json} {k : Keyword} (hv : v.hasDistinctNames = true)
    (h : Decode.plain t v = .ok k) : k.Comparable := by
  cases t with
  | keyed kind => cases h
  | ordered kind => cases h
  | additionalProperties => cases h
  | default => exact Except.ok.inj h ▸ hv
  | enum =>
    obtain ⟨values, hvalues, rfl⟩ := map_eq_ok_iff.1 h
    cases v with
    | array items =>
      obtain rfl := Except.ok.inj hvalues
      exact Json.hasDistinctNames_array.1 hv
    | _ => cases hvalues
  | _ =>
    obtain ⟨a, -, rfl⟩ := map_eq_ok_iff.1 h
    trivial

theorem Reads.comparable {name : String} {v : Json} {k : Keyword}
    (hv : v.hasDistinctNames = true) (h : Reads name v k) : k.Comparable := by
  cases h with
  | unrecognized unknown => exact ⟨unknown, hv⟩
  | members layout schemas =>
    have hkeys := OrderedMap.keys_eq_of_forall₂ (Node.decodeMembers_eq_ok_iff.1 schemas)
      fun _ _ h => h.1
    rw [Comparable, hkeys]
    exact (Json.hasDistinctNames_object.1 hv).1
  | indexed layout schemas => exact nodup_keys_indexed _
  | named layout schemas => exact (Node.decodeNamed_eq_ok_iff.1 schemas).2.1
  | plain h => exact comparable_of_plain hv h
  | _ => trivial

/-- Whether a keyword can be compared does not depend on the schemas it holds. -/
lemma Comparable.related {R : Node → Node → Prop} {j k : Keyword} (h : j.Comparable)
    (hrel : Related R j k) : k.Comparable := by
  cases hrel with
  | keyed hmembers =>
    rw [Comparable, OrderedMap.keys_eq_of_forall₂ hmembers fun _ _ h => h.1]
    exact h
  | facet => exact h
  | _ => trivial

theorem lasting_comparable : Lasting Comparable :=
  fun _ _ _ _ hrel hj => hj.related hrel

end Keyword

/-! ## Folding -/

section Folding

variable {eq : Node → Node → Bool}

/-- If what the search for a free number ends with is taken then so is every candidate. -/
lemma contains_of_contains_freeIndexFrom {a : List (String × Node)} {fuel index : Nat}
    (h : OrderedMap.contains a (toString (freeIndexFrom a fuel index)) = true) :
    ∀ i ≤ fuel, OrderedMap.contains a (toString (index + i)) = true := by
  induction fuel generalizing index with
  | zero =>
    intro i hi
    obtain rfl : i = 0 := Nat.le_zero.1 hi
    exact h
  | succ fuel ih =>
    rw [freeIndexFrom] at h
    split at h
    case isFalse hfree => exact absurd h hfree
    case isTrue htaken =>
      intro i hi
      cases i with
      | zero => exact htaken
      | succ i =>
        have := ih h i (Nat.le_of_succ_le_succ hi)
        rwa [show index + 1 + i = index + (i + 1) by omega] at this

theorem freeIndex_notMem_keys (a : List (String × Node)) :
    toString (freeIndex a) ∉ OrderedMap.keys a := by
  rw [← OrderedMap.contains_iff_mem_keys]
  intro htaken
  have hall := contains_of_contains_freeIndexFrom htaken
  -- the candidates are distinct keys, and one more than there are entries
  let candidates := (List.range (a.length + 1)).map fun i => toString (a.length + i)
  have hnodup : candidates.Nodup :=
    List.nodup_range.map fun _ _ h => Nat.add_left_cancel (Nat.repr_inj.1 h)
  have hsub : candidates ⊆ OrderedMap.keys a := by
    intro s hs
    obtain ⟨i, hi, rfl⟩ := List.mem_map.1 hs
    rw [← OrderedMap.contains_iff_mem_keys]
    exact hall i (Nat.le_of_lt_succ (List.mem_range.1 hi))
  have hle := (List.subperm_of_subset hnodup hsub).length_le
  simp only [candidates, OrderedMap.keys, List.length_map, List.length_range] at hle
  omega

lemma nodup_keys_appendWith {a b : List (String × Node)} (h : (OrderedMap.keys a).Nodup) :
    (OrderedMap.keys (appendWith eq a b)).Nodup := by
  induction b generalizing a with
  | nil => exact h
  | cons e b ih =>
    obtain ⟨key, n⟩ := e
    rw [appendWith]
    split
    case h_1 m hm =>
      split
      · exact ih h
      · exact ih (OrderedMap.nodup_keys_snoc h n (freeIndex_notMem_keys a))
    case h_2 hnone => exact ih (OrderedMap.nodup_keys_snoc h n (OrderedMap.get?_eq_none_iff.1 hnone))

namespace Keyword

lemma Comparable.absorb {j k i : Keyword} (hj : j.Comparable) (h : j.absorbWith eq k = .ok i) :
    i.Comparable := by
  cases j with
  | keyed kind members =>
    cases k with
    | keyed kind' members' =>
      simp only [absorbWith] at h
      split at h
      case isTrue => exact Except.ok.inj h ▸ hj
      case isFalse =>
        split at h
        case isTrue => exact Except.ok.inj h ▸ nodup_keys_appendWith hj
        case isFalse =>
          obtain ⟨united, hunited, rfl⟩ := map_eq_ok_iff.1 h
          exact (uniteWith_eq_ok hunited).1 hj
    | _ => cases h; exact hj
  | facet a =>
    cases k with
    | facet b =>
      obtain rfl := Except.ok.inj h
      cases a with
      | type names => cases b <;> trivial
      | required r => rcases r with _ | _ <;> rcases b with _ | ⟨_ | _⟩ | _ <;> trivial
      | _ => cases b <;> exact hj
    | _ => cases h; exact hj
  | ordered kind schemas => cases k <;> cases h <;> trivial
  | _ => cases k <;> cases h <;> trivial

theorem Comparable.fold {ks r : List Keyword} (h : foldWith eq ks = .ok r)
    (hks : ∀ k ∈ ks, k.Comparable) : ∀ k ∈ r, k.Comparable :=
  foldWith_forall (fun _ _ _ hj _ _ hi => hj.absorb hi) h hks

end Keyword

end Folding

end SchemaCatalog
