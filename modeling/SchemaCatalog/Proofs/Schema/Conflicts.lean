import SchemaCatalog.Proofs.Resolution.Gathered

/-!
# When keywords cannot be folded

Folding compares a keyword with what the earlier ones of its name were folded to, and may go
through other names in between.  All the same it fails exactly where two of the keywords at hand
conflict (`Keyword.Clash`): two collections of one kind have different schemas under one key
(`Node.foldedKeywords_conflicts`).  So pairs suffice, the order does not matter, and the error names
a kind and a key at which there is a conflict.

The one direction follows the run that fails: the keyword at which it stops conflicts with a schema
that is left of an earlier keyword.  The other is that keywords which can be folded agree on all
the schemas they hold, because each is the same as the one that is left under its key, and equality
is transitive.
-/

namespace SchemaCatalog

namespace Keyword

variable {kind : KeyedKind} {key : String} {j k : Keyword} {ks ks' r : List Keyword}
  {e : EncodeError}

/-- Two keywords conflict at a key: they are collections of one kind, of those kinds in which a key
must lead to one schema, and have different schemas under the key. -/
def Clash (kind : KeyedKind) (key : String) (j k : Keyword) : Prop :=
  kind ∈ [.properties, .patternProperties, .definitions, .methods, .parameters, .responses] ∧
    ∃ a b m n, j = .keyed kind a ∧ k = .keyed kind b ∧ (key, m) ∈ a ∧ (key, n) ∈ b ∧
      m.same n = false

lemma isPositional_eq_false_iff : kind.isPositional = false ↔
    kind ∈ [.properties, .patternProperties, .definitions, .methods, .parameters, .responses] := by
  cases kind <;> simp [KeyedKind.isPositional]

/-! ## Where folding stops -/

lemma conflict_of_uniteWith {eq : Node → Node → Bool} {keyword : String}
    {a b : List (String × Node)} (hb : (OrderedMap.keys b).Nodup)
    (h : uniteWith eq keyword a b = .error e) :
    ∃ key m n, e = .conflictingKey keyword key ∧ (key, m) ∈ a ∧ (key, n) ∈ b ∧
      eq m n = false := by
  induction b generalizing a with
  | nil => cases h
  | cons f b ih =>
    obtain ⟨key, n⟩ := f
    obtain ⟨hkey, hb⟩ := List.nodup_cons.1 hb
    rw [uniteWith] at h
    split at h
    case h_1 m hm =>
      split at h
      case isTrue =>
        obtain ⟨key', m', n', rfl, hm', hn', hne⟩ := ih hb h
        exact ⟨key', m', n', rfl, hm', List.mem_cons_of_mem _ hn', hne⟩
      case isFalse hne =>
        exact ⟨key, m, n, (Except.error.inj h).symm, OrderedMap.mem_of_get?_eq_some hm,
          List.mem_cons_self, Bool.not_eq_true _ ▸ hne⟩
    case h_2 =>
      obtain ⟨key', m', n', rfl, hm', hn', hne⟩ := ih hb h
      refine ⟨key', m', n', rfl, ?_, List.mem_cons_of_mem _ hn', hne⟩
      rcases List.mem_append.1 hm' with hm' | hm'
      · exact hm'
      · -- the entry just added is the only one of its key
        obtain ⟨rfl, rfl⟩ := Prod.mk.inj (List.mem_singleton.1 hm')
        exact absurd (OrderedMap.mem_keys_of_mem hn') hkey

lemma clash_of_absorb (hk : k.Comparable) (h : j.absorb k = .error e) :
    ∃ kind key, e = .conflictingKey kind.name key ∧ Clash kind key j k := by
  cases j with
  | keyed kind a =>
    cases k with
    | keyed kind' b =>
      rw [absorb, absorbWith] at h
      split at h
      case isTrue => cases h
      case isFalse hkind =>
        obtain rfl : kind = kind' := not_not.1 hkind
        split at h
        case isTrue => cases h
        case isFalse hpositional =>
          cases hunited : uniteWith Node.same kind.name a b with
          | ok r =>
            rw [hunited] at h
            cases h
          | error e' =>
            rw [hunited] at h
            obtain rfl := Except.error.inj h
            obtain ⟨key, m, n, rfl, hm, hn, hne⟩ := conflict_of_uniteWith hk hunited
            exact ⟨kind, key, rfl,
              isPositional_eq_false_iff.1 (Bool.not_eq_true _ ▸ hpositional),
              a, b, m, n, rfl, rfl, hm, hn, hne⟩
    | _ => cases h
  | ordered kind schemas => cases k <;> cases h
  | facet a => cases k <;> cases h
  | _ => cases k <;> cases h

lemma exists_absorb_of_foldIn {eq : Node → Node → Bool} (h : foldInWith eq ks k = .error e) :
    ∃ j ∈ ks, j.absorbWith eq k = .error e := by
  induction ks with
  | nil => cases h
  | cons j ks ih =>
    rw [foldInWith] at h
    split at h
    case isTrue =>
      cases hj : j.absorbWith eq k with
      | ok i =>
        rw [hj] at h
        cases h
      | error e' =>
        rw [hj] at h
        obtain rfl := Except.error.inj h
        exact ⟨j, List.mem_cons_self, hj⟩
    case isFalse =>
      cases hrest : foldInWith eq ks k with
      | ok r =>
        rw [hrest] at h
        cases h
      | error e' =>
        rw [hrest] at h
        obtain rfl := Except.error.inj h
        obtain ⟨i, hi, herror⟩ := ih hrest
        exact ⟨i, List.mem_cons_of_mem _ hi, herror⟩

lemma exists_foldIn_of_fold {eq : Node → Node → Bool} (h : foldWith eq ks = .error e) :
    ∃ done k rest r, ks = done ++ k :: rest ∧ foldWith eq done = .ok r ∧
      foldInWith eq r k = .error e := by
  induction ks using List.reverseRecOn with
  | nil => cases h
  | append_singleton ks k ih =>
    have hstep : foldWith eq (ks ++ [k]) = foldWith eq ks >>= (foldInWith eq · k) := by
      rw [foldWith, List.foldlM_append]
      exact congrArg _ (funext fun r => bind_pure (foldInWith eq r k))
    rw [hstep] at h
    cases hks : foldWith eq ks with
    | ok r =>
      rw [hks] at h
      exact ⟨ks, k, [], r, rfl, hks, h⟩
    | error e' =>
      rw [hks] at h
      obtain rfl := Except.error.inj h
      obtain ⟨done, l, rest, r, rfl, hdone, hl⟩ := ih hks
      exact ⟨done, l, rest ++ [k], r, by simp, hdone, hl⟩

/-- Where keywords cannot be folded, two of them conflict, at the kind and the key of the error. -/
theorem clash_of_fold (hks : ∀ k ∈ ks, k.Comparable) (h : foldWith Node.same ks = .error e) :
    ∃ kind key j k, e = .conflictingKey kind.name key ∧ [j, k].Sublist ks ∧
      Clash kind key j k := by
  obtain ⟨done, k, rest, r, rfl, hdone, hk⟩ := exists_foldIn_of_fold h
  obtain ⟨i, hi, hik⟩ := exists_absorb_of_foldIn hk
  rw [List.forall_mem_append, List.forall_mem_cons] at hks
  obtain ⟨kind, key, rfl, hkind, c, b, m, n, rfl, rfl, hm, hn, hne⟩ :=
    clash_of_absorb hks.2.1 hik
  -- the schema that is left of the earlier keywords stands in one of them
  obtain ⟨hback, -⟩ := entry_foldWith Node.same_refl (isPositional_eq_false_iff.2 hkind) hks.1
    hdone key
  obtain ⟨a, ha, hm⟩ := hback m ⟨c, hi, hm⟩
  refine ⟨kind, key, keyed kind a, keyed kind b, rfl, ?_, hkind, a, b, m, n, rfl, rfl, hm, hn, hne⟩
  exact (List.singleton_sublist.2 ha).append
    (List.singleton_sublist.2 (List.mem_cons_self (a := keyed kind b) (l := rest)))

lemma Clash.not_agree (h : Clash kind key j k) (hsub : [j, k].Sublist ks) :
    ¬ Agree Node.same ks := by
  obtain ⟨hkind, a, b, m, n, rfl, rfl, hm, hn, hne⟩ := h
  intro hagree
  have hsame := hagree kind key m n (isPositional_eq_false_iff.2 hkind)
    ⟨a, hsub.subset (by simp), hm⟩ ⟨b, hsub.subset (by simp), hn⟩
  rw [hne] at hsame
  cases hsame

/-! ## What is left -/

/-- The names of folded keywords are those of the keywords, each where it occurs first. -/
theorem names_foldWith {eq : Node → Node → Bool} (h : foldWith eq ks = .ok r) :
    r.map name = (ks.map name).eraseDups := by
  refine foldWith_induction (motive := fun done r => r.map name = (done.map name).eraseDups) rfl
    ?_ ?_ h
  · intro done r k hr hnew
    have hmem : k.name ∉ done.map name := by rwa [hr, List.mem_eraseDups] at hnew
    rw [List.map_append, List.map_append, hr, List.map_singleton, eraseDups_concat, if_neg hmem]
  · intro done before j after k i hr hj _ hi
    have hmem : k.name ∈ done.map name := by
      rw [← List.mem_eraseDups, ← hr, ← hj]
      simp
    have hnames : (before ++ i :: after).map name = (before ++ j :: after).map name := by
      simp [name_absorbWith hi]
    rw [hnames, hr, List.map_append, List.map_singleton, eraseDups_concat, if_pos hmem]

end Keyword

/-! ## Nodes -/

namespace Node

open Keyword

lemma exists_error_iff {n : Node} (h : ∀ k ∈ n.keywords, k.Comparable ∧ k.All Comparable) :
    (∃ e, n.foldedKeywords = .error e) ↔ ¬ Agree same n.keywords := by
  rw [← exists_foldWith_iff equivalenceOn_same h]
  unfold foldedKeywords
  cases foldWith same n.keywords <;> simp

/-- **Folding fails exactly on a conflict.**  The keywords of a node cannot be folded if and only if
two of them conflict; the error names a kind and a key of such a conflict, and the order of the
keywords has no part in whether there is one.  If they can be folded, every name that occurs is left
once, in the order in which the names occur first, and what is left is folded already. -/
theorem foldedKeywords_conflicts {n : Node} (h : ∀ k ∈ n.keywords, k.Gathered) :
    ((∃ e, n.foldedKeywords = .error e) ↔
        ∃ kind key j k, [j, k].Sublist n.keywords ∧ Clash kind key j k) ∧
      (∀ e, n.foldedKeywords = .error e → ∃ kind key j k, e = .conflictingKey kind.name key ∧
        [j, k].Sublist n.keywords ∧ Clash kind key j k) ∧
      (∀ n' : Node, n'.keywords.Perm n.keywords →
        ((∃ e, n'.foldedKeywords = .error e) ↔ ∃ e, n.foldedKeywords = .error e)) ∧
      ∀ r, n.foldedKeywords = .ok r → r.map name = (n.keywords.map name).eraseDups ∧
        ∀ n' : Node, n'.keywords = r → n'.foldedKeywords = .ok r := by
  have hks : ∀ k ∈ n.keywords, k.Comparable ∧ k.All Comparable := fun k hk => (h k hk).comparable
  have hfails : ∀ e, n.foldedKeywords = .error e → ∃ kind key j k,
      e = .conflictingKey kind.name key ∧ [j, k].Sublist n.keywords ∧ Clash kind key j k :=
    fun e he => clash_of_fold (fun k hk => (hks k hk).1) he
  refine ⟨⟨?_, ?_⟩, hfails, ?_, ?_⟩
  · rintro ⟨e, he⟩
    obtain ⟨kind, key, j, k, -, hclash⟩ := hfails e he
    exact ⟨kind, key, j, k, hclash⟩
  · rintro ⟨kind, key, j, k, hsub, hclash⟩
    exact (exists_error_iff hks).2 (hclash.not_agree hsub)
  · intro n' hperm
    have hks' : ∀ k ∈ n'.keywords, k.Comparable ∧ k.All Comparable :=
      fun k hk => hks k (hperm.mem_iff.1 hk)
    rw [exists_error_iff hks, exists_error_iff hks']
    simp only [Agree, Entry, hperm.mem_iff]
  · intro r hr
    refine ⟨names_foldWith hr, ?_⟩
    rintro n' rfl
    exact foldWith_of_nodup (names_foldWith_nodup hr)

/-- Two `properties` with a type between them: different schemas for a member conflict in either
order, and equal ones do not. -/
theorem foldedKeywords_conflicts_properties : ∃ j k l : Keyword,
    (∀ i ∈ [j, k, l], i.Gathered) ∧ Clash .properties "a" j l ∧
      (∃ e, (ofKeywords [j, k, l]).foldedKeywords = .error e) ∧
      (∃ e, (ofKeywords [l, k, j]).foldedKeywords = .error e) ∧
      ∃ r, (ofKeywords [j, k, j]).foldedKeywords = .ok r ∧ r.map name = ["properties", "type"] := by
  let member (type : String) : Json := .object [("a", .object [("type", .string type)])]
  let properties (type : String) : Keyword :=
    .keyed .properties [("a", .ofKeywords [.facet (.type [type])])]
  let object : Keyword := .facet (.type ["object"])
  have hread (name : String) (v : Json) (k : Keyword) (hv : v.hasDistinctNames = true)
      (h : Keyword.decode name v = .ok k) : k.Gathered := .decoded hv h
  have hstring := hread "properties" (member "string") (properties "string") (by decide) rfl
  have hinteger := hread "properties" (member "integer") (properties "integer") (by decide) rfl
  have hobject := hread "type" (.string "object") object rfl rfl
  have hclash : Clash .properties "a" (properties "string") (properties "integer") :=
    ⟨List.mem_cons_self, _, _, _, _, rfl, rfl, List.mem_cons_self, List.mem_cons_self,
      by decide +kernel⟩
  obtain ⟨hiff, -, hperm, -⟩ := foldedKeywords_conflicts
    (n := ofKeywords [properties "string", object, properties "integer"])
    (by simp [ofKeywords, hstring, hobject, hinteger])
  have hfails := hiff.2 ⟨_, _, _, _, by simp [ofKeywords], hclash⟩
  obtain ⟨-, -, -, hfolds⟩ := foldedKeywords_conflicts
    (n := ofKeywords [properties "string", object, properties "string"])
    (by simp [ofKeywords, hstring, hobject])
  have hok : (ofKeywords [properties "string", object, properties "string"]).foldedKeywords.isOk =
      true := by decide +kernel
  obtain ⟨r, hr⟩ := exists_eq_ok_of_isOk hok
  refine ⟨properties "string", object, properties "integer", ?_, hclash, hfails,
    (hperm (ofKeywords [properties "integer", object, properties "string"]) ?_).2 hfails, r, hr, ?_⟩
  · simp [hstring, hobject, hinteger]
  · exact List.reverse_perm [properties "string", object, properties "integer"]
  · exact (hfolds r hr).1

end Node

end SchemaCatalog
