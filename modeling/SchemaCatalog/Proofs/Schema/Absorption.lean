import SchemaCatalog.Proofs.Resolution.Gathered

/-!
# What keywords are folded to

Keywords of one name become one keyword.  `Keyword.Absorbs` says which, without the fold: a
collection whose keys are those of all the collections, each with a schema that is the same as all
that they have under it (`Unites`); where entries go by position, the first collection and then
entries of the others, with one that is the same for every entry there was (`Extends`); branches one
after the other; the names of the first list and then the new ones; and of anything else the first
keyword.  So folding loses nothing and invents nothing (`Node.foldedKeywords_absorbs`).

What an entry by position is put under is another matter.  It keeps its key if that is free, is left
out if the same schema stands there, and otherwise goes under a free number, which may be the key of
an entry still to come.  That entry then finds its key taken in turn, so what holds of all entries
is not where they stand but that they are there.
-/

namespace SchemaCatalog

variable {eq : Node → Node → Bool} {a b c c' : List (String × Node)}
  {bs : List (List (String × Node))}

/-! ## Collections -/

/-- A collection with the keys of some collections, each with one of their schemas, which is the
same as all they have under the key. -/
structure Unites (bs : List (List (String × Node))) (c : List (String × Node)) : Prop where
  distinct : (OrderedMap.keys c).Nodup
  keys : ∀ key, key ∈ OrderedMap.keys c ↔ ∃ b ∈ bs, key ∈ OrderedMap.keys b
  same : ∀ key m n, (key, m) ∈ c → ∀ b ∈ bs, (key, n) ∈ b → m.same n = true
  entry : ∀ e ∈ c, ∃ b ∈ bs, e ∈ b

/-- A collection that starts with a first one, goes on with schemas of some others, and has one
that is the same for every schema of theirs. -/
structure Extends (a : List (String × Node)) (bs : List (List (String × Node)))
    (c : List (String × Node)) : Prop where
  distinct : (OrderedMap.keys c).Nodup
  first : a <+: c
  found : ∀ b ∈ bs, ∀ f ∈ b, ∃ e ∈ c, e.2.same f.2 = true
  entry : ∀ e ∈ c, ∃ b ∈ a :: bs, ∃ f ∈ b, f.2 = e.2

lemma Unites.singleton (ha : (OrderedMap.keys a).Nodup) : Unites [a] a where
  distinct := ha
  keys key := by simp
  same key m n hm b hb hn := by
    obtain rfl := List.mem_singleton.1 hb
    rw [OrderedMap.eq_of_mem ha hm hn]
    exact n.same_refl
  entry e he := ⟨a, List.mem_singleton_self a, he⟩

lemma Unites.unite {keyword : String} (h : Unites bs c)
    (hunite : uniteWith Node.same keyword c b = .ok c') : Unites (bs ++ [b]) c' := by
  obtain ⟨hdistinct, hentry⟩ := Keyword.uniteWith_eq_ok hunite
  obtain ⟨hkept, hfound⟩ := Keyword.exists_of_uniteWith Node.same_refl hunite
  have hdistinct := hdistinct h.distinct
  refine ⟨hdistinct, fun key => ⟨fun hkey => ?_, ?_⟩, ?_, ?_⟩
  · obtain ⟨m, hm⟩ := OrderedMap.exists_mem_of_mem_keys hkey
    rcases hentry _ hm with hm | hm
    · obtain ⟨b', hb', hkey⟩ := (h.keys key).1 (OrderedMap.mem_keys_of_mem hm)
      exact ⟨b', List.mem_append_left _ hb', hkey⟩
    · exact ⟨b, by simp, OrderedMap.mem_keys_of_mem hm⟩
  · rintro ⟨b', hb', hkey⟩
    rcases List.mem_append.1 hb' with hb' | hb'
    · obtain ⟨m, hm⟩ := OrderedMap.exists_mem_of_mem_keys ((h.keys key).2 ⟨b', hb', hkey⟩)
      exact OrderedMap.mem_keys_of_mem (hkept _ hm)
    · obtain rfl := List.mem_singleton.1 hb'
      obtain ⟨n, hn⟩ := OrderedMap.exists_mem_of_mem_keys hkey
      obtain ⟨m, hm, -⟩ := hfound _ hn
      exact OrderedMap.mem_keys_of_mem hm
  · intro key m n hm b' hb' hn
    rcases List.mem_append.1 hb' with hb' | hb'
    · obtain ⟨m', hm'⟩ := OrderedMap.exists_mem_of_mem_keys
        ((h.keys key).2 ⟨b', hb', OrderedMap.mem_keys_of_mem hn⟩)
      obtain rfl := OrderedMap.eq_of_mem hdistinct hm (hkept _ hm')
      exact h.same key m n hm' b' hb' hn
    · obtain rfl := List.mem_singleton.1 hb'
      obtain ⟨m', hm', hsame⟩ := hfound _ hn
      obtain rfl := OrderedMap.eq_of_mem hdistinct hm hm'
      exact hsame
  · intro e he
    rcases hentry e he with he | he
    · obtain ⟨b', hb', he⟩ := h.entry e he
      exact ⟨b', List.mem_append_left _ hb', he⟩
    · exact ⟨b, by simp, he⟩

lemma Extends.refl (ha : (OrderedMap.keys a).Nodup) : Extends a [] a where
  distinct := ha
  first := List.prefix_refl a
  found _ hb := absurd hb List.not_mem_nil
  entry e he := ⟨a, List.mem_cons_self, e, he, rfl⟩

/-- Appending takes nothing away, has a schema that is the same for every one appended, and has no
other. -/
lemma appendWith_spec (refl : ∀ n, eq n n = true) (a b : List (String × Node)) :
    a <+: appendWith eq a b ∧ (∀ f ∈ b, ∃ e ∈ appendWith eq a b, eq e.2 f.2 = true) ∧
      ∀ e ∈ appendWith eq a b, e ∈ a ∨ ∃ f ∈ b, f.2 = e.2 := by
  induction b generalizing a with
  | nil => exact ⟨List.prefix_refl a, fun f hf => absurd hf List.not_mem_nil, fun e he => .inl he⟩
  | cons f b ih =>
    obtain ⟨key, n⟩ := f
    -- an entry that is added, under whatever key, is there in the end
    have hadded (key' : String) :
        a <+: appendWith eq (a ++ [(key', n)]) b ∧
          (∀ f ∈ (key, n) :: b, ∃ e ∈ appendWith eq (a ++ [(key', n)]) b, eq e.2 f.2 = true) ∧
          ∀ e ∈ appendWith eq (a ++ [(key', n)]) b, e ∈ a ∨ ∃ f ∈ (key, n) :: b, f.2 = e.2 := by
      obtain ⟨hgrown, hfound, hentry⟩ := ih (a ++ [(key', n)])
      refine ⟨(List.prefix_append _ _).trans hgrown, List.forall_mem_cons.2 ⟨?_, hfound⟩, ?_⟩
      · exact ⟨(key', n), hgrown.subset (by simp), refl n⟩
      · intro e he
        rcases hentry e he with he | ⟨f, hf, hfe⟩
        · rcases List.mem_append.1 he with he | he
          · exact .inl he
          · obtain rfl := List.mem_singleton.1 he
            exact .inr ⟨(key, n), List.mem_cons_self, rfl⟩
        · exact .inr ⟨f, List.mem_cons_of_mem _ hf, hfe⟩
    rw [appendWith]
    split
    case h_1 m hm =>
      split
      case isTrue hsame =>
        obtain ⟨hgrown, hfound, hentry⟩ := ih a
        refine ⟨hgrown, List.forall_mem_cons.2 ⟨?_, hfound⟩, fun e he => ?_⟩
        · exact ⟨(key, m), hgrown.subset (OrderedMap.mem_of_get?_eq_some hm), hsame⟩
        · refine (hentry e he).imp_right ?_
          rintro ⟨f, hf, hfe⟩
          exact ⟨f, List.mem_cons_of_mem _ hf, hfe⟩
      case isFalse => exact hadded _
    case h_2 => exact hadded key

lemma Extends.append (h : Extends a bs c) : Extends a (bs ++ [b]) (appendWith Node.same c b) := by
  obtain ⟨hgrown, hfound, hentry⟩ := appendWith_spec Node.same_refl c b
  refine ⟨nodup_keys_appendWith h.distinct, h.first.trans hgrown, fun b' hb' f hf => ?_,
    fun e he => ?_⟩
  · rcases List.mem_append.1 hb' with hb' | hb'
    · obtain ⟨e, he, hsame⟩ := h.found b' hb' f hf
      exact ⟨e, hgrown.subset he, hsame⟩
    · obtain rfl := List.mem_singleton.1 hb'
      exact hfound f hf
  · rcases hentry e he with he | ⟨f, hf, hfe⟩
    · obtain ⟨b', hb', hf⟩ := h.entry e he
      refine ⟨b', ?_, hf⟩
      rw [← List.cons_append]
      exact List.mem_append_left _ hb'
    · exact ⟨b, by simp, f, hf, hfe⟩

/-! ## Names -/

/-- United names are those of the first list and then the new ones of the other, each once. -/
lemma uniteNames_eq (a b : List String) :
    uniteNames a b = a ++ (b.filter (· ∉ a)).eraseDups := by
  induction b generalizing a with
  | nil => simp [uniteNames]
  | cons s b ih =>
    rw [uniteNames]
    split
    case isTrue hs => rw [ih, List.filter_cons_of_neg (by simpa using hs)]
    case isFalse hs =>
      have hnew : b.filter (· ∉ a ++ [s]) = (b.filter (· ∉ a)).filter fun t => !t == s := by
        rw [List.filter_filter]
        refine List.filter_congr fun t _ => ?_
        by_cases hts : t = s <;> simp [hts]
      rw [ih, hnew, List.filter_cons_of_pos (by simpa using hs), List.eraseDups_cons]
      simp

namespace Keyword

variable {i j k : Keyword} {js ks : List Keyword}

/-- The members of a collection. -/
def members : Keyword → List (String × Node)
  | .keyed _ members => members
  | _ => []

/-- The names that a keyword lists, of types or of required properties. -/
def listed : Keyword → List String
  | .facet (.type names) => names
  | .facet (.required (.properties names)) => names
  | _ => []

/-- Whether a keyword becomes `i` when the later keywords `js` of its name are folded into it. -/
def Absorbs (j : Keyword) (js : List Keyword) (i : Keyword) : Prop :=
  match j with
  | .keyed kind a =>
    ∃ c, i = .keyed kind c ∧
      if kind.isPositional then Extends a (js.map members) c
      else Unites (a :: js.map members) c
  | .ordered kind schemas =>
    i = .ordered kind (if kind = .items then schemas else schemas ++ js.flatMap nested)
  | .facet (.type names) =>
    i = .facet (.type (names ++ ((js.flatMap listed).filter (· ∉ names)).eraseDups))
  | .facet (.required (.properties names)) =>
    i = .facet (.required (.properties
      (names ++ ((js.flatMap listed).filter (· ∉ names)).eraseDups)))
  | j => i = j

/-! ## Absorbing one after the other -/

/-- What holds of a keyword by itself and is kept when one more keyword is folded into it holds when
all of some keywords are. -/
lemma foldlM_absorb_induction {motive : List Keyword → Keyword → Prop} (nil : motive [] j)
    (step : ∀ done l k i, k ∈ js → motive done l → l.absorbWith eq k = .ok i →
      motive (done ++ [k]) i)
    (h : js.foldlM (absorbWith eq) j = .ok i) : motive js i := by
  suffices run : ∀ done l, motive done l → js.foldlM (absorbWith eq) l = .ok i →
      motive (done ++ js) i from run [] j nil h
  clear h nil
  induction js with
  | nil =>
    intro done l hl h
    obtain rfl := Except.ok.inj h
    rwa [List.append_nil]
  | cons k js ih =>
    intro done l hl h
    rw [List.foldlM_cons] at h
    cases hk : l.absorbWith eq k with
    | error e =>
      rw [hk] at h
      cases h
    | ok l' =>
      rw [hk] at h
      have hnext := step done l k l' List.mem_cons_self hl hk
      simpa using ih (fun done l k i hk => step done l k i (List.mem_cons_of_mem _ hk))
        (done ++ [k]) l' hnext h

lemma foldlM_absorb_eq (hj : ∀ k, j.absorbWith eq k = .ok j)
    (h : js.foldlM (absorbWith eq) j = .ok i) : i = j := by
  refine foldlM_absorb_induction (motive := fun _ l => l = j) rfl ?_ h
  rintro done l k i - rfl hi
  exact (Except.ok.inj ((hj k).symm.trans hi)).symm

variable (hjs : ∀ k ∈ js, k.Comparable ∧ k.name = j.name)
include hjs

lemma absorbs_keyed {kind : KeyedKind} (hj : (keyed kind a).Comparable)
    (hname : j.name = kind.name)
    (h : js.foldlM absorb (keyed kind a) = .ok i) : (keyed kind a).Absorbs js i := by
  have hkeyed : ∀ k ∈ js, ∃ b, k = keyed kind b := fun k hk =>
    (hjs k hk).1.eq_keyed ((hjs k hk).2.trans hname)
  rw [Absorbs]
  cases hpositional : kind.isPositional with
  | true =>
    refine foldlM_absorb_induction (motive := fun done l =>
      ∃ c, l = keyed kind c ∧ Extends a (done.map members) c) ⟨a, rfl, .refl hj⟩ ?_ h
    rintro done l k i hk ⟨c, rfl, hc⟩ hi
    obtain ⟨b, rfl⟩ := hkeyed k hk
    simp only [absorbWith, ne_eq, not_true_eq_false, if_false, hpositional, if_true] at hi
    obtain rfl := Except.ok.inj hi
    refine ⟨_, rfl, ?_⟩
    rw [List.map_append]
    exact hc.append
  | false =>
    refine foldlM_absorb_induction (motive := fun done l =>
      ∃ c, l = keyed kind c ∧ Unites (a :: done.map members) c) ⟨a, rfl, .singleton hj⟩ ?_ h
    rintro done l k i hk ⟨c, rfl, hc⟩ hi
    obtain ⟨b, rfl⟩ := hkeyed k hk
    simp only [absorbWith, ne_eq, not_true_eq_false, if_false, hpositional, Bool.false_eq_true]
      at hi
    obtain ⟨c', hc', rfl⟩ := map_eq_ok_iff.1 hi
    refine ⟨c', rfl, ?_⟩
    rw [List.map_append, ← List.cons_append]
    exact hc.unite hc'

lemma absorbs_ordered {kind : OrderedKind} {schemas : List Node} (hname : j.name = kind.name)
    (h : js.foldlM (absorbWith eq) (ordered kind schemas) = .ok i) :
    (ordered kind schemas).Absorbs js i := by
  rw [Absorbs]
  by_cases hkind : kind = .items
  · rw [if_pos hkind]
    refine foldlM_absorb_eq (fun k => ?_) h
    cases k <;> simp [absorbWith, hkind]
  · rw [if_neg hkind]
    refine foldlM_absorb_induction (motive := fun done l =>
      l = ordered kind (schemas ++ done.flatMap nested)) (by simp) ?_ h
    rintro done l k i hk rfl hi
    obtain ⟨more, rfl⟩ : ∃ more, k = ordered kind more :=
      eq_ordered_of_term? ((hjs k hk).1.name_eq_iff.1 ((hjs k hk).2.trans hname))
    simp only [absorbWith, ne_eq, hkind, not_false_eq_true, and_self, if_true] at hi
    obtain rfl := Except.ok.inj hi
    simp [nested]

lemma absorbs_type {names : List String} (hname : j.name = Term.type.name)
    (h : js.foldlM (absorbWith eq) (facet (.type names)) = .ok i) :
    (facet (.type names)).Absorbs js i := by
  rw [Absorbs]
  rw [← uniteNames_eq]
  refine foldlM_absorb_induction (motive := fun done l =>
    l = facet (.type (uniteNames names (done.flatMap listed)))) rfl ?_ h
  rintro done l k i hk rfl hi
  obtain ⟨more, rfl⟩ := eq_type_of_term? ((hjs k hk).1.name_eq_iff.1 ((hjs k hk).2.trans hname))
  obtain rfl := Except.ok.inj hi
  simp [Facet.absorb, listed, uniteNames_append]

/-- Names of required properties are united with a first list; a flag among the later keywords has
none. -/
lemma absorbs_required {names : List String} (hname : j.name = Term.required.name)
    (h : js.foldlM (absorbWith eq) (facet (.required (.properties names))) = .ok i) :
    (facet (.required (.properties names))).Absorbs js i := by
  rw [Absorbs]
  rw [← uniteNames_eq]
  refine foldlM_absorb_induction (motive := fun done l =>
    l = facet (.required (.properties (uniteNames names (done.flatMap listed))))) rfl ?_ h
  rintro done l k i hk rfl hi
  obtain ⟨more, rfl⟩ := eq_required_of_term? ((hjs k hk).1.name_eq_iff.1 ((hjs k hk).2.trans hname))
  obtain rfl := Except.ok.inj hi
  cases more <;> simp [Facet.absorb, listed, uniteNames_append]

/-- What a keyword becomes when later ones of its name are folded into it one after the other. -/
theorem absorbs_of_foldlM (hj : j.Comparable) (h : js.foldlM absorb j = .ok i) :
    j.Absorbs js i := by
  cases j with
  | keyed kind a => exact absorbs_keyed hjs hj rfl h
  | ordered kind schemas => exact absorbs_ordered hjs rfl h
  | additionalProperties schema => exact foldlM_absorb_eq (fun k => by cases k <;> rfl) h
  | ref target => exact foldlM_absorb_eq (fun k => by cases k <;> rfl) h
  | facet f =>
    cases f with
    | type names => exact absorbs_type hjs rfl h
    | required r =>
      cases r with
      | properties names => exact absorbs_required hjs rfl h
      | flag b =>
        refine foldlM_absorb_eq (fun k => ?_) h
        cases k with
        | facet g => cases g <;> rfl
        | _ => rfl
    | _ =>
      refine foldlM_absorb_eq (fun k => ?_) h
      cases k with
      | facet g => cases g <;> rfl
      | _ => rfl

end Keyword

/-- **Folding loses nothing and invents nothing.**  If the keywords of a node can be folded, those
of a name are folded to one keyword, and this is what the first of them becomes when it absorbs all
the others. -/
theorem Node.foldedKeywords_absorbs {n : Node} {r : List Keyword}
    (h : ∀ k ∈ n.keywords, k.Gathered) (hr : n.foldedKeywords = .ok r) :
    ∀ k ∈ n.keywords, ∃ j js i, n.keywords.filter (·.name = k.name) = j :: js ∧
      r.filter (·.name = k.name) = [i] ∧ j.Absorbs js i := by
  intro k hk
  rcases Keyword.filter_foldWith hr k.name with ⟨hnone, -⟩ | ⟨j, js, i, hfilter, hrun, hi⟩
  · have hmem : k ∈ n.keywords.filter (·.name = k.name) := List.mem_filter.2 ⟨hk, by simp⟩
    rw [hnone] at hmem
    cases hmem
  · have hall : ∀ l ∈ j :: js, l.Comparable ∧ l.name = k.name := by
      intro l hl
      rw [← hfilter] at hl
      obtain ⟨hl, hname⟩ := List.mem_filter.1 hl
      exact ⟨(h l hl).comparable.1, of_decide_eq_true hname⟩
    obtain ⟨⟨hj, hjname⟩, hjs⟩ := List.forall_mem_cons.1 hall
    exact ⟨j, js, i, hfilter, hi, Keyword.absorbs_of_foldlM
      (fun l hl => ⟨(hjs l hl).1, (hjs l hl).2.trans hjname.symm⟩) hj hrun⟩

/-- Errors of a list, and errors of an object under a key of the list and under the number that is
free then: all four are left, and both of the object under other keys. -/
theorem Node.foldedKeywords_absorbs_errors : ∃ j k i : Keyword, j.Gathered ∧ k.Gathered ∧
    (ofKeywords [j, k]).foldedKeywords = .ok [i] ∧ j.Absorbs [k] i ∧
    OrderedMap.keys k.members = ["1", "2"] ∧ OrderedMap.keys i.members = ["0", "1", "2", "3"] := by
  let schema (code : Int) : Json := .object [("code", .number (.whole code))]
  let error (code : Int) : Node := .ofKeywords [.facet (.code .code code)]
  let j : Keyword := .keyed .errors [("0", error 1), ("1", error 2)]
  let k : Keyword := .keyed .errors [("1", error 3), ("2", error 4)]
  have hread (v : Json) (k : Keyword) (hv : v.hasDistinctNames = true)
      (h : Keyword.decode "errors" v = .ok k) : k.Gathered := .decoded hv h
  have hj : j.Gathered := hread (.array [schema 1, schema 2]) j (by decide) rfl
  have hk : k.Gathered := hread (.object [("1", schema 3), ("2", schema 4)]) k (by decide) rfl
  have hkeys : (ofKeywords [j, k]).foldedKeywords.toOption.map
      (·.map fun k => OrderedMap.keys k.members) = some [["0", "1", "2", "3"]] := by
    decide +kernel
  obtain ⟨r, hr, hkeys⟩ := Option.map_eq_some_iff.1 hkeys
  have hr := toOption_eq_some.1 hr
  obtain ⟨i, hi, hikeys⟩ := List.map_eq_singleton_iff.1 hkeys
  subst hi
  obtain ⟨j', js, i', hfilter, hi, habsorbs⟩ := foldedKeywords_absorbs
    (n := ofKeywords [j, k]) (by simp [ofKeywords, hj, hk]) hr j List.mem_cons_self
  have hfilter' : [j, k] = j' :: js := hfilter
  obtain ⟨rfl, hjs⟩ := List.cons.inj hfilter'
  subst hjs
  have hmem : i' ∈ [i] := (List.mem_filter.1 (hi ▸ List.mem_singleton_self i')).1
  obtain rfl := List.mem_singleton.1 hmem
  exact ⟨j, k, i', hj, hk, hr, habsorbs, rfl, hikeys⟩

end SchemaCatalog
