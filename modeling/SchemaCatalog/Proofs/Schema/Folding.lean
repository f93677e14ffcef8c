import Mathlib.Data.List.Nodup
import Mathlib.Tactic.Lemma
import SchemaCatalog.Schema.Equality

/-!
# Folding keywords

Folding goes through the keywords of a node from the left and keeps those it has folded so far.
A keyword either has a name that is new and goes to the end, or it is absorbed by the one kept
under its name.  `Keyword.foldWith_induction` is the induction that follows these two ways, and
everything else about folded keywords is proved by it: names come once (`names_foldWith_nodup`)
and are the same names (`mem_names_foldWith`), keywords whose names come once stay as they are
(`foldWith_of_nodup`), what absorbing keeps, folding keeps (`foldWith_forall`), and the keywords of
one name are folded by themselves (`filter_foldWith`).
-/

namespace SchemaCatalog

namespace Keyword

variable {eq : Node → Node → Bool} {j k i : Keyword} {ks r : List Keyword}

lemma name_absorbWith (h : j.absorbWith eq k = .ok i) : i.name = j.name := by
  cases j with
  | keyed kind members =>
    cases k with
    | keyed kind' members' =>
      simp only [absorbWith] at h
      split at h
      · cases h
        rfl
      · split at h
        · cases h
          rfl
        · cases hu : uniteWith eq kind.name members members' with
          | error e => simp [hu, Functor.map, Except.map] at h
          | ok united =>
            simp only [hu, Functor.map, Except.map, Except.ok.injEq] at h
            exact h ▸ rfl
    | _ => cases h; rfl
  | ordered kind schemas => cases k <;> cases h <;> rfl
  | facet a =>
    cases k with
    | facet b =>
      cases h
      cases a with
      | type names => cases b <;> rfl
      | required r => rcases r with _ | _ <;> rcases b with _ | ⟨_ | _⟩ | _ <;> rfl
      | _ => cases b <;> rfl
    | _ => cases h; rfl
  | _ => cases k <;> cases h <;> rfl

lemma foldInWith_of_notMem (h : k.name ∉ ks.map name) : foldInWith eq ks k = .ok (ks ++ [k]) := by
  induction ks with
  | nil => rfl
  | cons j ks ih =>
    simp only [List.map_cons, List.mem_cons, not_or] at h
    rw [foldInWith, if_neg (Ne.symm h.1), ih h.2]
    rfl

/-- A keyword is folded in at the end, under a new name, or into the one of its name. -/
lemma foldInWith_cases (h : foldInWith eq ks k = .ok r) :
    k.name ∉ ks.map name ∧ r = ks ++ [k] ∨
      ∃ before j after i, ks = before ++ j :: after ∧ j.name = k.name ∧
        k.name ∉ before.map name ∧ j.absorbWith eq k = .ok i ∧ r = before ++ i :: after := by
  induction ks generalizing r with
  | nil =>
    cases h
    exact .inl ⟨List.not_mem_nil, rfl⟩
  | cons j ks ih =>
    rw [foldInWith] at h
    split at h
    case isTrue hname =>
      cases hi : j.absorbWith eq k with
      | error e => simp [hi, Functor.map, Except.map] at h
      | ok i =>
        simp only [hi, Functor.map, Except.map, Except.ok.injEq] at h
        exact .inr ⟨[], j, ks, i, rfl, hname, List.not_mem_nil, hi, h.symm⟩
    case isFalse hname =>
      cases hr : foldInWith eq ks k with
      | error e => simp [hr, Functor.map, Except.map] at h
      | ok rest =>
        simp only [hr, Functor.map, Except.map, Except.ok.injEq] at h
        subst h
        rcases ih hr with ⟨hnew, rfl⟩ | ⟨before, j', after, i, rfl, hj', hnew, hi, rfl⟩
        · exact .inl ⟨by simpa [Ne.symm hname] using hnew, rfl⟩
        · refine .inr ⟨j :: before, j', after, i, rfl, hj', ?_, hi, rfl⟩
          simpa [Ne.symm hname] using hnew

/-- What holds of no keywords and is kept when one more keyword comes, be it new or absorbed,
holds of keywords and what they are folded to. -/
theorem foldWith_induction {motive : List Keyword → List Keyword → Prop} (nil : motive [] [])
    (new : ∀ done r k, motive done r → k.name ∉ r.map name → motive (done ++ [k]) (r ++ [k]))
    (absorb : ∀ done before j after k i, motive done (before ++ j :: after) → j.name = k.name →
      k.name ∉ before.map name → j.absorbWith eq k = .ok i →
      motive (done ++ [k]) (before ++ i :: after))
    (h : foldWith eq ks = .ok r) : motive ks r := by
  suffices run : ∀ done folded, motive done folded →
      ks.foldlM (foldInWith eq) folded = .ok r → motive (done ++ ks) r from run [] [] nil h
  clear h
  induction ks with
  | nil =>
    intro done folded hdone h
    cases h
    simpa using hdone
  | cons k ks ih =>
    intro done folded hdone h
    rw [List.foldlM_cons] at h
    cases hstep : foldInWith eq folded k with
    | error e => simp [hstep, bind, Except.bind] at h
    | ok next =>
      rw [hstep] at h
      have hnext : motive (done ++ [k]) next := by
        rcases foldInWith_cases hstep with
          ⟨hnew, rfl⟩ | ⟨before, j, after, i, rfl, hj, hnew, hi, rfl⟩
        · exact new done folded k hdone hnew
        · exact absorb done before j after k i hdone hj hnew hi
      simpa using ih (done ++ [k]) next hnext h

theorem names_foldWith_nodup (h : foldWith eq ks = .ok r) : (r.map name).Nodup := by
  refine foldWith_induction (motive := fun _ r => (r.map name).Nodup) List.nodup_nil ?_ ?_ h
  · intro _ r k hr hnew
    rw [List.map_append, List.map_singleton, List.nodup_append]
    refine ⟨hr, List.nodup_singleton _, fun a ha b hb => ?_⟩
    rw [List.mem_singleton.1 hb]
    rintro rfl
    exact hnew ha
  · intro _ before j after k i hr _ _ hi
    simpa [name_absorbWith hi] using hr

theorem mem_names_foldWith (h : foldWith eq ks = .ok r) {s : String} :
    s ∈ r.map name ↔ s ∈ ks.map name := by
  refine foldWith_induction (motive := fun done r => s ∈ r.map name ↔ s ∈ done.map name) Iff.rfl
    ?_ ?_ h
  · intro done r k hr _
    simp only [List.map_append, List.mem_append, hr]
  · intro done before j after k i hr hj _ hi
    simp only [List.map_append, List.map_cons, List.mem_append, List.mem_cons] at hr ⊢
    rw [name_absorbWith hi, ← hr, ← hj, List.map_nil]
    simp only [List.not_mem_nil, or_false]
    tauto

theorem foldWith_of_nodup (h : (ks.map name).Nodup) : foldWith eq ks = .ok ks := by
  suffices run : ∀ done, ((done ++ ks).map name).Nodup →
      ks.foldlM (foldInWith eq) done = .ok (done ++ ks) from run [] h
  clear h
  induction ks with
  | nil => exact fun done _ => by rw [List.append_nil]; rfl
  | cons k ks ih =>
    intro done hdone
    have hnew : k.name ∉ done.map name := by
      rw [List.map_append, List.nodup_append] at hdone
      exact fun hmem => hdone.2.2 _ hmem _ (by simp) rfl
    rw [List.foldlM_cons, foldInWith_of_notMem hnew]
    have happend : done ++ k :: ks = done ++ [k] ++ ks := by simp
    rw [happend] at hdone ⊢
    exact ih (done ++ [k]) hdone

/-- What holds of all keywords and is kept by absorbing holds of the folded ones. -/
theorem foldWith_forall {Q : Keyword → Prop}
    (absorb : ∀ j k i, Q j → Q k → j.name = k.name → j.absorbWith eq k = .ok i → Q i)
    (h : foldWith eq ks = .ok r) (hks : ∀ k ∈ ks, Q k) : ∀ k ∈ r, Q k := by
  refine foldWith_induction (motive := fun done r => (∀ k ∈ done, Q k) → ∀ k ∈ r, Q k)
    (fun h => h) ?_ ?_ h hks
  · intro done r k hr _ hdone
    rw [List.forall_mem_append, List.forall_mem_singleton] at hdone ⊢
    exact ⟨hr hdone.1, hdone.2⟩
  · intro done before j after k i hr hj _ hi hdone
    rw [List.forall_mem_append, List.forall_mem_singleton] at hdone
    have hall := hr hdone.1
    rw [List.forall_mem_append, List.forall_mem_cons] at hall ⊢
    exact ⟨hall.1, absorb j k i hall.2.1 hdone.2 hj hi, hall.2.2⟩

/-- The first keyword of a name stays what it is if it absorbs the later ones without a change. -/
theorem find?_foldWith {s : String}
    (absorb : ∀ j ∈ ks, j.name = s → ∀ k, k.name = s → j.absorbWith eq k = .ok j)
    (h : foldWith eq ks = .ok r) : r.find? (·.name = s) = ks.find? (·.name = s) := by
  refine foldWith_induction (motive := fun done r =>
    (∀ j ∈ done, j.name = s → ∀ k, k.name = s → j.absorbWith eq k = .ok j) →
      r.find? (·.name = s) = done.find? (·.name = s)) (fun _ => rfl) ?_ ?_ h absorb
  · intro done r k hr _ hdone
    rw [List.find?_append, List.find?_append, hr fun j hj => hdone j (List.mem_append_left _ hj)]
  · intro done before j after k i hr hj hnew hi hdone
    have hr := hr fun j hj => hdone j (List.mem_append_left _ hj)
    by_cases hs : k.name = s
    · have hbefore : before.find? (·.name = s) = none := by
        rw [List.find?_eq_none]
        intro l hl
        simp only [decide_eq_true_eq]
        rintro rfl
        exact hnew (hs ▸ List.mem_map_of_mem hl)
      have hfound : (before ++ j :: after).find? (·.name = s) = some j := by
        simp [hbefore, hj, hs]
      rw [hfound] at hr
      have hji := hdone j (List.mem_append_left _ (List.mem_of_find?_eq_some hr.symm))
        (hj.trans hs) k hs
      obtain rfl : j = i := Except.ok.inj (hji.symm.trans hi)
      rw [hfound, List.find?_append, ← hr]
      rfl
    · have hdone : (done ++ [k]).find? (·.name = s) = done.find? (·.name = s) := by
        simp [List.find?_append, hs]
      have hname : ¬ i.name = s := by rwa [name_absorbWith hi, hj]
      have hname' : ¬ j.name = s := by rwa [hj]
      rw [hdone, ← hr]
      simp [List.find?_append, hname, hname']

/-- The keywords of one name are folded by themselves: the first of them absorbs the others in
their order. -/
theorem filter_foldWith (h : foldWith eq ks = .ok r) (s : String) :
    (ks.filter (·.name = s) = [] ∧ r.filter (·.name = s) = []) ∨
      ∃ j js i, ks.filter (·.name = s) = j :: js ∧ js.foldlM (absorbWith eq) j = .ok i ∧
        r.filter (·.name = s) = [i] := by
  refine foldWith_induction (motive := fun done r =>
    (done.filter (·.name = s) = [] ∧ r.filter (·.name = s) = []) ∨
      ∃ j js i, done.filter (·.name = s) = j :: js ∧ js.foldlM (absorbWith eq) j = .ok i ∧
        r.filter (·.name = s) = [i]) (.inl ⟨rfl, rfl⟩) ?_ ?_ h
  · intro done r k hr hnew
    simp only [List.filter_append]
    by_cases hs : k.name = s
    · have hr' : r.filter (·.name = s) = [] := by
        rw [List.filter_eq_nil_iff]
        intro l hl
        simp only [decide_eq_true_eq]
        rintro rfl
        exact hnew (hs ▸ List.mem_map_of_mem hl)
      rcases hr with ⟨hdone, -⟩ | ⟨j, js, i, -, -, hi⟩
      · exact .inr ⟨k, [], k, by simp [hdone, hs], rfl, by simp [hr', hs]⟩
      · rw [hr'] at hi
        cases hi
    · simpa [hs] using hr
  · intro done before j after k i hr hj hnew hi
    simp only [List.filter_append] at hr ⊢
    have hname : i.name = k.name := (name_absorbWith hi).trans hj
    by_cases hs : k.name = s
    · have hbefore : before.filter (·.name = s) = [] := by
        rw [List.filter_eq_nil_iff]
        intro l hl
        simp only [decide_eq_true_eq]
        rintro rfl
        exact hnew (hs ▸ List.mem_map_of_mem hl)
      rw [hbefore, List.filter_cons_of_pos (by simp [hj, hs])] at hr
      rcases hr with ⟨-, hr⟩ | ⟨l, js, i', hdone, hrun, hr⟩
      · cases hr
      · obtain ⟨rfl, hafter⟩ := List.cons.inj hr
        refine .inr ⟨l, js ++ [k], i, by simp [hdone, hs], ?_, ?_⟩
        · rw [List.foldlM_append, hrun]
          exact (bind_pure (absorbWith eq j k)).trans hi
        · rw [hbefore, List.filter_cons_of_pos (by simp [hname, hs]), hafter]
          rfl
    · have hj : ¬ j.name = s := by rwa [hj]
      have hi : ¬ i.name = s := by rwa [hname]
      simpa [hs, hj, hi] using hr

end Keyword

/-! ## Names -/

lemma mem_uniteNames {a b : List String} {s : String} : s ∈ uniteNames a b ↔ s ∈ a ∨ s ∈ b := by
  induction b generalizing a with
  | nil => simp [uniteNames]
  | cons t b ih =>
    rw [uniteNames]
    split
    · rw [ih, List.mem_cons]
      grind
    · rw [ih, List.mem_append, List.mem_singleton, List.mem_cons, or_assoc]

lemma uniteNames_append (a b c : List String) :
    uniteNames a (b ++ c) = uniteNames (uniteNames a b) c := by
  induction b generalizing a with
  | nil => rfl
  | cons s b ih =>
    rw [List.cons_append, uniteNames, uniteNames]
    split <;> exact ih _

lemma uniteNames_of_mem {a b : List String} (h : ∀ s ∈ b, s ∈ a) : uniteNames a b = a := by
  induction b with
  | nil => rfl
  | cons s b ih =>
    rw [uniteNames, if_pos (h s List.mem_cons_self)]
    exact ih fun t ht => h t (List.mem_cons_of_mem _ ht)

lemma uniteNames_uniteNames (x a b : List String) :
    uniteNames x (uniteNames a b) = uniteNames (uniteNames x a) b := by
  induction b generalizing a with
  | nil => rfl
  | cons s b ih =>
    rw [uniteNames, uniteNames]
    by_cases hs : s ∈ a
    · rw [if_pos hs, if_pos (mem_uniteNames.2 (.inr hs)), ih]
    · rw [if_neg hs, ih, uniteNames_append]
      by_cases hs : s ∈ uniteNames x a <;> simp [uniteNames, hs]

/-- Folding brings together only schemas that the node holds. -/
lemma Node.nested_foldedKeywords {n c : Node} {ks : List Keyword} {k : Keyword}
    (h : n.foldedKeywords = .ok ks) (hk : k ∈ ks) (hc : c ∈ k.nested) :
    ∃ j ∈ n.keywords, c ∈ j.nested :=
  (Keyword.foldWith_congr (P := fun c => ∃ j ∈ n.keywords, c ∈ j.nested) (fun _ _ _ _ => rfl)
    fun j hj _ hc => ⟨j, hj, hc⟩).2 ks h k hk c hc

end SchemaCatalog
