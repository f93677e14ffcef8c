import SchemaCatalog.Proofs.Resolution.Sharing

/-!
# Expansions that hold good everywhere

An expansion is kept if no cycle was cut further out, and then it is given for every later
reference to its target, whatever is in progress there.  That is sound because a kept expansion
never depended on the targets around it: the same expansion, made with nothing in progress and no
cut remembered, has the same result and leaves the same expansions and the same registry
(`kept_alone`).

The targets in progress are an outer part and an inner part.  A run with the outer part
(`Resolver.within`) goes as the run without it goes, until a cycle is closed at a target of the
outer part.  From then on the cut stays so far out (`Resolver.Escapes`), so nothing around it is
kept.
-/

namespace SchemaCatalog

namespace Resolver

/-! ## Outer targets -/

/-- The resolver with other targets in progress and another cut. -/
def under (s : Resolver) (active : List Address) (cut : Option Nat) : Resolver :=
  { s with active, cut }

/-- The resolver with nothing in progress and no cut. -/
def alone (s : Resolver) : Resolver := s.under [] none

/-- The resolver with its targets in progress inside some outer ones. -/
def within (s : Resolver) (outer : List Address) : Resolver :=
  s.under (outer ++ s.active) (s.cut.map (outer.length + ·))

/-- Whether a cycle was cut at one of the outer targets. -/
def Escapes (s : Resolver) (outer : List Address) : Prop :=
  ∃ depth < outer.length, s.cut = some depth

variable {s s' t : Resolver} {outer : List Address} {place : Address} {depth : Nat}

lemma enter_within : (t.within outer).enter place = (t.enter place).within outer := by
  unfold within under enter
  simp

lemma cutAt_within :
    (t.within outer).cutAt (outer.length + depth) = (t.cutAt depth).within outer := by
  unfold within under cutAt
  cases t.cut <;> simp [shallower, Nat.add_min_add_left]

lemma openCut_within (depth : Nat) :
    (t.within outer).openCut (outer.length + depth) =
      (t.openCut depth).map (outer.length + ·) := by
  unfold within under openCut
  cases t.cut with
  | none => rfl
  | some c => by_cases h : c < depth <;> simp [Option.filter_some, h]

/-- Whether a cut lies further out than the innermost target is the same with the outer targets and
without. -/
lemma isNone_openCut_within {before : Resolver} (hactive : before.active = outer ++ t.active) :
    ((s.within outer).openCut before.active.length).isNone =
      (s.openCut t.active.length).isNone := by
  rw [hactive, List.length_append, openCut_within, Option.isNone_map]

lemma leave_within (hactive : s.active ≠ []) :
    (s.within outer).leave (t.within outer) = (s.leave t).within outer := by
  have hdrop : (outer ++ s.active).dropLast = outer ++ s.active.dropLast :=
    List.dropLast_append_of_ne_nil hactive
  have hcut : shallower (t.cut.map (outer.length + ·))
      ((s.openCut t.active.length).map (outer.length + ·)) =
        (shallower t.cut (s.openCut t.active.length)).map (outer.length + ·) := by
    cases t.cut <;> cases s.openCut t.active.length <;>
      simp [shallower, Nat.add_min_add_left]
  have hopen : (s.within outer).openCut (t.within outer).active.length =
      (s.openCut t.active.length).map (outer.length + ·) := by
    rw [← openCut_within]
    exact congrArg _ List.length_append
  unfold leave
  rw [hopen]
  unfold within under
  dsimp only
  rw [hdrop, hcut]

lemma settle_within (hactive : s.active ≠ []) (fragment : String) (n : Node) :
    (s.within outer).settle (t.within outer) place fragment n =
      (s.settle t place fragment n).within outer := by
  unfold settle
  have hopen : ((s.within outer).openCut (t.within outer).active.length).isNone =
      (s.openCut t.active.length).isNone := isNone_openCut_within rfl
  rw [hopen, leave_within hactive]
  split
  · rfl
  · rfl

/-- What is kept is the same with the outer targets and without. -/
lemma alone_settle_within {before : Resolver} (hactive : before.active = outer ++ t.active)
    (fragment : String) (n : Node) :
    ((s.within outer).settle before place fragment n).alone =
      (s.settle t place fragment n).alone := by
  unfold settle
  rw [isNone_openCut_within hactive]
  split
  · rfl
  · rfl

/-- What was cut at an outer target is not kept. -/
lemma settle_of_escapes (h : s.Escapes outer) (houter : outer.length ≤ t.active.length)
    (place : Address) (fragment : String) (n : Node) :
    s.settle t place fragment n = s.leave t ∧ (s.leave t).Escapes outer := by
  obtain ⟨depth, hlt, hcut⟩ := h
  have hopen : s.openCut t.active.length = some depth := by
    rw [openCut, hcut, Option.filter_some, if_pos (by simpa using hlt.trans_le houter)]
  have hleft : (s.leave t).cut = shallower t.cut (some depth) := by
    rw [← hopen]
    rfl
  constructor
  · rw [settle, hopen]
    rfl
  · rw [Escapes, hleft]
    cases t.cut with
    | none => exact ⟨depth, hlt, rfl⟩
    | some c => exact ⟨min c depth, (min_le_right _ _).trans_lt hlt, rfl⟩

lemma Idle.alone_eq (h : s.Idle) : s.alone = s := by
  obtain ⟨registry, expansions, active, cut⟩ := s
  obtain ⟨rfl, rfl⟩ := h
  rfl

lemma idxOf?_append_of_mem (inner : List Address) (h : place ∈ outer) :
    ∃ depth < outer.length, (outer ++ inner).idxOf? place = some depth := by
  have hsome : outer.idxOf? place ≠ none := mt List.idxOf?_eq_none_iff.1 (not_not.2 h)
  obtain ⟨depth, hdepth⟩ := Option.ne_none_iff_exists'.1 hsome
  refine ⟨depth, (List.idxOf?_eq_some_iff.1 hdepth).1, ?_⟩
  rw [List.idxOf?, List.findIdx?_append]
  rw [List.idxOf?] at hdepth
  rw [hdepth, Option.some_or]

lemma idxOf?_append_of_notMem (inner : List Address) (h : place ∉ outer) :
    (outer ++ inner).idxOf? place = (inner.idxOf? place).map (outer.length + ·) := by
  have hnone : outer.findIdx? (· == place) = none := List.idxOf?_eq_none_iff.2 h
  rw [List.idxOf?, List.findIdx?_append, hnone, Option.none_or]
  exact Option.map_congr fun i _ => Nat.add_comm i outer.length

end Resolver

namespace Resolution

open Resolver

variable {α : Type} {limit : Nat} {target : Address} {s s' t : Resolver} {outer : List Address}

/-! ## Steps that see the registry alone -/

/-- Two programs from a resolver on that make the same of the registry, the second one with other
targets in progress and another cut. -/
def blind (active : List Address) (cut : Option Nat) : Coupling Resolution Resolution where
  rel s x y := outcome y (s.under active cut) =
      ((outcome x s).1, (outcome x s).2.under active cut) ∧
    (outcome x s).2.active = s.active
  pure s a := ⟨rfl, rfl⟩
  throw s e := ⟨rfl, rfl⟩
  onRegistry s f := ⟨rfl, rfl⟩
  bind s x y f g hx hf := by
    obtain ⟨hrun, hactive⟩ := hx
    rw [outcome_bind, outcome_bind, hrun]
    rcases hout : outcome x s with ⟨e | a, s'⟩
    all_goals rw [hout] at hactive
    · exact ⟨rfl, hactive⟩
    · obtain ⟨hrun', hactive'⟩ := hf a s' hactive
      exact ⟨hrun', hactive'.trans hactive⟩

lemma rawAt_of_under {place : Address} {active : List Address} {cut : Option Nat}
    {p : Node × Address} (h : outcome (rawAt place) (s.under active cut) = (.ok p, s')) :
    ∃ r, outcome (rawAt place) s = (.ok p, s.withRegistry r) ∧
      s' = (s.withRegistry r).under active cut := by
  obtain ⟨hrun, -⟩ := (blind active cut).rawAt s place
  have hregistry := rawAt_withRegistry place s
  rw [h] at hrun
  rcases hout : outcome (rawAt place) s with ⟨e | q, t⟩
  all_goals
    rw [hout] at hrun
    obtain ⟨hresult, hstate⟩ := Prod.mk.inj hrun
  · cases hresult
  · obtain rfl := Except.ok.inj hresult
    obtain ⟨-, r, rfl⟩ := hregistry.of_ok hout
    exact ⟨r, rfl, hstate⟩

/-! ## The ways of a target -/

/-- Where a target is given a node, the node was kept, or the raw node at the target was found and
either a cycle was closed at the target or the target was expanded as the innermost one. -/
lemma expandTarget_cases {n : Node}
    (h : outcome (expandTarget (limit + 1) target) s = (.ok n, s')) :
    OrderedMap.get? s.expansions target.place = some n ∧ s' = s ∨
      OrderedMap.get? s.expansions target.place = none ∧
        ∃ fragment raw document r, target.place.fragmentText = .ok fragment ∧
          outcome (rawAt target.place) s = (.ok (raw, document), s.withRegistry r) ∧
          ((∃ depth, s.active.idxOf? target.place = some depth ∧
              outcome (closeCycle limit depth raw document) (s.withRegistry r) = (.ok n, s')) ∨
            target.place ∉ s.active ∧ ∃ s₁,
              outcome (expandNode (expandTarget limit) document raw)
                ((s.withRegistry r).enter target.place) = (.ok n, s₁) ∧
              s' = s₁.settle (s.withRegistry r) target.place fragment n) := by
  cases hkept : OrderedMap.get? s.expansions target.place with
  | some m =>
    rw [outcome_expandTarget_of_kept hkept] at h
    obtain ⟨hm, rfl⟩ := Prod.mk.inj h
    obtain rfl := Except.ok.inj hm
    exact .inl ⟨rfl, rfl⟩
  | none =>
    refine .inr ⟨rfl, ?_⟩
    cases hfragment : target.place.fragmentText with
    | error e =>
      rw [expandTarget] at h
      simp only [outcome_bind, outcome_get, hkept, hfragment, outcome_ofExcept] at h
      cases h
    | ok fragment =>
      have hregistry := rawAt_withRegistry target.place s
      rcases hraw : outcome (rawAt target.place) s with ⟨e | ⟨raw, document⟩, s₁⟩
      · rw [expandTarget] at h
        simp only [outcome_bind, outcome_get, hkept, hfragment, outcome_ofExcept, hraw] at h
        cases h
      obtain ⟨-, r, rfl⟩ := hregistry.of_ok hraw
      refine ⟨fragment, raw, document, r, rfl, rfl, ?_⟩
      cases hdepth : s.active.idxOf? target.place with
      | some depth =>
        rw [outcome_expandTarget_of_cycle limit hkept hfragment hraw hdepth] at h
        exact .inl ⟨depth, rfl, h⟩
      | none =>
        have hplace : target.place ∉ s.active := List.idxOf?_eq_none_iff.1 hdepth
        rw [outcome_expandTarget_of_open limit hkept hfragment hraw hplace] at h
        rcases hrun : outcome (expandNode (expandTarget limit) document raw)
          ((s.withRegistry r).enter target.place) with ⟨e | m, s₁⟩
        all_goals
          rw [hrun] at h
          obtain ⟨hm, rfl⟩ := Prod.mk.inj h
        · cases hm
        · obtain rfl := Except.ok.inj hm
          exact .inr ⟨hplace, s₁, rfl, rfl⟩

/-! ## Cuts are remembered -/

/-- Whether a program never forgets a cut. -/
def Remembers (x : Resolution α) : Prop :=
  ∀ s depth, s.cut = some depth → ∃ depth' ≤ depth, (outcome x s).2.cut = some depth'

theorem compositional_remembers : Compositional fun _ x => Remembers x where
  pure _ _ depth h := ⟨depth, le_rfl, h⟩
  throw _ _ depth h := ⟨depth, le_rfl, h⟩
  bind hx hf s depth h := by
    obtain ⟨depth₁, hle, h₁⟩ := hx s depth h
    rw [outcome_bind]
    rcases hout : outcome _ s with ⟨e | a, s₁⟩
    all_goals rw [hout] at h₁
    · exact ⟨depth₁, hle, h₁⟩
    · obtain ⟨depth₂, hle', h₂⟩ := hf a s₁ depth₁ h₁
      exact ⟨depth₂, hle'.trans hle, h₂⟩
  get _ depth h := ⟨depth, le_rfl, h⟩
  lookup _ _ s depth h := by
    rw [outcome_lift]
    exact ⟨depth, le_rfl, h⟩
  adopt _ _ depth h := ⟨depth, le_rfl, h⟩
  fresh _ _ depth h := ⟨depth, le_rfl, h⟩
  setAnchors _ _ _ depth h := ⟨depth, le_rfl, h⟩
  cutAt depth' s depth h := by
    refine ⟨min depth depth', min_le_left _ _, ?_⟩
    show shallower s.cut (some depth') = _
    rw [h]
    rfl
  keep _ _ _ _ depth h := ⟨depth, le_rfl, h⟩
  inside place x _ s depth h := by
    have hleft (s' : Resolver) : ∃ depth' ≤ depth, (s'.leave s).cut = some depth' := by
      show ∃ depth' ≤ depth, shallower s.cut (s'.openCut s.active.length) = some depth'
      rw [h]
      cases s'.openCut s.active.length with
      | none => exact ⟨depth, le_rfl, rfl⟩
      | some c => exact ⟨min depth c, min_le_left _ _, rfl⟩
    rw [outcome_inside]
    rcases outcome x (s.enter place) with ⟨e | n, s'⟩
    · exact hleft s'
    · exact hleft s'

/-! ## Runs inside outer targets -/

/-- Two programs from a resolver on, the first one inside some outer targets: it has the result of
the second and leaves the same resolver but for these targets, unless a cycle is closed at one of
them. -/
def framed (outer : List Address) : Coupling Resolution Resolution where
  rel t x y := Remembers x ∧
    Ensures x (t.within outer)
      (fun a s' => s'.Escapes outer ∨
        ∃ t', outcome y t = (.ok a, t') ∧ t'.active = t.active ∧ s' = t'.within outer)
      fun _ _ => True
  pure t a := ⟨compositional_remembers.pure a, .inr ⟨t, rfl, rfl, rfl⟩⟩
  throw t e := ⟨compositional_remembers.throw e, trivial⟩
  onRegistry t f := ⟨fun _ depth h => ⟨depth, le_rfl, h⟩, .inr ⟨_, rfl, rfl, rfl⟩⟩
  bind t x y f g hx hf := by
    obtain ⟨hremembers, hrun⟩ := hx
    have hrest (a) : Remembers (f a) := (hf a t rfl).1
    refine ⟨compositional_remembers.bind hremembers hrest, ?_⟩
    rw [ensures_bind]
    refine hrun.mono ?_ fun _ _ _ => trivial
    rintro a s' (⟨depth, hlt, hcut⟩ | ⟨t', hy, hactive, rfl⟩)
    · -- what was cut at an outer target stays cut there
      obtain ⟨depth', hle, hcut'⟩ := hrest a s' depth hcut
      unfold Ensures
      rcases hout : outcome (f a) s' with ⟨e | b, s''⟩
      all_goals rw [hout] at hcut'
      · trivial
      · exact .inl ⟨depth', hle.trans_lt hlt, hcut'⟩
    · refine (hf a t' hactive).2.mono ?_ fun _ _ _ => trivial
      rintro b s'' (hescapes | ⟨t'', hg, hactive', rfl⟩)
      · exact .inl hescapes
      · refine .inr ⟨t'', ?_, hactive'.trans hactive, rfl⟩
        rw [outcome_bind, hy]
        exact hg

lemma escapes_closeCycle {depth : Nat} (hdepth : depth < outer.length) (raw : Node)
    (document : Address) :
    Ensures (closeCycle limit depth raw document) s
      (fun _ s' => s'.Escapes outer ∧ s'.expansions = s.expansions) fun _ _ => True := by
  refine closeCycle_ensures_of_alike (fun _ _ _ => ⟨?_, rfl⟩) fun _ _ _ => trivial
  show ∃ depth' < outer.length, shallower s.cut (some depth) = some depth'
  cases s.cut with
  | none => exact ⟨depth, hdepth, rfl⟩
  | some c => exact ⟨min c depth, (min_le_right _ _).trans_lt hdepth, rfl⟩

lemma closeCycle_within (limit depth : Nat) (raw : Node) (document : Address) (t : Resolver)
    (outer : List Address) :
    outcome (closeCycle limit (outer.length + depth) raw document) (t.within outer) =
        ((outcome (closeCycle limit depth raw document) t).1,
          (outcome (closeCycle limit depth raw document) t).2.within outer) ∧
      (outcome (closeCycle limit depth raw document) t).2.active = t.active := by
  have hfollow : outcome (followAliases limit [] raw document) ((t.cutAt depth).within outer) = _ :=
    ((blind (outer ++ t.active) ((t.cutAt depth).cut.map (outer.length + ·))).followAliases
      (.inl rfl) limit [] raw document (t.cutAt depth)).1
  have halike := alike_followAliases limit [] raw document (t.cutAt depth)
  simp only [closeCycle, outcome_bind, outcome_modify, cutAt_within]
  rw [hfollow]
  rcases hout : outcome (followAliases limit [] raw document) (t.cutAt depth) with ⟨e | p, t'⟩
  · obtain ⟨r, -, rfl⟩ := halike.of_error hout
    exact ⟨rfl, rfl⟩
  · obtain ⟨r, -, rfl⟩ := halike.of_ok hout
    exact ⟨rfl, rfl⟩

/-- The expansion of a target goes as it goes without the outer targets, or is cut at one. -/
theorem expandTarget_framed (limit : Nat) (target : Address) (t : Resolver) :
    (framed outer).rel t (expandTarget limit target) (expandTarget limit target) := by
  induction limit generalizing target t with
  | zero => exact (framed outer).throw t _
  | succ limit ih =>
    refine ⟨compositional_remembers.expandTarget _ target, ?_⟩
    unfold Ensures
    rcases hrun : outcome (expandTarget (limit + 1) target) (t.within outer) with ⟨e | n, s'⟩
    · trivial
    show s'.Escapes outer ∨ _
    rcases expandTarget_cases hrun with
      ⟨hkept, rfl⟩ | ⟨hnone, fragment, raw, document, r, hfragment, hraw, hway⟩
    · exact .inr ⟨t, outcome_expandTarget_of_kept (s := t) hkept limit, rfl, rfl⟩
    replace hnone : OrderedMap.get? t.expansions target.place = none := hnone
    obtain ⟨r', hraw, hr⟩ := rawAt_of_under hraw
    have hfound : (t.within outer).withRegistry r = (t.withRegistry r').within outer := hr
    rw [hfound] at hway
    rcases hway with ⟨depth, hdepth, hclose⟩ | ⟨hplace, s₁, hexpand, rfl⟩
    · -- a cycle is closed, at an outer target or past them
      by_cases houter : target.place ∈ outer
      · obtain ⟨depth', hlt, hdepth'⟩ := idxOf?_append_of_mem t.active houter
        obtain rfl := Option.some.inj (hdepth.symm.trans hdepth')
        exact .inl ((escapes_closeCycle hlt raw document).of_ok hclose).1
      · have happend := hdepth.symm.trans (idxOf?_append_of_notMem t.active houter)
        obtain ⟨inner, hinner, rfl⟩ := Option.map_eq_some_iff.1 happend.symm
        obtain ⟨hwithin, hactive⟩ :=
          closeCycle_within limit inner raw document (t.withRegistry r') outer
        obtain ⟨hresult, hstate⟩ := Prod.mk.inj (hwithin.symm.trans hclose)
        refine .inr ⟨_, ?_, hactive, hstate.symm⟩
        rw [outcome_expandTarget_of_cycle limit hnone hfragment hraw hinner, ← hresult]
    · -- the target is expanded, and what is inside it is cut at an outer target or is not
      have hinner : target.place ∉ t.active := fun h => hplace (List.mem_append_right outer h)
      rw [enter_within] at hexpand
      have hinside : (framed outer).rel ((t.withRegistry r').enter target.place)
          (expandNode (expandTarget limit) document raw)
          (expandNode (expandTarget limit) document raw) := (framed outer).expandNode ih raw _
      rcases hinside.2.of_ok hexpand with hescapes | ⟨t', hy, hactive, rfl⟩
      · have houter : outer.length ≤ ((t.withRegistry r').within outer).active.length := by
          rw [show ((t.withRegistry r').within outer).active = outer ++ t.active from rfl,
            List.length_append]
          exact Nat.le_add_right _ _
        obtain ⟨hleft, hescapes⟩ :=
          settle_of_escapes hescapes houter target.place fragment n
        rw [hleft]
        exact .inl hescapes
      · have hne : t'.active ≠ [] := by
          rw [hactive]
          exact List.append_ne_nil_of_right_ne_nil _ (List.cons_ne_nil _ _)
        refine .inr ⟨t'.settle (t.withRegistry r') target.place fragment n, ?_, ?_,
          settle_within hne fragment n⟩
        · rw [outcome_expandTarget_of_open limit hnone hfragment hraw hinner, hy]
          rfl
        · rw [active_settle, hactive]
          exact List.dropLast_concat

/-! ## Kept expansions -/

/-- The expansion of a target is not kept if a cycle was cut further out. -/
lemma not_kept_of_escapes {s s₁ : Resolver} {r : Registry} {raw n : Node} {document place : Address}
    (hexpand : outcome (expandNode (expandTarget limit) document raw)
      ((s.withRegistry r).enter place) = (.ok n, s₁))
    (hescapes : s₁.Escapes s.active) (hnone : OrderedMap.get? s.expansions place = none)
    (fragment : String) :
    OrderedMap.get? (s₁.settle (s.withRegistry r) place fragment n).expansions place = none := by
  have hadvances := (expandNode_advancing
    (fun t s => (expandTarget_advancing limit t s).mono (fun _ _ _ => trivial) fun _ h => h)
    document raw ((s.withRegistry r).enter place) fun _ => rfl).of_ok hexpand
  rw [(settle_of_escapes (t := s.withRegistry r) hescapes le_rfl place fragment n).1]
  exact hadvances.2.1.pending place (List.mem_append_right _ (List.mem_singleton_self place)) hnone

/-- What is left where a target is expanded alone is what is left, but for the targets in progress,
where it is expanded inside them and none of them is cut at. -/
lemma expandTarget_alone {s t' : Resolver} {r : Registry} {raw n : Node} {document : Address}
    {fragment : String} (hnone : OrderedMap.get? s.expansions target.place = none)
    (hfragment : target.place.fragmentText = .ok fragment)
    (hraw : outcome (rawAt target.place) s = (.ok (raw, document), s.withRegistry r))
    (hexpand : outcome (expandNode (expandTarget limit) document raw)
      ((s.alone.withRegistry r).enter target.place) = (.ok n, t')) :
    outcome (expandTarget (limit + 1) target) s.alone =
      (.ok n, ((t'.within s.active).settle (s.withRegistry r) target.place fragment n).alone) := by
  have hraw' : outcome (rawAt target.place) s.alone =
      (.ok (raw, document), s.alone.withRegistry r) := by
    obtain ⟨hblind, -⟩ := (blind [] none).rawAt s target.place
    rw [hraw] at hblind
    exact hblind
  have hout := outcome_expandTarget_of_open limit (s := s.alone) hnone hfragment hraw'
    List.not_mem_nil
  rw [hexpand] at hout
  have hidle : (t'.settle (s.alone.withRegistry r) target.place fragment n).Idle := by
    have hidle := (Idle.of_keeps ⟨rfl, rfl⟩
      (expandTarget_advancing (limit + 1) target s.alone)).1
    rwa [hout] at hidle
  have hsame :
      ((t'.within s.active).settle (s.withRegistry r) target.place fragment n).alone =
        t'.settle (s.alone.withRegistry r) target.place fragment n := by
    rw [← hidle.alone_eq]
    exact alone_settle_within (List.append_nil s.active).symm fragment n
  rw [hsame]
  exact hout

/-- **A kept expansion does not depend on where it was made.**  If a target is given a node and
has an expansion that is kept in the end, whatever was in progress and cut in the beginning, then
with nothing in progress and no cut, and the same registry and expansions in the beginning, the
target is given the same node, and the same registry and expansions are left. -/
theorem kept_alone {limit : Nat} {target : Address} {s s' : Resolver} {n m : Node}
    (hrun : outcome (expandTarget limit target) s = (.ok n, s'))
    (hkept : OrderedMap.get? s'.expansions target.place = some m) :
    outcome (expandTarget limit target) s.alone = (.ok n, s'.alone) := by
  cases limit with
  | zero => cases (Prod.mk.inj hrun).1
  | succ limit =>
    rcases expandTarget_cases hrun with
      ⟨hfound, rfl⟩ | ⟨hnone, fragment, raw, document, r, hfragment, hraw, hway⟩
    · exact outcome_expandTarget_of_kept (s := s'.alone) hfound limit
    rcases hway with ⟨depth, hdepth, hclose⟩ | ⟨-, s₁, hexpand, rfl⟩
    · -- a target in progress is not kept
      have hlt : depth < s.active.length := (List.idxOf?_eq_some_iff.1 hdepth).1
      obtain ⟨-, hsame⟩ := (escapes_closeCycle hlt raw document).of_ok hclose
      rw [hsame] at hkept
      cases hnone.symm.trans hkept
    have hinside : (framed s.active).rel ((s.alone.withRegistry r).enter target.place)
        (expandNode (expandTarget limit) document raw)
        (expandNode (expandTarget limit) document raw) :=
      (framed s.active).expandNode (expandTarget_framed limit) raw _
    have hentered : ((s.alone.withRegistry r).enter target.place).within s.active =
        (s.withRegistry r).enter target.place := rfl
    rcases hinside.2.of_ok (hentered ▸ hexpand) with hescapes | ⟨t', hy, -, rfl⟩
    · -- nor is one that is left after a cut further out
      cases (not_kept_of_escapes hexpand hescapes hnone fragment).symm.trans hkept
    · exact expandTarget_alone hnone hfragment hraw hy

/-- The target in the one document is kept although it is expanded inside the document itself, and
after a cycle was cut there. -/
theorem kept_alone_inner : ∃ n m s',
    outcome (expandTarget 5 (.targetIn "inner"))
      ((ofRegistry .twoTargets).under [.inMemory "inner"] (some 0)) = (.ok n, s') ∧
    OrderedMap.get? s'.expansions (Address.targetIn "inner").place = some m ∧
    outcome (expandTarget 5 (.targetIn "inner")) (ofRegistry .twoTargets) = (.ok n, s'.alone) := by
  obtain ⟨n, s', h⟩ : ∃ n s', outcome (expandTarget 5 (.targetIn "inner"))
      ((ofRegistry .twoTargets).under [.inMemory "inner"] (some 0)) = (.ok n, s') :=
    exists_of_isOk (by decide +kernel)
  have hsome : (OrderedMap.get? (outcome (expandTarget 5 (.targetIn "inner"))
      ((ofRegistry .twoTargets).under [.inMemory "inner"] (some 0))).2.expansions
        (Address.targetIn "inner").place).isSome = true := by decide +kernel
  obtain ⟨m, hm⟩ := Option.isSome_iff_exists.1 hsome
  rw [h] at hm
  exact ⟨n, m, s', h, hm, kept_alone h hm⟩

end Resolution

end SchemaCatalog
