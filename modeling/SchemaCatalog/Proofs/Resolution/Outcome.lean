import Mathlib.Tactic.Lemma
import SchemaCatalog.Proofs.Registry.Content

/-!
# Outcomes of resolutions

A resolution run from a resolver has an outcome: a result, which may be an error, and the
resolver it leaves.  `Ensures x s ok fail` says that the outcome of `x` from `s` satisfies `ok`
if it is a result and `fail` if it is an error; it never says that there is a result unless
`fail` is false.  The rules beside it take a program apart at its binds, and each operation of
`Resolver` has one rule, so that no later proof opens the monad.
-/

namespace SchemaCatalog

namespace Resolver

variable (s : Resolver) (r : Registry) (place : Address) (n : Node) (depth : Nat)

@[simp] lemma registry_withRegistry : (s.withRegistry r).registry = r := rfl

@[simp] lemma expansions_withRegistry : (s.withRegistry r).expansions = s.expansions := rfl

@[simp] lemma active_withRegistry : (s.withRegistry r).active = s.active := rfl

@[simp] lemma cut_withRegistry : (s.withRegistry r).cut = s.cut := rfl

@[simp] lemma registry_cutAt : (s.cutAt depth).registry = s.registry := rfl

@[simp] lemma expansions_cutAt : (s.cutAt depth).expansions = s.expansions := rfl

@[simp] lemma active_cutAt : (s.cutAt depth).active = s.active := rfl

@[simp] lemma registry_enter : (s.enter place).registry = s.registry := rfl

@[simp] lemma expansions_enter : (s.enter place).expansions = s.expansions := rfl

@[simp] lemma active_enter : (s.enter place).active = s.active ++ [place] := rfl

@[simp] lemma cut_enter : (s.enter place).cut = none := rfl

@[simp] lemma registry_leave (before : Resolver) : (s.leave before).registry = s.registry := rfl

@[simp] lemma expansions_leave (before : Resolver) :
    (s.leave before).expansions = s.expansions := rfl

@[simp] lemma active_leave (before : Resolver) : (s.leave before).active = s.active.dropLast := rfl

lemma nodup_enter {s : Resolver} {place : Address} (h : s.active.Nodup)
    (hplace : place ∉ s.active) : (s.enter place).active.Nodup := by
  rw [active_enter, List.nodup_append]
  refine ⟨h, List.nodup_singleton place, ?_⟩
  intro a ha b hb hab
  rw [List.mem_singleton] at hb
  exact hplace (hb ▸ hab ▸ ha)

/-- The target that is left is the one that was entered. -/
lemma active_leave_of_enter {s s' : Resolver} {place : Address}
    (h : s'.active = s.active ++ [place]) : (s'.leave s).active = s.active := by
  rw [active_leave, h, List.dropLast_concat]

/-- A target is left as it was entered if nothing but the registry has changed inside. -/
lemma leave_enter (r' : Registry) :
    (((s.withRegistry r).enter place).withRegistry r').leave (s.withRegistry r) =
      s.withRegistry r' := by
  have hcut : shallower s.cut none = s.cut := by cases s.cut <;> rfl
  unfold leave
  simp only [active_withRegistry, active_enter, List.dropLast_concat, cut_withRegistry, openCut,
    cut_enter, Option.filter_none, hcut]
  rfl

@[simp] lemma expansions_keep (fragment : String) :
    (s.keep place fragment n).expansions = OrderedMap.insert s.expansions place n := rfl

@[simp] lemma active_keep (fragment : String) : (s.keep place fragment n).active = s.active := rfl

@[simp] lemma cut_keep (fragment : String) : (s.keep place fragment n).cut = s.cut := rfl

/-- The resolver once the expansion of a target was made inside all those in progress `before`:
the target is left, and its expansion kept unless a cycle was cut further out. -/
def settle (s before : Resolver) (place : Address) (fragment : String) (n : Node) : Resolver :=
  if (s.openCut before.active.length).isNone then (s.leave before).keep place fragment n
  else s.leave before

@[simp] lemma active_settle (before : Resolver) (fragment : String) :
    (s.settle before place fragment n).active = s.active.dropLast := by
  unfold settle
  split
  · rfl
  · rfl

/-- If nothing but the registry has changed inside a target, its expansion is kept. -/
lemma settle_enter (r' : Registry) (fragment : String) :
    ((s.enter place).withRegistry r').settle s place fragment n =
      (s.withRegistry r').keep place fragment n := by
  have hleave : ((s.enter place).withRegistry r').leave s = s.withRegistry r' :=
    s.leave_enter s.registry place r'
  unfold settle
  rw [hleave]
  rfl

end Resolver

namespace Resolution

variable {α β : Type} {x : Resolution α} {f : α → Resolution β} {s : Resolver}

/-- What a program makes of a resolver: its result and the resolver it leaves. -/
def outcome (x : Resolution α) (s : Resolver) : Except ResolveError α × Resolver := x.run.run s

/-- The outcome of a program satisfies `ok` if it is a result and `fail` if it is an error. -/
def Ensures (x : Resolution α) (s : Resolver) (ok : α → Resolver → Prop)
    (fail : ResolveError → Resolver → Prop) : Prop :=
  match outcome x s with
  | (.ok a, s') => ok a s'
  | (.error e, s') => fail e s'

variable {ok ok' : α → Resolver → Prop} {fail fail' : ResolveError → Resolver → Prop}

/-! ## Outcomes -/

lemma exists_of_isOk (h : (outcome x s).1.isOk = true) : ∃ a s', outcome x s = (.ok a, s') := by
  rcases hrun : outcome x s with ⟨e | a, s'⟩
  · rw [hrun] at h
    cases h
  · exact ⟨a, s', rfl⟩

@[simp] lemma outcome_pure (a : α) : outcome (pure a) s = (.ok a, s) := rfl

@[simp] lemma outcome_throw (e : ResolveError) :
    outcome (throw e : Resolution α) s = (.error e, s) := rfl

lemma outcome_bind (x : Resolution α) (f : α → Resolution β) (s : Resolver) :
    outcome (x >>= f) s =
      match outcome x s with
      | (.ok a, s') => outcome (f a) s'
      | (.error e, s') => (.error e, s') := by
  unfold outcome
  rw [ExceptT.run_bind, StateT.run_bind]
  rcases x.run.run s with ⟨e | a, s'⟩ <;> rfl

lemma outcome_tryCatch (x : Resolution α) (handle : ResolveError → Resolution α) (s : Resolver) :
    outcome (tryCatch x handle) s =
      match outcome x s with
      | (.ok a, s') => (.ok a, s')
      | (.error e, s') => outcome (handle e) s' := by
  unfold outcome
  rw [ExceptT.run_tryCatch, StateT.run_bind]
  rcases x.run.run s with ⟨e | a, s'⟩ <;> rfl

@[simp] lemma outcome_get : outcome (get : Resolution Resolver) s = (.ok s, s) := rfl

@[simp] lemma outcome_set (s' : Resolver) :
    outcome (set s' : Resolution PUnit) s = (.ok ⟨⟩, s') := rfl

@[simp] lemma outcome_modify (g : Resolver → Resolver) :
    outcome (modify g : Resolution PUnit) s = (.ok ⟨⟩, g s) := rfl

@[simp] lemma outcome_onRegistry (g : Registry → α × Registry) :
    outcome (onRegistry g : Resolution α) s =
      (.ok (g s.registry).1, s.withRegistry (g s.registry).2) := rfl

@[simp] lemma outcome_ofExcept (a : Except ResolveError α) :
    outcome (ofExcept a : Resolution α) s = (a, s) := by
  cases a <;> rfl

@[simp] lemma outcome_lift (y : Registry.Lookup α) :
    outcome (lift y : Resolution α) s =
      ((y.run.run s.registry).1, s.withRegistry (y.run.run s.registry).2) := by
  rw [lift, outcome_bind]
  simp

@[simp] lemma outcome_observe (x : Resolution α) :
    outcome (observe x) s = (.ok (outcome x s).1, (outcome x s).2) := by
  have hrun : outcome (do return Except.ok (ε := ResolveError) (← x)) s =
      match outcome x s with
      | (.ok a, s') => (.ok (.ok a), s')
      | (.error e, s') => (.error e, s') := outcome_bind x _ s
  unfold observe
  rw [outcome_tryCatch, hrun]
  rcases outcome x s with ⟨e | a, s'⟩ <;> rfl

/-! ## Rules -/

lemma Ensures.mono (h : Ensures x s ok fail) (hok : ∀ a s', ok a s' → ok' a s')
    (hfail : ∀ e s', fail e s' → fail' e s') : Ensures x s ok' fail' := by
  unfold Ensures at h ⊢
  rcases hx : outcome x s with ⟨e | a, s'⟩ <;> rw [hx] at h
  · exact hfail e s' h
  · exact hok a s' h

lemma Ensures.and (h : Ensures x s ok fail) (h' : Ensures x s ok' fail') :
    Ensures x s (fun a s' => ok a s' ∧ ok' a s') (fun e s' => fail e s' ∧ fail' e s') := by
  unfold Ensures at h h' ⊢
  rcases hx : outcome x s with ⟨e | a, s'⟩
  all_goals
    rw [hx] at h h'
    exact ⟨h, h'⟩

/-- What a program ensures holds of the outcome it has. -/
lemma Ensures.of_ok (h : Ensures x s ok fail) {a : α} {s' : Resolver}
    (hx : outcome x s = (.ok a, s')) : ok a s' := by
  unfold Ensures at h
  rwa [hx] at h

lemma Ensures.of_error (h : Ensures x s ok fail) {e : ResolveError} {s' : Resolver}
    (hx : outcome x s = (.error e, s')) : fail e s' := by
  unfold Ensures at h
  rwa [hx] at h

lemma Ensures.exists_ok (h : Ensures x s ok fun _ _ => False) :
    ∃ a s', outcome x s = (.ok a, s') ∧ ok a s' := by
  unfold Ensures at h
  rcases hx : outcome x s with ⟨e | a, s'⟩ <;> rw [hx] at h
  · exact h.elim
  · exact ⟨a, s', rfl, h⟩

@[simp] lemma ensures_pure (a : α) : Ensures (pure a) s ok fail ↔ ok a s := Iff.rfl

@[simp] lemma ensures_throw (e : ResolveError) :
    Ensures (throw e : Resolution α) s ok fail ↔ fail e s := Iff.rfl

@[simp] lemma ensures_bind {ok : β → Resolver → Prop} :
    Ensures (x >>= f) s ok fail ↔
      Ensures x s (fun a s' => Ensures (f a) s' ok fail) fail := by
  unfold Ensures
  rw [outcome_bind]
  rcases outcome x s with ⟨e | a, s'⟩ <;> rfl

@[simp] lemma ensures_get {ok : Resolver → Resolver → Prop} :
    Ensures (get : Resolution Resolver) s ok fail ↔ ok s s := Iff.rfl

@[simp] lemma ensures_set {ok : PUnit → Resolver → Prop} (s' : Resolver) :
    Ensures (set s' : Resolution PUnit) s ok fail ↔ ok ⟨⟩ s' := Iff.rfl

@[simp] lemma ensures_modify {ok : PUnit → Resolver → Prop} (g : Resolver → Resolver) :
    Ensures (modify g : Resolution PUnit) s ok fail ↔ ok ⟨⟩ (g s) := Iff.rfl

@[simp] lemma ensures_onRegistry (g : Registry → α × Registry) :
    Ensures (onRegistry g : Resolution α) s ok fail ↔
      ok (g s.registry).1 (s.withRegistry (g s.registry).2) := Iff.rfl

@[simp] lemma ensures_fresh {ok : Node → Resolver → Prop} (n : Node) :
    Ensures (fresh n : Resolution Node) s ok fail ↔
      ok (s.registry.renew n).1 (s.withRegistry (s.registry.renew n).2) := Iff.rfl

@[simp] lemma ensures_setAnchors {ok : Unit → Resolver → Prop} (current : Address) (n : Node) :
    Ensures (setAnchors current n : Resolution Unit) s ok fail ↔
      ok () (s.withRegistry (s.registry.setAnchors current n)) := Iff.rfl

lemma ensures_ofExcept {a : Except ResolveError α} :
    Ensures (ofExcept a : Resolution α) s ok fail ↔
      (∀ b, a = .ok b → ok b s) ∧ ∀ e, a = .error e → fail e s := by
  cases a <;> simp [Ensures]

lemma outcome_inside (place : Address) (x : Resolution Node) (s : Resolver) :
    outcome (inside place x) s =
      match outcome x (s.enter place) with
      | (.ok n, s') => (.ok (n, (s'.openCut s.active.length).isNone), s'.leave s)
      | (.error e, s') => (.error e, s'.leave s) := by
  unfold inside
  simp only [outcome_bind, outcome_get, outcome_set, outcome_observe, outcome_ofExcept]
  rcases outcome x (s.enter place) with ⟨e | a, s'⟩ <;> rfl

/-- The rule of `inside`: the program runs from the resolver that has entered the place, and
what it leaves is left. -/
lemma ensures_inside {place : Address} {x : Resolution Node} {ok : Node × Bool → Resolver → Prop} :
    Ensures (inside place x) s ok fail ↔
      Ensures x (s.enter place)
        (fun n s' => ok (n, (s'.openCut s.active.length).isNone) (s'.leave s))
        (fun e s' => fail e (s'.leave s)) := by
  unfold Ensures
  rw [outcome_inside]
  rcases outcome x (s.enter place) with ⟨e | a, s'⟩ <;> rfl

/-- The rule of `rawAt`: it finds what stands raw at the place and leaves all but the registry,
and that alike. -/
lemma ensures_rawAt {place : Address} {ok : Node × Address → Resolver → Prop}
    (found : ∀ n raw r, s.registry.Alike r → s.registry.raw place = .ok n →
      raw.forget = n.forget → ok (raw, place.withoutFragment) (s.withRegistry r))
    (missing : ∀ e r, s.registry.Alike r → s.registry.raw place = .error e →
      fail e (s.withRegistry r)) :
    Ensures (rawAt place) s ok fail := by
  rw [rawAt, ensures_bind, ensures_ofExcept]
  constructor
  · intro fragment hfragment
    rw [Registry.raw_of_fragmentText hfragment] at found missing
    obtain ⟨hfound, halike⟩ := s.registry.lookup_found place.withoutFragment fragment
    rw [Registry.found_congr_address place.withoutFragment_idem] at hfound
    unfold Ensures
    rw [outcome_bind, outcome_lift]
    rcases hrun : (Registry.lookup place.withoutFragment fragment).run.run s.registry
      with ⟨e | raw, r⟩
    all_goals
      rw [hrun] at hfound halike
    · exact missing e r halike (Registry.error_of_map_forget hfound rfl)
    · obtain ⟨n, hn, hforget⟩ := Registry.ok_of_map_forget hfound rfl
      exact found n raw r halike hn hforget
  · intro e he
    exact missing e s.registry (.refl _) (Registry.raw_of_fragmentText_error he)

/-- What stands raw at a place is looked up, which leaves all but the registry. -/
lemma rawAt_withRegistry (place : Address) (s : Resolver) :
    Ensures (rawAt place) s
      (fun p s' => p.2 = place.withoutFragment ∧ ∃ r, s' = s.withRegistry r)
      (fun _ s' => ∃ r, s' = s.withRegistry r) :=
  ensures_rawAt (fun _ _ r _ _ _ => ⟨rfl, r, rfl⟩) fun _ r _ _ => ⟨r, rfl⟩

/-- Following aliases leaves all but the registry, and that alike. -/
lemma alike_followAliases (limit : Nat) (seen : List Address) (raw : Node) (document : Address)
    (s : Resolver) :
    Ensures (followAliases limit seen raw document) s
      (fun _ s' => ∃ r, s.registry.Alike r ∧ s' = s.withRegistry r)
      (fun _ s' => ∃ r, s.registry.Alike r ∧ s' = s.withRegistry r) := by
  induction limit generalizing seen raw document s with
  | zero => exact ⟨s.registry, .refl _, rfl⟩
  | succ limit ih =>
    rw [followAliases]
    split
    case h_2 => exact ⟨s.registry, .refl _, rfl⟩
    case h_1 reference _ =>
      rw [ensures_bind, ensures_ofExcept]
      refine ⟨fun t _ => ?_, fun e _ => ⟨s.registry, .refl _, rfl⟩⟩
      by_cases hseen : t.place ∈ seen
      · rw [if_pos hseen]
        exact ⟨s.registry, .refl _, rfl⟩
      · rw [if_neg hseen, ensures_bind]
        apply ensures_rawAt
        · intro n raw' r halike _ _
          refine (ih (t.place :: seen) raw' t.place.withoutFragment (s.withRegistry r)).mono ?_ ?_
          · rintro _ _ ⟨r', halike', rfl⟩
            exact ⟨r', halike.trans halike', rfl⟩
          · rintro _ _ ⟨r', halike', rfl⟩
            exact ⟨r', halike.trans halike', rfl⟩
        · intro e r halike _
          exact ⟨r, halike, rfl⟩

/-- The rule of `closeCycle`: its result is a stub of the node that aliases lead to, and all but the
registry and the cut is left.  What else is known of the way along the aliases, `P` of where it leads
and `Q` of its faults, may be used. -/
lemma closeCycle_ensures {limit depth : Nat} {raw : Node} {document : Address}
    {P : Node × Address → Prop} {Q : ResolveError → Prop} {ok : Node → Resolver → Prop}
    (aliases : Ensures (followAliases limit [] raw document) (s.cutAt depth) (fun p _ => P p)
      fun e _ => Q e)
    (stub : ∀ (p : Node × Address) r, s.registry.Alike r → P p →
      ok (r.renew { p.1.cycleStub with base := some p.2 }).1
        ((s.cutAt depth).withRegistry (r.renew { p.1.cycleStub with base := some p.2 }).2))
    (missing : ∀ e r, s.registry.Alike r → Q e → fail e ((s.cutAt depth).withRegistry r)) :
    Ensures (closeCycle limit depth raw document) s ok fail := by
  rw [closeCycle, ensures_bind, ensures_modify, ensures_bind]
  refine ((alike_followAliases limit [] raw document (s.cutAt depth)).and aliases).mono ?_ ?_
  · rintro p _ ⟨⟨r, halike, rfl⟩, hp⟩
    exact stub p r halike hp
  · rintro e _ ⟨⟨r, halike, rfl⟩, he⟩
    exact missing e r halike he

/-- The same where nothing else has to be known. -/
lemma closeCycle_ensures_of_alike {limit depth : Nat} {raw : Node} {document : Address}
    {ok : Node → Resolver → Prop}
    (stub : ∀ (p : Node × Address) r, s.registry.Alike r →
      ok (r.renew { p.1.cycleStub with base := some p.2 }).1
        ((s.cutAt depth).withRegistry (r.renew { p.1.cycleStub with base := some p.2 }).2))
    (missing : ∀ e r, s.registry.Alike r → fail e ((s.cutAt depth).withRegistry r)) :
    Ensures (closeCycle limit depth raw document) s ok fail := by
  have aliases := alike_followAliases limit [] raw document (s.cutAt depth)
  exact closeCycle_ensures (aliases.mono (fun _ _ _ => trivial) fun _ _ _ => trivial)
    (fun p r halike _ => stub p r halike) fun e r halike _ => missing e r halike

/-! ## Targets -/

/-- The outcome of the expansion of a target, once the tree at it was expanded inside all those in
progress `before`. -/
def settled (before : Resolver) (place : Address) (fragment : String) :
    Except ResolveError Node × Resolver → Except ResolveError Node × Resolver
  | (.ok n, s) => (.ok n, s.settle before place fragment n)
  | (.error e, s) => (.error e, s.leave before)

/-- An expansion that is kept is what the target expands to, and nothing else happens. -/
lemma outcome_expandTarget_of_kept {target : Address} {n : Node}
    (h : OrderedMap.get? s.expansions target.place = some n) (limit : Nat) :
    outcome (expandTarget (limit + 1) target) s = (.ok n, s) := by
  rw [expandTarget, outcome_bind, outcome_get]
  dsimp only
  rw [h]
  rfl

/-- A target in progress is given a stub. -/
lemma outcome_expandTarget_of_cycle (limit : Nat) {target : Address} {s' : Resolver}
    {fragment : String} {raw : Node} {document : Address} {depth : Nat}
    (hnone : OrderedMap.get? s.expansions target.place = none)
    (hfragment : target.place.fragmentText = .ok fragment)
    (hraw : outcome (rawAt target.place) s = (.ok (raw, document), s'))
    (hdepth : s'.active.idxOf? target.place = some depth) :
    outcome (expandTarget (limit + 1) target) s =
      outcome (closeCycle limit depth raw document) s' := by
  rw [expandTarget]
  simp only [outcome_bind, outcome_get, hnone, hfragment, outcome_ofExcept, hraw, hdepth]

/-- Any other target is expanded as the innermost one. -/
lemma outcome_expandTarget_of_open (limit : Nat) {target : Address} {s' : Resolver}
    {fragment : String} {raw : Node} {document : Address}
    (hnone : OrderedMap.get? s.expansions target.place = none)
    (hfragment : target.place.fragmentText = .ok fragment)
    (hraw : outcome (rawAt target.place) s = (.ok (raw, document), s'))
    (hplace : target.place ∉ s'.active) :
    outcome (expandTarget (limit + 1) target) s =
      settled s' target.place fragment
        (outcome (expandNode (expandTarget limit) document raw) (s'.enter target.place)) := by
  have hactive : s'.active.idxOf? target.place = none := List.idxOf?_eq_none_iff.2 hplace
  rw [expandTarget]
  simp only [outcome_bind, outcome_get, hnone, hfragment, outcome_ofExcept, hraw, hactive,
    outcome_inside]
  rcases outcome (expandNode (expandTarget limit) document raw) (s'.enter target.place)
    with ⟨e | n, s''⟩
  · rfl
  · dsimp only [settled]
    unfold Resolver.settle
    split
    · rfl
    · rfl

end Resolution

end SchemaCatalog
