import SchemaCatalog.Proofs.Resolution.Accounts
import SchemaCatalog.Proofs.Resolution.Persistence

/-!
# Whole expansions are shared

A target is expanded once and for all, if its expansion is whole: any two references that are given
whole expansions of one target, anywhere in a document, are given the same node (`shares_whole`),
also while cycles are open around them.  Where there are no cycles, that is every two references to
a target (`shares_acyclic`).  What is given in the place of a reference is read off the account of
the run, and that it is the account of that very run is part of the statements.

An expansion that holds a stub of a target around it is not kept, by design: it is good only
there, and a later reference to its target is expanded anew (`expanded_twice`).

Why whole expansions are shared is a matter of depths.  The cut that a resolver remembers is the
least depth of the targets in progress of which there are stubs in what was given since
(`shallowest`), so an expansion is kept exactly if it is whole.  What is kept stays, and the ledger
has an account for it.
-/

namespace SchemaCatalog

namespace Resolver

/-! ## Cuts -/

/-- The least depth of some targets among those in progress. -/
def shallowest (active places : List Address) : Option Nat :=
  places.foldr (fun place depth => shallower (active.idxOf? place) depth) none

variable {a b c : Option Nat} {active places places' : List Address} {place p : Address}

@[simp] lemma shallower_none_left : shallower none b = b := rfl

@[simp] lemma shallower_none_right : shallower a none = a := by
  cases a <;> rfl

lemma shallower_assoc : shallower (shallower a b) c = shallower a (shallower b c) := by
  cases a <;> cases b <;> cases c <;> simp [shallower, Nat.min_assoc]

lemma shallower_eq_none_iff : shallower a b = none ↔ a = none ∧ b = none := by
  cases a <;> cases b <;> simp [shallower]

/-- The least of the depths that lie further out than some depth. -/
lemma filter_shallower (depth : Nat) :
    (shallower a b).filter (· < depth) =
      shallower (a.filter (· < depth)) (b.filter (· < depth)) := by
  cases a <;> cases b <;> simp only [shallower, Option.filter_some, Option.filter_none] <;> grind

lemma shallowest_append :
    shallowest active (places ++ places') =
      shallower (shallowest active places) (shallowest active places') := by
  induction places with
  | nil => rfl
  | cons p places ih =>
    simp only [shallowest, List.cons_append, List.foldr_cons] at ih ⊢
    rw [ih, shallower_assoc]

lemma shallowest_eq_none_iff (h : ∀ p ∈ places, p ∈ active) :
    shallowest active places = none ↔ places = [] := by
  cases places with
  | nil => exact iff_of_true rfl rfl
  | cons p places =>
    refine iff_of_false ?_ (List.cons_ne_nil _ _)
    simp only [shallowest, List.foldr_cons, shallower_eq_none_iff, List.idxOf?_eq_none_iff]
    exact fun hnone => hnone.1 (h p List.mem_cons_self)

lemma idxOf?_concat_self (hplace : place ∉ active) :
    (active ++ [place]).idxOf? place = some active.length := by
  rw [List.idxOf?_eq_some_iff]
  refine ⟨by simp, by simp, fun j hj => ?_⟩
  rw [List.getElem_append_left hj]
  exact fun h => hplace (h ▸ List.getElem_mem hj)

lemma idxOf?_concat_of_mem (place : Address) (hp : p ∈ active) :
    ∃ depth, depth < active.length ∧ active.idxOf? p = some depth ∧
      (active ++ [place]).idxOf? p = some depth := by
  have hsome : active.idxOf? p ≠ none := mt List.idxOf?_eq_none_iff.1 (not_not.2 hp)
  obtain ⟨depth, hdepth⟩ := Option.ne_none_iff_exists'.1 hsome
  obtain ⟨hlt, hget, hfirst⟩ := List.idxOf?_eq_some_iff.1 hdepth
  refine ⟨depth, hlt, hdepth, List.idxOf?_eq_some_iff.2 ⟨?_, ?_, fun j hj => ?_⟩⟩
  · rw [List.length_append]
    exact Nat.lt_add_right _ hlt
  · rw [List.getElem_append_left hlt, hget]
  · rw [List.getElem_append_left (hj.trans hlt)]
    exact hfirst j hj

/-- Of what was cut at some targets, only what was not cut at the innermost one remains when this
one is left. -/
lemma filter_shallowest (hplace : place ∉ active) (h : ∀ p ∈ places, p ∈ active ++ [place]) :
    (shallowest (active ++ [place]) places).filter (· < active.length) =
      shallowest active (places.filter (· ≠ place)) := by
  induction places with
  | nil => rfl
  | cons p places ih =>
    obtain ⟨hp, hplaces⟩ := List.forall_mem_cons.1 h
    have ih := ih hplaces
    unfold shallowest at ih ⊢
    rw [List.foldr_cons, filter_shallower, ih]
    by_cases hown : p = place
    · rw [hown, idxOf?_concat_self hplace, List.filter_cons_of_neg (by simp)]
      simp [Option.filter_some]
    · have hmem : p ∈ active := by simpa [hown] using hp
      obtain ⟨depth, hlt, hdepth, hdepth'⟩ := idxOf?_concat_of_mem place hmem
      rw [hdepth', List.filter_cons_of_pos (by simpa using hown), List.foldr_cons, hdepth,
        Option.filter_some, if_pos (by simpa using hlt)]

end Resolver

namespace Resolution

open Resolver Accounting

variable {E E' : OrderedMap Address Node} {l l' : Ledger} {s s' : Resolver} {α : Type}

/-! ## Fair accounts -/

/-- Whether a table of expansions has every whole expansion in an account, each of which is its
raw tree with the references replaced. -/
def Account.Fair (E : OrderedMap Address Node) (a : Account) : Prop :=
  ∀ b ∈ a.all, b.Replaces ∧ (b.cuts = [] → OrderedMap.get? E b.place = some b.node)

lemma Account.Fair.mono {a : Account} (h : a.Fair E)
    (hE : ∀ p n, OrderedMap.get? E p = some n → OrderedMap.get? E' p = some n) : a.Fair E' :=
  fun b hb => ⟨(h b hb).1, fun hwhole => hE _ _ ((h b hb).2 hwhole)⟩

lemma Account.Fair.node_eq {a b c : Account} (h : a.Fair E) (hb : b ∈ a.all) (hc : c ∈ a.all)
    (hplace : b.place = c.place) (hbwhole : b.cuts = []) (hcwhole : c.cuts = []) :
    b.node = c.node := by
  have hbkept := (h b hb).2 hbwhole
  have hckept := (h c hc).2 hcwhole
  rw [hplace, hckept] at hbkept
  exact (Option.some.inj hbkept).symm

/-- An expansion is fair if the accounts inside it are, and if it is kept where it is whole. -/
lemma Account.Fair.expansion {place : Address} {raw n : Node} {inside : List Account}
    (hinside : ∀ a ∈ inside, a.Fair E) (hreplaces : (Account.expansion place raw n inside).Replaces)
    (hkept : (Account.expansion place raw n inside).cuts = [] → OrderedMap.get? E place = some n) :
    (Account.expansion place raw n inside).Fair E := by
  intro b hb
  rw [Account.all, List.mem_cons, Account.mem_allInside] at hb
  rcases hb with rfl | ⟨a, ha, hb⟩
  · exact ⟨hreplaces, hkept⟩
  · exact hinside a ha b hb

/-- Whether a ledger has a fair account of every kept expansion. -/
def Ledger.Covers (l : Ledger) (E : OrderedMap Address Node) : Prop :=
  ∀ p n, OrderedMap.get? E p = some n →
    ∃ a, OrderedMap.get? l p = some a ∧ a.place = p ∧ a.node = n ∧ a.cuts = [] ∧ a.Fair E

/-- The account of an expansion is filed when the expansion is kept. -/
lemma Ledger.Covers.insert {place : Address} {n : Node} {a : Account} (h : Ledger.Covers l E)
    (hnone : OrderedMap.get? E place = none) (hplace : a.place = place) (hnode : a.node = n)
    (hcuts : a.cuts = []) (hfair : a.Fair (OrderedMap.insert E place n)) :
    Ledger.Covers (OrderedMap.insert l place a) (OrderedMap.insert E place n) := by
  intro p m hm
  by_cases hp : place = p
  · subst hp
    rw [OrderedMap.get?_insert_self] at hm
    obtain rfl := Option.some.inj hm
    exact ⟨a, OrderedMap.get?_insert_self _ _ _, hplace, hnode, hcuts, hfair⟩
  · rw [OrderedMap.get?_insert_of_ne _ _ hp] at hm
    obtain ⟨b, hb, hbplace, hbnode, hbcuts, hbfair⟩ := h p m hm
    refine ⟨b, ?_, hbplace, hbnode, hbcuts, hbfair.mono fun q k hq => ?_⟩
    · rw [OrderedMap.get?_insert_of_ne _ _ hp, hb]
    · have hne : place ≠ q := by
        rintro rfl
        rw [hnone] at hq
        cases hq
      rw [OrderedMap.get?_insert_of_ne _ _ hne, hq]

/-! ## Reports -/

/-- What a report may say of a run from a resolver: the ledger still covers what is kept, the
accounts are fair, and the cut is that of the stubs in them. -/
structure Sound (s : Resolver) (o : Report α) : Prop where
  covers : Ledger.Covers o.2.1 o.1.2.expansions
  advances : s.Advances o.1.2
  fair : ∀ a ∈ o.2.2, a.Fair o.1.2.expansions
  active : ∀ p ∈ Account.cutsInside o.2.2, p ∈ s.active
  cut : ∀ a, o.1.1 = .ok a →
    o.1.2.cut = shallower s.cut (shallowest s.active (Account.cutsInside o.2.2))

lemma Sound.of_eq {o : Except ResolveError α} (h : Ledger.Covers l s.expansions)
    (hactive : s'.active = s.active) (hexpansions : s'.expansions = s.expansions)
    (hcut : s'.cut = s.cut) : Sound s (((o, s'), l, []) : Report α) where
  covers := by rw [hexpansions]; exact h
  advances := .of_eq hactive hexpansions
  fair _ ha := absurd ha List.not_mem_nil
  active _ hp := absurd hp List.not_mem_nil
  cut _ _ := hcut.trans shallower_none_right.symm

lemma Sound.failed {e : ResolveError} (covers : Ledger.Covers l' s'.expansions)
    (advances : s.Advances s') : Sound s (((.error e, s'), l', []) : Report α) where
  covers := covers
  advances := advances
  fair _ ha := absurd ha List.not_mem_nil
  active _ hp := absurd hp List.not_mem_nil
  cut _ h := by cases h

lemma Sound.singleton {a : Account} {n : α} (covers : Ledger.Covers l' s'.expansions)
    (advances : s.Advances s') (fair : a.Fair s'.expansions) (active : ∀ p ∈ a.cuts, p ∈ s.active)
    (cut : s'.cut = shallower s.cut (shallowest s.active a.cuts)) :
    Sound s (((.ok n, s'), l', [a]) : Report α) where
  covers := covers
  advances := advances
  fair := List.forall_mem_singleton.2 fair
  active := by rwa [Account.cutsInside_singleton]
  cut _ _ := by rwa [Account.cutsInside_singleton]

lemma Sound.append {β : Type} {a : α} {accounts : List Account} {o : Report β}
    (h : Sound s (((.ok a, s'), l', accounts) : Report α)) (h' : Sound s' o) :
    Sound s ((o.1, o.2.1, accounts ++ o.2.2) : Report β) where
  covers := h'.covers
  advances := h.advances.trans h'.advances
  fair b hb := by
    rcases List.mem_append.1 hb with hb | hb
    · exact (h.fair b hb).mono h'.advances.expansions
    · exact h'.fair b hb
  active p hp := by
    rw [Account.cutsInside_append] at hp
    rcases List.mem_append.1 hp with hp | hp
    · exact h.active p hp
    · exact h.advances.active ▸ h'.active p hp
  cut b hb := by
    have hfirst : s'.cut = shallower s.cut (shallowest s.active (Account.cutsInside accounts)) :=
      h.cut a rfl
    have hactive : s'.active = s.active := h.advances.active
    rw [h'.cut b hb, hfirst, hactive, Account.cutsInside_append, shallowest_append, shallower_assoc]

/-- Two programs from a resolver on, the second of which gives account: its report is sound, and
as long as its accounts are such that `P` holds of them, it has the outcome of the first. -/
def accounted (P : Account → Prop) : Coupling Resolution Accounting where
  rel s x y := ∀ l, Ledger.Covers l s.expansions →
    Sound s (y s l) ∧ ((∀ a ∈ (y s l).2.2, P a) → (y s l).1 = outcome x s)
  pure s a l hl := ⟨.of_eq hl rfl rfl rfl, fun _ => rfl⟩
  throw s e l hl := ⟨.of_eq hl rfl rfl rfl, fun _ => rfl⟩
  onRegistry s f l hl := ⟨.of_eq hl rfl rfl rfl, fun _ => rfl⟩
  bind s x y f g hx hf l hl := by
    obtain ⟨hsound, hrun⟩ := hx l hl
    rw [bind_apply, outcome_bind]
    rcases hy : y s l with ⟨⟨e | a, s'⟩, l', accounts⟩
    all_goals rw [hy] at hsound hrun
    · refine ⟨⟨hsound.covers, hsound.advances, hsound.fair, hsound.active, ?_⟩, fun hP => ?_⟩
      · exact fun _ h => by cases h
      · rw [← hrun hP]
    · obtain ⟨hsound', hrun'⟩ := hf a s' hsound.advances.active l' hsound.covers
      refine ⟨hsound.append hsound', fun hP => ?_⟩
      obtain ⟨hfirst, hsecond⟩ := List.forall_mem_append.1 hP
      rw [← hrun hfirst]
      exact hrun' hsecond

/-! ## Trees -/

/-- What is asked of the outcome of the expansion of a target and a report of it: the report has
the same outcome, is sound and consists of one account of the target. -/
structure Reckons (place : Address) (s : Resolver) (o : Except ResolveError Node × Resolver)
    (report : Report Node) : Prop where
  sound : Sound s report
  run : report.1 = o
  one : ∀ n, report.1.1 = .ok n → ∃ a, report.2.2 = [a] ∧ a.place = place ∧ a.node = n

/-- What is asked of two ways to expand targets, the second of which gives account. -/
def ReckonsAll (expand : Address → Resolution Node) (expand' : Address → Accounting Node) : Prop :=
  ∀ t s l, Ledger.Covers l s.expansions → Reckons t.place s (outcome (expand t) s) (expand' t s l)

variable {expand : Address → Resolution Node} {expand' : Address → Accounting Node}

lemma ReckonsAll.expandNode (h : ReckonsAll expand expand') (current : Address) (n : Node)
    (hl : Ledger.Covers l s.expansions) :
    Sound s (Resolution.expandNode expand' current n s l) ∧
      (Resolution.expandNode expand' current n s l).1 =
        outcome (Resolution.expandNode expand current n) s := by
  have htargets (t : Address) (s : Resolver) :
      (accounted fun _ => True).rel s (expand t) (expand' t) :=
    fun l hl => ⟨(h t s l hl).sound, fun _ => (h t s l hl).run⟩
  obtain ⟨hsound, hrun⟩ := (accounted _).expandNode htargets n s l hl
  exact ⟨hsound, hrun fun _ _ => trivial⟩

/-- The discipline that asks for nothing. -/
def lax : Discipline where
  inv _ := True
  later _ _ := True
  refl _ := trivial
  trans _ _ := trivial

/-- A way to expand targets that fails where `F` does not allow what a target is given. -/
def guarded (F : Address → Node → Prop) [∀ t, DecidablePred (F t)]
    (expand : Address → Resolution Node) (t : Address) : Resolution Node := do
  let m ← expand t
  if F t m then return m else throw (.tooDeep t)

/-- What a guarded expansion of a tree puts in the place of references is allowed. -/
lemma replaced_of_guarded {F : Address → Node → Prop} [∀ t, DecidablePred (F t)]
    {current : Address} {n m : Node}
    (h : outcome (Resolution.expandNode (guarded F expand) current n) s = (.ok m, s')) :
    Replaced F current n m := by
  have hallowed (t : Address) (s : Resolver) :
      Keeps lax (guarded F expand t) s (fun m _ => F t m) fun _ => True := by
    intro _
    rw [guarded, ensures_bind]
    unfold Ensures
    rcases outcome (expand t) s with ⟨e | m, s'⟩
    · exact ⟨trivial, trivial, trivial⟩
    · by_cases hF : F t m
      · simp only [if_pos hF, outcome_pure]
        exact ⟨trivial, trivial, hF⟩
      · simp only [if_neg hF, outcome_throw]
        exact ⟨trivial, trivial, trivial⟩
  have hserves : Serves lax (fun _ => F) (fun _ => True) (guarded F expand) current n :=
    { stable := fun _ _ _ _ _ h => h
      fresh := fun _ _ _ => ⟨trivial, trivial⟩
      anchors := fun _ _ _ _ => ⟨trivial, trivial⟩
      malformed := fun _ _ _ _ _ _ => trivial
      several := fun _ _ _ => trivial
      expand := fun _ _ _ _ t _ s => hallowed t s }
  exact ((expandNode_keeps hserves s trivial).of_ok h).2.2

/-- The expansion of a tree gives an account of every reference in it. -/
theorem ReckonsAll.replaced (h : ReckonsAll expand expand') {current : Address} {n m : Node}
    {accounts : List Account} (hl : Ledger.Covers l s.expansions)
    (hrun : Resolution.expandNode expand' current n s l = ((.ok m, s'), l', accounts)) :
    Replaced (fun t r => ∃ a ∈ accounts, a.place = t.place ∧ a.node = r) current n m := by
  classical
  -- Nothing is refused if all that is accounted for is allowed, so the guarded run is the same.
  have hguarded (t : Address) (s : Resolver) : (accounted (· ∈ accounts)).rel s
      (guarded (fun t r => ∃ a ∈ accounts, a.place = t.place ∧ a.node = r) expand t)
      (expand' t) := by
    intro l hl
    obtain ⟨hsound, hout, hone⟩ := h t s l hl
    refine ⟨hsound, fun hall => ?_⟩
    rw [guarded, outcome_bind, ← hout]
    rcases hreport : (expand' t s l).1 with ⟨e | r, s'⟩
    · rfl
    · obtain ⟨a, ha, hplace, hnode⟩ := hone r (by rw [hreport])
      have hmem : a ∈ accounts := hall a (by rw [ha]; exact List.mem_singleton_self a)
      dsimp only
      rw [if_pos ⟨a, hmem, hplace, hnode⟩, outcome_pure]
  obtain ⟨-, hout⟩ := (accounted (· ∈ accounts)).expandNode hguarded n s l hl
  rw [hrun] at hout
  exact replaced_of_guarded (hout fun _ h => h).symm

/-! ## Targets -/

lemma sound_stub (limit : Nat) (raw : Node) (document : Address) {depth : Nat} {place : Address}
    (hl : Ledger.Covers l s.expansions) (hdepth : s.active.idxOf? place = some depth) :
    Ensures (closeCycle limit depth raw document) s
      (fun n s' => Sound s (((.ok n, s'), l, [.stub place n]) : Report Node))
      (fun e s' => Sound s (((.error e, s'), l, []) : Report Node)) := by
  have hactive : place ∈ s.active := by
    by_contra hnot
    rw [List.idxOf?_eq_none_iff.2 hnot] at hdepth
    cases hdepth
  refine closeCycle_ensures_of_alike (fun _ _ _ => ?_) fun _ _ _ => .failed hl (.of_eq rfl rfl)
  refine .singleton hl (.of_eq rfl rfl) ?_ ?_ ?_
  · intro b hb
    rw [Account.all, List.mem_singleton] at hb
    subst hb
    exact ⟨trivial, fun h => absurd h (List.cons_ne_nil _ _)⟩
  · intro p hp
    rw [Account.cuts, List.mem_singleton] at hp
    exact hp ▸ hactive
  · rw [Account.cuts, shallowest, List.foldr_cons, hdepth]
    rfl

/-- A target is left with one account.  Its expansion is whole exactly if no cut lies further out,
and then it is kept and its account filed. -/
lemma sound_leave (fragment : String) {place : Address} {raw n : Node} {accounts : List Account}
    (h : Sound (s.enter place) (((.ok n, s'), l', accounts) : Report Node))
    (hplace : place ∉ s.active) (hnone : OrderedMap.get? s.expansions place = none)
    (hreplaces : (Account.expansion place raw n accounts).Replaces) :
    (s'.openCut s.active.length = none →
      Sound s (((.ok n, (s'.leave s).keep place fragment n),
        OrderedMap.insert l' place (.expansion place raw n accounts),
        [.expansion place raw n accounts]) : Report Node)) ∧
    (s'.openCut s.active.length ≠ none →
      Sound s (((.ok n, s'.leave s), l', [.expansion place raw n accounts]) : Report Node)) := by
  set a := Account.expansion place raw n accounts with ha
  have hcuts : a.cuts = (Account.cutsInside accounts).filter (· ≠ place) := by
    rw [ha, Account.cuts]
  have hopen : s'.openCut s.active.length = shallowest s.active a.cuts := by
    have hcut : s'.cut = shallowest (s.active ++ [place]) (Account.cutsInside accounts) :=
      h.cut n rfl
    rw [openCut, hcut, hcuts]
    exact filter_shallowest hplace h.active
  have hactive : ∀ p ∈ a.cuts, p ∈ s.active := by
    intro p hp
    rw [hcuts, List.mem_filter] at hp
    simpa [of_decide_eq_true hp.2] using h.active p hp.1
  have hwhole : s'.openCut s.active.length = none ↔ a.cuts = [] := by
    rw [hopen, shallowest_eq_none_iff hactive]
  have hcut : (s'.leave s).cut = shallower s.cut (shallowest s.active a.cuts) := by
    rw [← hopen]
    rfl
  obtain ⟨hleft, hfree⟩ := Advances.leave (s := s) (r := s.registry) h.advances hnone
  constructor
  · intro hclosed
    have hkept : s.Advances ((s'.leave s).keep place fragment n) := hleft.keep hfree hplace
    have hgrown : ∀ p m, OrderedMap.get? s'.expansions p = some m →
        OrderedMap.get? (OrderedMap.insert s'.expansions place n) p = some m := by
      intro p m hm
      have hne : place ≠ p := by
        rintro rfl
        rw [show OrderedMap.get? s'.expansions place = none from hfree] at hm
        cases hm
      rw [OrderedMap.get?_insert_of_ne _ _ hne, hm]
    have hfair : a.Fair (OrderedMap.insert s'.expansions place n) :=
      .expansion (fun b hb => (h.fair b hb).mono hgrown) hreplaces
        fun _ => OrderedMap.get?_insert_self _ _ _
    have hcovers := h.covers.insert hfree rfl rfl (hwhole.1 hclosed) hfair
    exact .singleton hcovers hkept hfair hactive hcut
  · intro hopened
    have hfair : a.Fair s'.expansions :=
      .expansion h.fair hreplaces fun hnil => absurd (hwhole.2 hnil) hopened
    exact .singleton h.covers hleft hfair hactive hcut

/-- A report may begin before what leaves all but the registry. -/
lemma Reckons.of_withRegistry {place : Address} {r : Registry}
    {o : Except ResolveError Node × Resolver} {report : Report Node}
    (h : Reckons place (s.withRegistry r) o report) : Reckons place s o report := by
  obtain ⟨⟨hcovers, ⟨hactive, hexpansions, hpending⟩, hfair, hcuts, hcut⟩, hrun, hone⟩ := h
  exact ⟨⟨hcovers, ⟨hactive, hexpansions, hpending⟩, hfair, hcuts, hcut⟩, hrun, hone⟩

lemma reckons_failed {place : Address} (e : ResolveError) (r : Registry)
    (hl : Ledger.Covers l s.expansions) :
    Reckons place s (.error e, s.withRegistry r) ((.error e, s.withRegistry r), l, []) where
  sound := .failed hl (.of_eq rfl rfl)
  run := rfl
  one _ h := by cases h

/-- A target that is kept: the account that is cited is the one that was filed. -/
lemma reckons_kept {place : Address} {n : Node} (hl : Ledger.Covers l s.expansions)
    (hkept : OrderedMap.get? s.expansions place = some n) :
    Reckons place s (.ok n, s) ((.ok n, s), l, (OrderedMap.get? l place).toList) := by
  obtain ⟨a, ha, hplace, hnode, hcuts, hfair⟩ := hl _ _ hkept
  rw [ha, Option.toList_some]
  refine ⟨.singleton hl (.of_eq rfl rfl) hfair ?_ ?_, rfl, ?_⟩
  · rw [hcuts]
    exact fun _ hp => absurd hp List.not_mem_nil
  · rw [hcuts]
    exact shallower_none_right.symm
  · rintro m hm
    obtain rfl := Except.ok.inj hm
    exact ⟨a, rfl, hplace, hnode⟩

lemma reckons_opened (fragment : String) (raw : Node) {place : Address}
    (h : ReckonsAll expand expand') (hl : Ledger.Covers l s.expansions) (hplace : place ∉ s.active)
    (hnone : OrderedMap.get? s.expansions place = none) :
    Reckons place s
      (settled s place fragment (outcome (expandNode expand place.withoutFragment raw)
        (s.enter place)))
      ((expandNode expand' place.withoutFragment raw (s.enter place) l).settle s place fragment
        raw) := by
  have hentered : Ledger.Covers l (s.enter place).expansions := hl
  obtain ⟨hsound, hrun⟩ := h.expandNode place.withoutFragment raw hentered
  rw [← hrun, ← Report.fst_settle s place fragment raw]
  rcases hy : expandNode expand' place.withoutFragment raw (s.enter place) l
    with ⟨⟨e | n, s'⟩, l', accounts⟩
  all_goals rw [hy] at hsound
  · have hleft := (Advances.leave (r := s.registry) hsound.advances hnone).1
    exact ⟨.failed hsound.covers hleft, rfl, fun _ h => by cases h⟩
  · refine ⟨?_, rfl, fun m hm => ⟨_, rfl, rfl, Except.ok.inj hm⟩⟩
    have hreplaces : (Account.expansion place raw n accounts).Replaces := h.replaced hentered hy
    obtain ⟨hclosed, hopened⟩ := sound_leave fragment hsound hplace hnone hreplaces
    dsimp only [Report.settle]
    unfold settle
    by_cases hcut : s'.openCut s.active.length = none
    · rw [hcut]
      exact hclosed hcut
    · obtain ⟨depth, hdepth⟩ := Option.ne_none_iff_exists'.1 hcut
      rw [hdepth] at hopened ⊢
      exact hopened (Option.some_ne_none depth)

/-- **Giving account of a target changes nothing about its expansion, and the account is sound.** -/
theorem accountTarget_reckons (limit : Nat) :
    ReckonsAll (expandTarget limit) (accountTarget limit) := by
  induction limit with
  | zero => exact fun t s l hl => reckons_failed (.tooDeep t) s.registry hl
  | succ limit ih =>
    intro t s l hl
    apply accountTarget_cases
    case kept => exact fun n hn => reckons_kept hl hn
    case missing => exact fun _ e r _ _ => reckons_failed e r hl
    case cycle =>
      intro _ n raw r _ _ _ depth hdepth
      refine (sound_stub limit raw t.place.withoutFragment (s := s.withRegistry r) hl hdepth).mono
        ?_ ?_
      · intro m s' hsound
        refine Reckons.of_withRegistry (r := r) ⟨hsound, rfl, ?_⟩
        exact fun _ hm => ⟨_, rfl, rfl, Except.ok.inj hm⟩
      · intro e s' hsound
        exact Reckons.of_withRegistry (r := r) ⟨hsound, rfl, fun _ h => by cases h⟩
    case opened =>
      intro hnone n raw r _ _ _ hplace fragment _
      exact (reckons_opened fragment raw ih (s := s.withRegistry r) hl hplace hnone).of_withRegistry

end Resolution

/-! ## Sessions -/

namespace Resolver

open Resolution Accounting

/-- The program of a call, with an account of the targets that it calls for. -/
def Call.accounting : Call → Accounting Node
  | .document limit address => accountTarget limit address.withoutFragment
  | .node limit n current => do
    let n ← onRegistry (·.adopt n)
    expandNode (accountTarget limit) current n

/-- The ledger after some calls on a resolver, successful or not. -/
def ledgerAfter (s : Resolver) (l : Ledger) : List Call → Ledger
  | [] => l
  | call :: calls => (outcome call.program s).2.ledgerAfter (call.accounting s l).2.1 calls

/-- The accounts that a call gives after some others on a fresh resolver. -/
def accounts (r : Registry) (calls : List Call) (call : Call) : List Account :=
  (call.accounting ((ofRegistry r).after calls) ((ofRegistry r).ledgerAfter [] calls)).2.2

variable {s s' : Resolver} {l : Ledger}

/-- Giving account of a call changes nothing about it, and the report is sound. -/
theorem Call.sound (call : Call) (hl : Ledger.Covers l s.expansions) :
    Sound s (call.accounting s l) ∧ (call.accounting s l).1 = outcome call.program s := by
  cases call with
  | document limit address =>
    have h := accountTarget_reckons limit address.withoutFragment s l hl
    exact ⟨h.sound, h.run⟩
  | node limit n current =>
    have hadopted : Sound s ((onRegistry (·.adopt n) : Accounting Node) s l) :=
      .of_eq hl rfl rfl rfl
    have hexpanded := (accountTarget_reckons limit).expandNode current (s.registry.adopt n).1
      (show Ledger.Covers l (s.withRegistry (s.registry.adopt n).2).expansions from hl)
    exact ⟨hadopted.append hexpanded.1, hexpanded.2⟩

theorem covers_after (hl : Ledger.Covers l s.expansions) (calls : List Call) :
    Ledger.Covers (s.ledgerAfter l calls) (s.after calls).expansions := by
  induction calls generalizing s l with
  | nil => exact hl
  | cons call calls ih =>
    obtain ⟨hsound, hrun⟩ := call.sound hl
    have hcovers := hsound.covers
    rw [hrun] at hcovers
    exact ih hcovers

/-- After any calls, the result of a call for a document has an account, and a fair one. -/
theorem exists_account (r : Registry) (calls : List Call) (limit : Nat) (address : Address)
    {n : Node} {s' : Resolver}
    (h : outcome (Resolution.document limit address) ((ofRegistry r).after calls) = (.ok n, s')) :
    ∃ a, accounts r calls (.document limit address) = [a] ∧
      a.place = address.withoutFragment.place ∧ a.node = n ∧ a.Fair s'.expansions := by
  have hcovers : Ledger.Covers ((ofRegistry r).ledgerAfter [] calls)
      ((ofRegistry r).after calls).expansions :=
    covers_after (fun p n hn => by cases hn) calls
  obtain ⟨hsound, hrun, hone⟩ :=
    accountTarget_reckons limit address.withoutFragment _ _ hcovers
  have hrun := hrun.trans h
  obtain ⟨a, ha, hplace, hnode⟩ := hone n (congrArg Prod.fst hrun)
  have hfair := hsound.fair a (by rw [ha]; exact List.mem_singleton_self a)
  rw [hrun] at hfair
  exact ⟨a, ha, hplace, hnode, hfair⟩

/-- Where no cycle was closed, all references to a target are given the same node. -/
theorem shares_acyclic (r : Registry) (calls : List Call) (limit : Nat) (address : Address)
    {n : Node}
    (h : (outcome (Resolution.document limit address) ((ofRegistry r).after calls)).1 = .ok n) :
    ∃ a, accounts r calls (.document limit address) = [a] ∧ a.node = n ∧
      ((∀ p m, Account.stub p m ∉ a.all) →
        ∀ b ∈ a.all, ∀ c ∈ a.all, b.place = c.place → b.node = c.node) := by
  obtain ⟨a, ha, -, hnode, hfair⟩ := exists_account r calls limit address (Prod.ext h rfl)
  refine ⟨a, ha, hnode, fun hacyclic b hb c hc hplace => ?_⟩
  have hwhole : ∀ b ∈ a.all, b.cuts = [] := by
    intro b hb
    refine List.eq_nil_iff_forall_not_mem.2 fun p hp => ?_
    obtain ⟨m, hm⟩ := Account.exists_stub_of_mem_cuts hp
    exact hacyclic p m (Account.all_trans hb hm)
  exact hfair.node_eq hb hc hplace (hwhole b hb) (hwhole c hc)

/-- **Whole expansions are shared.**  After any calls, the result of a call for a document has an
account, in which every expansion is its raw tree with the references replaced by the nodes of the
accounts inside; and any two references of which whole expansions of one target are accounted for
are given the same node. -/
theorem shares_whole (r : Registry) (calls : List Call) (limit : Nat) (address : Address) {n : Node}
    (h : (outcome (Resolution.document limit address) ((ofRegistry r).after calls)).1 = .ok n) :
    ∃ a, accounts r calls (.document limit address) = [a] ∧
      a.place = address.withoutFragment.place ∧ a.node = n ∧ (∀ b ∈ a.all, b.Replaces) ∧
      ∀ b ∈ a.all, ∀ c ∈ a.all, b.place = c.place → b.cuts = [] → c.cuts = [] →
        b.node = c.node := by
  obtain ⟨a, ha, hplace, hnode, hfair⟩ := exists_account r calls limit address (Prod.ext h rfl)
  exact ⟨a, ha, hplace, hnode, fun b hb => (hfair b hb).1, fun b hb c hc => hfair.node_eq hb hc⟩

end Resolver

/-- The address of the schema `t` in a document that is kept in memory. -/
def Address.targetIn (name : String) : Address :=
  { Address.inMemory name with fragment := some "/definitions/t" }

/-- The documents `mem:inner` and `mem:outer`.  Each refers twice to a target of its own, and in
between to itself; the target refers to itself in the one and to the document in the other. -/
def Registry.twoTargets : Registry :=
  [("inner", "#/definitions/t"), ("outer", "#")].foldl
    (fun r document => (r.register (.inMemory document.1) (.ofKeywords
      [.keyed .properties
        [("x", .ofKeywords [.ref "#/definitions/t"]), ("whole", .ofKeywords [.ref "#"]),
          ("y", .ofKeywords [.ref "#/definitions/t"])],
        .keyed .definitions
          [("t", .ofKeywords [.keyed .properties [("up", .ofKeywords [.ref document.2])]])]])).2) {}

namespace Resolver

open Resolution

/-- Both references of the one document are given the same node, though the document itself is in
progress and is cut between them. -/
theorem shares_whole_inner : ∃ n a b c d e,
    (outcome (Resolution.document 5 (.inMemory "inner"))
      ((ofRegistry .twoTargets).after [])).1 = .ok n ∧
    accounts .twoTargets [] (.document 5 (.inMemory "inner")) = [a] ∧ a.node = n ∧
    a.inside = [b, c, d, e] ∧ d.cuts = [.inMemory "inner"] ∧ c.place = e.place ∧
    c.node = e.node := by
  obtain ⟨n, s', h⟩ : ∃ n s', outcome (Resolution.document 5 (.inMemory "inner"))
      ((ofRegistry .twoTargets).after []) = (.ok n, s') := exists_of_isOk (by decide +kernel)
  have hn := congrArg Prod.fst h
  obtain ⟨a, ha, -, hnode, -, hshared⟩ := shares_whole .twoTargets [] 5 (.inMemory "inner") hn
  have hinside : (accounts .twoTargets [] (.document 5 (.inMemory "inner"))).map
      (fun a => a.inside.map fun b => (b.place, b.cuts)) =
        [[(.targetIn "inner", []), (.targetIn "inner", []),
          (.inMemory "inner", [.inMemory "inner"]), (.targetIn "inner", [])]] := by decide +kernel
  rw [ha] at hinside
  rcases hlist : a.inside with _ | ⟨b, _ | ⟨c, _ | ⟨d, _ | ⟨e, _ | ⟨_, _⟩⟩⟩⟩⟩
  all_goals
    simp only [hlist, List.map_cons, List.map_nil, List.cons.injEq, Prod.mk.injEq, reduceCtorEq,
      and_true, and_false] at hinside
  obtain ⟨-, ⟨hc, hccuts⟩, ⟨-, hdcuts⟩, he, hecuts⟩ := hinside
  have hmem : ∀ x ∈ [b, c, d, e], x ∈ a.all := fun x hx =>
    Account.mem_all_of_inside (hlist ▸ hx)
  have hce : c.node = e.node :=
    hshared c (hmem c (by simp)) e (hmem e (by simp)) (hc.trans he.symm) hccuts hecuts
  exact ⟨n, a, b, c, d, e, hn, ha, hnode, hlist, hdcuts, hc.trans he.symm, hce⟩

/-- **An expansion that was cut at a target around it is not shared**: both references of the other
document stand in no expansion but that of the document, name the same target, and are given
different nodes. -/
theorem expanded_twice : ∃ a b c,
    (outcome (Resolution.document 5 (.inMemory "outer"))
      ((ofRegistry .twoTargets).after [])).1 = .ok a.node ∧
    accounts .twoTargets [] (.document 5 (.inMemory "outer")) = [a] ∧ b ∈ a.inside ∧
    c ∈ a.inside ∧ b.place = c.place ∧ b.place ≠ a.place ∧ b.node ≠ c.node := by
  obtain ⟨n, s', h⟩ : ∃ n s', outcome (Resolution.document 5 (.inMemory "outer"))
      ((ofRegistry .twoTargets).after []) = (.ok n, s') := exists_of_isOk (by decide +kernel)
  obtain ⟨a, ha, hplace, rfl, -⟩ := exists_account .twoTargets [] 5 (.inMemory "outer") h
  have hinside : (accounts .twoTargets [] (.document 5 (.inMemory "outer"))).map
      (fun a => a.inside.map fun b => (b.place, b.node.identity)) =
        [[(.inMemory "outer", some 12), (.targetIn "outer", some 15),
          (.inMemory "outer", some 16), (.targetIn "outer", some 18)]] := by
    decide +kernel
  rw [ha] at hinside
  obtain ⟨hinside, -⟩ := List.cons.inj hinside
  have hfind (p : Address) (i : Nat) (hp : (p, some i) ∈ [(Address.inMemory "outer", some 12),
      (.targetIn "outer", some 15), (.inMemory "outer", some 16), (.targetIn "outer", some 18)]) :
      ∃ b ∈ a.inside, b.place = p ∧ b.node.identity = some i := by
    rw [← hinside] at hp
    obtain ⟨b, hb, hpair⟩ := List.mem_map.1 hp
    obtain ⟨hplace, hidentity⟩ := Prod.mk.inj hpair
    exact ⟨b, hb, hplace, hidentity⟩
  obtain ⟨b, hb, hbplace, hbidentity⟩ := hfind (.targetIn "outer") 15 (by decide)
  obtain ⟨c, hc, hcplace, hcidentity⟩ := hfind (.targetIn "outer") 18 (by decide)
  refine ⟨a, b, c, congrArg Prod.fst h, ha, hb, hc, hbplace.trans hcplace.symm, ?_, ?_⟩
  · rw [hbplace, hplace]
    decide +kernel
  · intro hbc
    rw [hbc, hcidentity] at hbidentity
    cases hbidentity

end Resolver

end SchemaCatalog
