import SchemaCatalog.Proofs.Resolution.Replacement
import SchemaCatalog.Proofs.Resolution.Simulation

/-!
# Accounts of resolutions

The outcome of a resolution is one tree, and nothing in it tells where a reference stood and which
target it named.  The `Account` of a target does: it is the tree of the targets that were called
for, each with the node that was given for it.  `accountTarget` is the expansion of targets read in
a monad that writes accounts down.  An expansion that is kept has its account in a ledger, and
every later reference that is given the kept node cites that account, so what lies inside a
shared node is accounted for wherever the node is met.

An account knows the targets whose stubs it holds while their expansions are around it
(`Account.cuts`).  The expansion is whole if there are none.
-/

namespace SchemaCatalog

namespace Resolution

/-! ## Accounts -/

/-- What was given for a target. -/
inductive Account where
  /-- The target was in progress, so a stub was given. -/
  | stub (place : Address) (node : Node)
  /-- The raw tree at the target was expanded, and inside it the targets that it refers to. -/
  | expansion (place : Address) (raw node : Node) (inside : List Account)

namespace Account

/-- The place that was called for. -/
def place : Account → Address
  | stub place _ => place
  | expansion place _ _ _ => place

/-- The node that was given. -/
def node : Account → Node
  | stub _ node => node
  | expansion _ _ node _ => node

/-- The accounts of the references in the raw tree. -/
def inside : Account → List Account
  | stub _ _ => []
  | expansion _ _ _ inside => inside

mutual

/-- The targets around an account of which there are stubs in it. -/
def cuts : Account → List Address
  | stub place _ => [place]
  | expansion place _ _ inside => (cutsInside inside).filter (· ≠ place)

/-- The targets around some accounts of which there are stubs in them. -/
def cutsInside : List Account → List Address
  | [] => []
  | a :: accounts => a.cuts ++ cutsInside accounts

end

mutual

/-- An account and all the accounts inside it. -/
def all : Account → List Account
  | stub place node => [stub place node]
  | expansion place raw node inside => expansion place raw node inside :: allInside inside

/-- Some accounts and all the accounts inside them. -/
def allInside : List Account → List Account
  | [] => []
  | a :: accounts => a.all ++ allInside accounts

end

/-- Whether an expansion is the raw tree with each reference replaced by the node of an account
inside. -/
def Replaces : Account → Prop
  | stub _ _ => True
  | expansion place raw node inside =>
    Replaced (fun t m => ∃ a ∈ inside, a.place = t.place ∧ a.node = m) place.withoutFragment raw
      node

lemma cutsInside_append (as bs : List Account) :
    cutsInside (as ++ bs) = cutsInside as ++ cutsInside bs := by
  induction as with
  | nil => rfl
  | cons a as ih => rw [List.cons_append, cutsInside, cutsInside, ih, List.append_assoc]

@[simp] lemma cutsInside_singleton (a : Account) : cutsInside [a] = a.cuts := by
  rw [cutsInside, cutsInside, List.append_nil]

lemma mem_allInside {b : Account} {accounts : List Account} :
    b ∈ allInside accounts ↔ ∃ a ∈ accounts, b ∈ a.all := by
  induction accounts with
  | nil => simp [allInside]
  | cons a accounts ih => simp [allInside, ih]

lemma self_mem_all (a : Account) : a ∈ a.all := by
  cases a with
  | stub place node => exact List.mem_singleton_self _
  | expansion place raw node inside => exact List.mem_cons_self

lemma mem_all_of_inside {a b : Account} (h : b ∈ a.inside) : b ∈ a.all := by
  cases a with
  | stub place node => cases h
  | expansion place raw node inside =>
    exact List.mem_cons_of_mem _ (mem_allInside.2 ⟨b, h, b.self_mem_all⟩)

mutual

/-- The accounts inside an account inside another one are inside that one. -/
lemma all_trans : ∀ {a b c : Account}, b ∈ a.all → c ∈ b.all → c ∈ a.all
  | .stub _ _, _, _, hb, hc => by
    rw [all, List.mem_singleton] at hb
    exact hb ▸ hc
  | .expansion _ _ _ inside, _, _, hb, hc => by
    rw [all, List.mem_cons] at hb
    rcases hb with rfl | hb
    · exact hc
    · exact List.mem_cons_of_mem _ (allInside_trans hb hc)

lemma allInside_trans : ∀ {accounts : List Account} {b c : Account},
    b ∈ allInside accounts → c ∈ b.all → c ∈ allInside accounts
  | [], _, _, hb, _ => by cases hb
  | _ :: _, _, _, hb, hc => by
    rw [allInside, List.mem_append] at hb ⊢
    exact hb.imp (fun hb => all_trans hb hc) fun hb => allInside_trans hb hc

end

mutual

/-- What is cut at a target holds a stub of it. -/
lemma exists_stub_of_mem_cuts {p : Address} :
    ∀ {a : Account}, p ∈ a.cuts → ∃ n, stub p n ∈ a.all
  | .stub place node, h => by
    rw [cuts, List.mem_singleton] at h
    exact ⟨node, h ▸ self_mem_all _⟩
  | .expansion place raw node inside, h => by
    rw [cuts, List.mem_filter] at h
    obtain ⟨n, hn⟩ := exists_stub_of_mem_cutsInside h.1
    exact ⟨n, List.mem_cons_of_mem _ hn⟩

lemma exists_stub_of_mem_cutsInside {p : Address} :
    ∀ {accounts : List Account}, p ∈ cutsInside accounts → ∃ n, stub p n ∈ allInside accounts
  | [], h => by cases h
  | a :: accounts, h => by
    rw [cutsInside, List.mem_append] at h
    rcases h with h | h
    · obtain ⟨n, hn⟩ := exists_stub_of_mem_cuts h
      exact ⟨n, List.mem_append_left _ hn⟩
    · obtain ⟨n, hn⟩ := exists_stub_of_mem_cutsInside h
      exact ⟨n, List.mem_append_right _ hn⟩

end

end Account

/-- The accounts of the expansions that are kept, by target. -/
abbrev Ledger : Type := OrderedMap Address Account

/-! ## Programs that give account -/

/-- What a program that gives account makes of a resolver and a ledger: its outcome, the ledger it
leaves, and the accounts of the targets that it has called for. -/
abbrev Report (α : Type) : Type := (Except ResolveError α × Resolver) × Ledger × List Account

/-- A program over a resolver that may fail and that gives account of the targets it calls for. -/
def Accounting (α : Type) : Type := Resolver → Ledger → Report α

namespace Accounting

variable {α β γ : Type}

/-- A program, and then one that depends on its result. -/
def andThen (x : Accounting α) (f : α → Accounting β) : Accounting β := fun s l =>
  match x s l with
  | ((.ok a, s'), l', accounts) => ((f a s' l').1, (f a s' l').2.1, accounts ++ (f a s' l').2.2)
  | ((.error e, s'), l', accounts) => ((.error e, s'), l', accounts)

/-- A program, and another one if it fails. -/
def orElse (x : Accounting α) (handle : ResolveError → Accounting α) : Accounting α := fun s l =>
  match x s l with
  | ((.ok a, s'), l', accounts) => ((.ok a, s'), l', accounts)
  | ((.error e, s'), l', accounts) =>
    ((handle e s' l').1, (handle e s' l').2.1, accounts ++ (handle e s' l').2.2)

instance : Monad Accounting where
  pure a := fun s l => ((.ok a, s), l, [])
  bind := andThen

lemma andThen_pure (x : Accounting α) : andThen x pure = x := by
  funext s l
  unfold andThen
  rcases x s l with ⟨⟨e | a, s'⟩, l', accounts⟩
  · rfl
  · exact congrArg _ (congrArg _ (List.append_nil accounts))

lemma andThen_assoc (x : Accounting α) (f : α → Accounting β) (g : β → Accounting γ) :
    andThen (andThen x f) g = andThen x fun a => andThen (f a) g := by
  funext s l
  unfold andThen
  rcases x s l with ⟨⟨e | a, s'⟩, l', accounts⟩
  · rfl
  dsimp only
  rcases f a s' l' with ⟨⟨e | b, s''⟩, l'', accounts'⟩
  · rfl
  · exact congrArg _ (congrArg _ (List.append_assoc accounts accounts' _))

instance : LawfulMonad Accounting := .mk' _ andThen_pure (fun _ _ => rfl) andThen_assoc

instance : MonadStateOf Resolver Accounting where
  get := fun s l => ((.ok s, s), l, [])
  set s' := fun _ l => ((.ok ⟨⟩, s'), l, [])
  modifyGet f := fun s l => ((.ok (f s).1, (f s).2), l, [])

instance : MonadExceptOf ResolveError Accounting where
  throw e := fun s l => ((.error e, s), l, [])
  tryCatch := orElse

/-- Give account of a target. -/
def note (a : Account) : Accounting Unit := fun s l => ((.ok (), s), l, [a])

/-- Give the account that the ledger has of a target. -/
def cite (place : Address) : Accounting Unit := fun s l =>
  ((.ok (), s), l, (OrderedMap.get? l place).toList)

/-- Enter the account of a target into the ledger. -/
def file (place : Address) (a : Account) : Accounting Unit := fun s l =>
  ((.ok (), s), OrderedMap.insert l place a, [])

/-- The result of a program together with the accounts that it gives. -/
def gather (x : Accounting α) : Accounting (α × List Account) := fun s l =>
  match x s l with
  | ((.ok a, s'), l', accounts) => ((.ok (a, accounts), s'), l', [])
  | ((.error e, s'), l', _) => ((.error e, s'), l', [])

lemma bind_apply (x : Accounting α) (f : α → Accounting β) (s : Resolver) (l : Ledger) :
    (x >>= f) s l =
      match x s l with
      | ((.ok a, s'), l', accounts) =>
        ((f a s' l').1, (f a s' l').2.1, accounts ++ (f a s' l').2.2)
      | ((.error e, s'), l', accounts) => ((.error e, s'), l', accounts) := rfl

lemma bind_ok {x : Accounting α} {f : α → Accounting β} {a : α} {s s' : Resolver} {l l' : Ledger}
    (h : x s l = ((.ok a, s'), l', [])) : (x >>= f) s l = f a s' l' := by
  rw [bind_apply, h]
  rfl

lemma bind_error {x : Accounting α} {f : α → Accounting β} {e : ResolveError} {s s' : Resolver}
    {l l' : Ledger} {accounts : List Account} (h : x s l = ((.error e, s'), l', accounts)) :
    (x >>= f) s l = ((.error e, s'), l', accounts) := by
  rw [bind_apply, h]

lemma observe_apply (x : Accounting α) (s : Resolver) (l : Ledger) :
    observe x s l = ((.ok (x s l).1.1, (x s l).1.2), (x s l).2) := by
  have hobserve : observe x s l = orElse (andThen x fun a => pure (Except.ok a))
      (fun e => pure (Except.error e)) s l := rfl
  rw [hobserve]
  unfold orElse andThen
  rcases x s l with ⟨⟨e | a, s'⟩, l', accounts⟩
  · change ((Except.ok (Except.error e), s'), l', accounts ++ []) = _
    rw [List.append_nil]
  · change ((Except.ok (Except.ok a), s'), l', accounts ++ []) = _
    rw [List.append_nil]

/-- Entering and leaving a place is no matter of ledgers and accounts. -/
lemma inside_apply (place : Address) (x : Accounting Node) (s : Resolver) (l : Ledger) :
    inside place x s l =
      match x (s.enter place) l with
      | ((.ok n, s'), l', accounts) =>
        ((.ok (n, (s'.openCut s.active.length).isNone), s'.leave s), l', accounts)
      | ((.error e, s'), l', accounts) => ((.error e, s'.leave s), l', accounts) := by
  let rest : Except ResolveError Node → Accounting (Node × Bool) := fun result => do
    let after ← get
    set (after.leave s)
    let n ← ofExcept result
    return (n, (after.openCut s.active.length).isNone)
  have hstart : inside place x s l = (observe x >>= rest) (s.enter place) l := rfl
  rw [hstart, bind_apply, observe_apply]
  rcases x (s.enter place) l with ⟨⟨e | n, s'⟩, l', accounts⟩
  · change ((Except.error e, s'.leave s), l', accounts ++ []) = _
    rw [List.append_nil]
  · change ((Except.ok (n, (s'.openCut s.active.length).isNone), s'.leave s), l',
      accounts ++ []) = _
    rw [List.append_nil]

/-- The accounts that are given inside a place are part of the result. -/
lemma gather_inside_apply (place : Address) (x : Accounting Node) (s : Resolver) (l : Ledger) :
    gather (inside place x) s l =
      match x (s.enter place) l with
      | ((.ok n, s'), l', accounts) =>
        ((.ok ((n, (s'.openCut s.active.length).isNone), accounts), s'.leave s), l', [])
      | ((.error e, s'), l', _) => ((.error e, s'.leave s), l', []) := by
  rw [gather, inside_apply]
  rcases x (s.enter place) l with ⟨⟨e | n, s'⟩, l', accounts⟩
  · rfl
  · rfl

end Accounting

open Accounting

/-- The expansion of the node at an address, with an account of it.  But for the accounts it is
`expandTarget`, as `accountTarget_reckons` says. -/
def accountTarget : Nat → Address → Accounting Node
  | 0, target => throw (.tooDeep target)
  | limit + 1, target => do
    let place := target.place
    match OrderedMap.get? (← get).expansions place with
    | some n =>
      cite place
      return n
    | none =>
      let fragment ← ofExcept place.fragmentText
      let (raw, document) ← rawAt place
      match (← get).active.idxOf? place with
      | some depth =>
        let n ← closeCycle limit depth raw document
        note (.stub place n)
        return n
      | none =>
        let ((n, complete), accounts) ←
          gather (inside place (expandNode (accountTarget limit) document raw))
        let account := Account.expansion place raw n accounts
        if complete then
          modify (·.keep place fragment n)
          file place account
        note account
        return n

/-- Programs that call for no target give no account. -/
def silent : Simulation Resolution Accounting where
  rel s x y := (∀ l, y s l = (outcome x s, l, [])) ∧ (outcome x s).2.active = s.active
  pure s a := ⟨fun l => rfl, rfl⟩
  throw s e := ⟨fun l => rfl, rfl⟩
  bind s x y f g hx hf := by
    obtain ⟨hrun, hactive⟩ := hx
    rw [outcome_bind]
    rcases hout : outcome x s with ⟨e | a, s'⟩
    all_goals rw [hout] at hrun hactive
    · exact ⟨fun l => bind_error (hrun l), hactive⟩
    · obtain ⟨hrun', hactive'⟩ := hf a s' hactive
      exact ⟨fun l => (bind_ok (hrun l)).trans (hrun' l), hactive'.trans hactive⟩
  onRegistry s f := ⟨fun l => rfl, rfl⟩
  get s f g hf := by
    rw [outcome_bind]
    exact ⟨fun l => (bind_ok rfl).trans (hf.1 l), hf.2⟩
  modify s f hf := ⟨fun l => rfl, hf⟩
  inside s place x y hplace hx := by
    obtain ⟨hrun, hactive⟩ := hx
    have hleave := Resolver.active_leave_of_enter hactive
    rw [outcome_inside]
    rcases hout : outcome x (s.enter place) with ⟨e | n, s'⟩
    all_goals
      rw [hout] at hrun hleave
      refine ⟨fun l => ?_, hleave⟩
      rw [inside_apply, hrun l]

/-- What is reported of a target, once the tree at it was expanded inside all those in progress
`before`: one account, which is filed if the expansion is kept. -/
def Report.settle (before : Resolver) (place : Address) (fragment : String) (raw : Node) :
    Report Node → Report Node
  | ((.ok n, s), l, accounts) =>
    ((.ok n, s.settle before place fragment n),
      if (s.openCut before.active.length).isNone then
        OrderedMap.insert l place (.expansion place raw n accounts)
      else l,
      [.expansion place raw n accounts])
  | ((.error e, s), l, _) => ((.error e, s.leave before), l, [])

lemma Report.fst_settle (before : Resolver) (place : Address) (fragment : String) (raw : Node)
    (o : Report Node) :
    (o.settle before place fragment raw).1 = settled before place fragment o.1 := by
  rcases o with ⟨⟨e | n, s⟩, l, accounts⟩
  · rfl
  · rfl

/-- The account of a target that is kept is the one the ledger has. -/
lemma cite_apply (place : Address) (n : Node) (s : Resolver) (l : Ledger) :
    (do
      cite place
      return n : Accounting Node) s l = ((.ok n, s), l, (OrderedMap.get? l place).toList) := by
  have hcite : (do
      cite place
      return n : Accounting Node) s l = ((.ok n, s), l, (OrderedMap.get? l place).toList ++ []) :=
    rfl
  rw [hcite, List.append_nil]

/-- The account of a target in progress is that of the stub. -/
lemma closeCycle_apply (limit depth : Nat) (raw : Node) (document place : Address) (s : Resolver)
    (l : Ledger) :
    (do
      let n ← closeCycle limit depth raw document
      note (.stub place n)
      return n : Accounting Node) s l =
    match outcome (closeCycle limit depth raw document) s with
    | (.ok n, s') => ((.ok n, s'), l, [.stub place n])
    | (.error e, s') => ((.error e, s'), l, []) := by
  have hclose := (silent.closeCycle (.inl rfl) limit depth raw document s).1 l
  rw [Nat.add_zero] at hclose
  rcases hout : outcome (closeCycle limit depth raw document) s with ⟨e | n, s'⟩
  all_goals rw [hout] at hclose
  · exact bind_error hclose
  · exact bind_ok hclose

/-- The account of any other target tells what was given inside it. -/
lemma opened_apply (expand : Address → Accounting Node) (place document : Address)
    (fragment : String) (raw : Node) (s : Resolver) (l : Ledger) :
    (do
      let ((n, complete), accounts) ← gather (inside place (expandNode expand document raw))
      let account := Account.expansion place raw n accounts
      if complete then
        modify (·.keep place fragment n)
        file place account
      note account
      return n : Accounting Node) s l =
    (expandNode expand document raw (s.enter place) l).settle s place fragment raw := by
  have hreport := gather_inside_apply place (expandNode expand document raw) s l
  rcases hrun : expandNode expand document raw (s.enter place) l with ⟨⟨e | n, s'⟩, l', accounts⟩
  all_goals
    rw [hrun] at hreport
    dsimp only at hreport
  · exact bind_error hreport
  · rw [bind_ok hreport]
    dsimp only [Report.settle]
    unfold Resolver.settle
    split
    · rfl
    · rfl

/-- The ways in which the expansion of a target can go, without an account of it and with one: it is
kept already; there is no such place; the target is being expanded, and a cycle is closed; or it is
expanded inside those that are. -/
theorem accountTarget_cases {limit : Nat} {t : Address} {s : Resolver} {l : Ledger}
    {P : Except ResolveError Node × Resolver → Report Node → Prop}
    (kept : ∀ n, OrderedMap.get? s.expansions t.place = some n →
      P (.ok n, s) ((.ok n, s), l, (OrderedMap.get? l t.place).toList))
    (missing : OrderedMap.get? s.expansions t.place = none → ∀ e r, s.registry.Alike r →
      s.registry.raw t.place = .error e →
      P (.error e, s.withRegistry r) ((.error e, s.withRegistry r), l, []))
    (cycle : OrderedMap.get? s.expansions t.place = none → ∀ n raw r, s.registry.Alike r →
      s.registry.raw t.place = .ok n → raw.forget = n.forget → ∀ depth,
      s.active.idxOf? t.place = some depth →
      Ensures (closeCycle limit depth raw t.place.withoutFragment) (s.withRegistry r)
        (fun m s' => P (.ok m, s') ((.ok m, s'), l, [.stub t.place m]))
        (fun e s' => P (.error e, s') ((.error e, s'), l, [])))
    (opened : OrderedMap.get? s.expansions t.place = none → ∀ n raw r, s.registry.Alike r →
      s.registry.raw t.place = .ok n → raw.forget = n.forget → t.place ∉ s.active →
      ∀ fragment, t.place.fragmentText = .ok fragment →
      P (settled (s.withRegistry r) t.place fragment
          (outcome (expandNode (expandTarget limit) t.place.withoutFragment raw)
            ((s.withRegistry r).enter t.place)))
        ((expandNode (accountTarget limit) t.place.withoutFragment raw
          ((s.withRegistry r).enter t.place) l).settle (s.withRegistry r) t.place fragment raw)) :
    P (outcome (expandTarget (limit + 1) t) s) (accountTarget (limit + 1) t s l) := by
  have hget (s : Resolver) : (get : Accounting Resolver) s l = ((.ok s, s), l, []) := rfl
  cases hkept : OrderedMap.get? s.expansions t.place with
  | some n =>
    rw [outcome_expandTarget_of_kept hkept, accountTarget]
    simp only [bind_ok (hget s), hkept]
    rw [cite_apply]
    exact kept n hkept
  | none =>
    cases hfragment : t.place.fragmentText with
    | error e =>
      rw [accountTarget, expandTarget]
      simp only [outcome_bind, outcome_get, bind_ok (hget s), hkept, hfragment]
      exact missing hkept e s.registry (.refl _) (Registry.raw_of_fragmentText_error hfragment)
    | ok fragment =>
      have hexcept : (ofExcept (.ok fragment) : Accounting String) s l =
        ((.ok fragment, s), l, []) := rfl
      have hraw := (silent.rawAt s t.place).1 l
      have hplace : Ensures (rawAt t.place) s
          (fun p s' => ∃ n r, s.registry.Alike r ∧ s.registry.raw t.place = .ok n ∧
            p.1.forget = n.forget ∧ p.2 = t.place.withoutFragment ∧ s' = s.withRegistry r)
          (fun e s' => ∃ r, s.registry.Alike r ∧ s.registry.raw t.place = .error e ∧
            s' = s.withRegistry r) :=
        ensures_rawAt (fun n _ r halike hn hforget => ⟨n, r, halike, hn, hforget, rfl, rfl⟩)
          fun _ r halike he => ⟨r, halike, he, rfl⟩
      rcases hout : outcome (rawAt t.place) s with ⟨e | ⟨raw, document⟩, s₁⟩
      all_goals rw [hout] at hraw
      · obtain ⟨r, halike, he, rfl⟩ := hplace.of_error hout
        rw [accountTarget, expandTarget]
        simp only [outcome_bind, outcome_get, outcome_ofExcept, bind_ok (hget s), hkept, hfragment,
          hout]
        rw [bind_ok hexcept, bind_error hraw]
        exact missing hkept e r halike he
      · obtain ⟨n, r, halike, hn, hforget, rfl, rfl⟩ := hplace.of_ok hout
        rw [accountTarget]
        simp only [bind_ok (hget s), hkept, hfragment]
        rw [bind_ok hexcept, bind_ok hraw, bind_ok (hget _)]
        cases hactive : s.active.idxOf? t.place with
        | some depth =>
          have hcycle := cycle hkept n raw r halike hn hforget depth hactive
          rw [outcome_expandTarget_of_cycle limit hkept hfragment hout hactive]
          simp only [Resolver.active_withRegistry, hactive]
          rw [closeCycle_apply]
          unfold Ensures at hcycle
          rcases hclose : outcome (closeCycle limit depth raw t.place.withoutFragment)
            (s.withRegistry r) with ⟨e | m, s'⟩
          all_goals
            rw [hclose] at hcycle
            exact hcycle
        | none =>
          have hnot : t.place ∉ s.active := List.idxOf?_eq_none_iff.1 hactive
          rw [outcome_expandTarget_of_open limit hkept hfragment hout hnot]
          simp only [Resolver.active_withRegistry, hactive]
          rw [opened_apply]
          exact opened hkept n raw r halike hn hforget hnot fragment hfragment

end Resolution

end SchemaCatalog
