import SchemaCatalog.Proofs.Resolution.Accounts
import SchemaCatalog.Proofs.Resolution.Discipline

/-!
# Disciplines of programs that give account

A program that gives account keeps a discipline like any other one, and beside it there are its
accounts of which something is to be said.  `Reports` says that such a program keeps a discipline,
that `P` holds of all accounts that it gives or enters into the ledger, if it held of those in the
ledger, and what its results satisfy.  That is a logic, so it is proved of the expansion of a tree
once it is proved of the expansions of the targets.
-/

namespace SchemaCatalog

namespace Resolution

open Accounting

/-- Whether `P` holds of an account and of all the accounts inside it. -/
def Account.All (P : Account → Prop) (a : Account) : Prop := ∀ b ∈ a.all, P b

/-- Whether `P` holds of all that is filed. -/
def Ledger.All (P : Account → Prop) (l : Ledger) : Prop :=
  ∀ place a, OrderedMap.get? l place = some a → a.All P

variable {D : Discipline} {P : Account → Prop} {α : Type} {s : Resolver} {l : Ledger}

lemma Account.All.stub {place : Address} {n : Node} (h : P (.stub place n)) :
    (Account.stub place n).All P := by
  intro b hb
  rw [Account.all, List.mem_singleton] at hb
  exact hb ▸ h

lemma Account.All.expansion {place : Address} {raw n : Node} {inside : List Account}
    (h : P (.expansion place raw n inside)) (hinside : ∀ a ∈ inside, a.All P) :
    (Account.expansion place raw n inside).All P := by
  intro b hb
  rw [Account.all, List.mem_cons, Account.mem_allInside] at hb
  rcases hb with rfl | ⟨a, ha, hb⟩
  · exact h
  · exact hinside a ha b hb

lemma Ledger.All.insert {place : Address} {a : Account} (h : Ledger.All P l) (ha : a.All P) :
    Ledger.All P (OrderedMap.insert l place a) := by
  intro q b hb
  by_cases hq : place = q
  · subst hq
    rw [OrderedMap.get?_insert_self] at hb
    exact Option.some.inj hb ▸ ha
  · rw [OrderedMap.get?_insert_of_ne _ _ hq] at hb
    exact h q b hb

/-- What is asked of a report of a run from a resolver that satisfies the invariant. -/
structure Reports (D : Discipline) (P : Account → Prop) (s : Resolver)
    (ok : α → Resolver → Prop) (fail : ResolveError → Prop) (o : Report α) : Prop where
  inv : D.inv o.1.2
  later : D.later s o.1.2
  ledger : Ledger.All P o.2.1
  accounts : ∀ a ∈ o.2.2, a.All P
  ok : ∀ a, o.1.1 = .ok a → ok a o.1.2
  fail : ∀ e, o.1.1 = .error e → fail e

namespace Reports

variable {ok ok' : α → Resolver → Prop} {fail : ResolveError → Prop} {s' : Resolver}
  {accounts : List Account}

lemma of_ok {a : α} (inv : D.inv s') (later : D.later s s') (ledger : Ledger.All P l)
    (accounts_all : ∀ a ∈ accounts, a.All P) (h : ok a s') :
    Reports D P s ok fail ((.ok a, s'), l, accounts) where
  inv := inv
  later := later
  ledger := ledger
  accounts := accounts_all
  ok _ ha := Except.ok.inj ha ▸ h
  fail _ he := by cases he

lemma of_error {e : ResolveError} (inv : D.inv s') (later : D.later s s')
    (ledger : Ledger.All P l) (accounts_all : ∀ a ∈ accounts, a.All P) (h : fail e) :
    Reports D P s ok fail ((.error e, s'), l, accounts) where
  inv := inv
  later := later
  ledger := ledger
  accounts := accounts_all
  ok _ ha := by cases ha
  fail _ he := Except.error.inj he ▸ h

lemma mono {o : Report α} (h : Reports D P s ok fail o)
    (hok : ∀ a, D.inv o.1.2 → D.later s o.1.2 → ok a o.1.2 → ok' a o.1.2) :
    Reports D P s ok' fail o :=
  { h with ok := fun a ha => hok a h.inv h.later (h.ok a ha) }

/-- A report may begin earlier. -/
lemma since {s₁ : Resolver} {o : Report α} (h : Reports D P s₁ ok fail o) (hlater : D.later s s₁) :
    Reports D P s ok fail o :=
  { h with later := D.trans hlater h.later }

/-- One report after another. -/
lemma append {β : Type} {ok' : β → Resolver → Prop} {a : α} {o : Report β}
    (h : Reports D P s ok fail (((.ok a, s'), l, accounts) : Report α))
    (h' : Reports D P s' ok' fail o) :
    Reports D P s ok' fail ((o.1, o.2.1, accounts ++ o.2.2) : Report β) where
  inv := h'.inv
  later := D.trans h.later h'.later
  ledger := h'.ledger
  accounts := List.forall_mem_append.2 ⟨h.accounts, h'.accounts⟩
  ok := h'.ok
  fail := h'.fail

end Reports

/-- The report of a target that was expanded inside all those in progress `before`. -/
lemma Reports.settle {D' : Discipline} {before s₁ : Resolver} {place : Address} {fragment : String}
    {raw : Node} {o : Report Node} {ok ok' : Node → Resolver → Prop}
    {fail fail' : ResolveError → Prop} (h : Reports D' P s₁ ok' fail' o)
    (expansion : ∀ n inside, P (.expansion place raw n inside))
    (hok : ∀ n s', D'.inv s' → D'.later s₁ s' → ok' n s' →
      D.inv (s'.settle before place fragment n) ∧ D.later s (s'.settle before place fragment n) ∧
        ok n (s'.settle before place fragment n))
    (hfail : ∀ e s', D'.inv s' → D'.later s₁ s' → fail' e →
      D.inv (s'.leave before) ∧ D.later s (s'.leave before) ∧ fail e) :
    Reports D P s ok fail (o.settle before place fragment raw) := by
  rcases o with ⟨⟨e | n, s'⟩, l', accounts⟩
  · obtain ⟨hinv, hlater, he⟩ := hfail e s' h.inv h.later (h.fail e rfl)
    exact .of_error hinv hlater h.ledger (List.forall_mem_nil _) he
  · obtain ⟨hinv, hlater, hn⟩ := hok n s' h.inv h.later (h.ok n rfl)
    have haccount : (Account.expansion place raw n accounts).All P :=
      .expansion (expansion n accounts) h.accounts
    refine .of_ok hinv hlater ?_ (List.forall_mem_singleton.2 haccount) hn
    split
    · exact h.ledger.insert haccount
    · exact h.ledger

/-- The logic of a discipline for programs that give account. -/
def Discipline.reporting (D : Discipline) (P : Account → Prop) : Logic Accounting where
  later := D.later
  ensures x s ok fail := D.inv s → ∀ l, Ledger.All P l → Reports D P s ok fail (x s l)
  mono h hok hs l hl := (h hs l hl).mono fun a _ hlater ha => hok a _ hlater ha
  pure h hs l hl := .of_ok hs (D.refl _) hl (List.forall_mem_nil _) h
  throw h hs l hl := .of_error hs (D.refl _) hl (List.forall_mem_nil _) h
  bind {_ _ x f s _ _ _} hx hf hs l hl := by
    have hx := hx hs l hl
    rw [bind_apply]
    rcases hrun : x s l with ⟨⟨e | a, s'⟩, l', accounts⟩
    all_goals rw [hrun] at hx
    · exact .of_error hx.inv hx.later hx.ledger hx.accounts (hx.fail e rfl)
    · exact hx.append (hf a s' hx.later (hx.ok a rfl) hx.inv l' hx.ledger)

/-- The rule for a change of the registry. -/
lemma reporting_onRegistry {f : Registry → α × Registry} {ok : α → Resolver → Prop}
    {fail : ResolveError → Prop}
    (h : D.inv s → D.inv (s.withRegistry (f s.registry).2) ∧
      D.later s (s.withRegistry (f s.registry).2) ∧
      ok (f s.registry).1 (s.withRegistry (f s.registry).2)) :
    (D.reporting P).ensures (onRegistry f : Accounting α) s ok fail := by
  intro hs l hl
  obtain ⟨hinv, hlater, hok⟩ := h hs
  exact .of_ok hinv hlater hl (List.forall_mem_nil _) hok

end Resolution

end SchemaCatalog
