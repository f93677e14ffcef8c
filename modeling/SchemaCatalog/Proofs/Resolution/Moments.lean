import SchemaCatalog.Proofs.Resolution.Simulation

/-!
# The moments of a run

An outcome shows the resolver after a run and nothing of what it went through.  `Recorded` is the
monad that writes down every resolver on the way, and reading resolution in it gives the moments
of a run.  That the record is one of the same run is `recording`, a simulation: the outcomes are
equal, and beside it the targets in progress are the same before and after and never hold a
target twice.
-/

namespace SchemaCatalog

namespace Resolution

/-- A program over a resolver that may fail and that writes down every resolver it leads to. -/
def Recorded (α : Type) : Type :=
  Resolver → (Except ResolveError α × Resolver) × List Resolver

namespace Recorded

variable {α β γ : Type}

/-- A program, and then one that depends on its result. -/
def andThen (x : Recorded α) (f : α → Recorded β) : Recorded β := fun s =>
  match x s with
  | ((.ok a, s'), moments) => ((f a s').1, moments ++ (f a s').2)
  | ((.error e, s'), moments) => ((.error e, s'), moments)

/-- A program, and another one if it fails. -/
def orElse (x : Recorded α) (handle : ResolveError → Recorded α) : Recorded α := fun s =>
  match x s with
  | ((.ok a, s'), moments) => ((.ok a, s'), moments)
  | ((.error e, s'), moments) => ((handle e s').1, moments ++ (handle e s').2)

instance : Monad Recorded where
  pure a := fun s => ((.ok a, s), [])
  bind := andThen

lemma andThen_pure (x : Recorded α) : andThen x pure = x := by
  funext s
  unfold andThen
  rcases x s with ⟨⟨e | a, s'⟩, l⟩
  · rfl
  · exact congrArg _ (List.append_nil l)

lemma andThen_assoc (x : Recorded α) (f : α → Recorded β) (g : β → Recorded γ) :
    andThen (andThen x f) g = andThen x fun a => andThen (f a) g := by
  funext s
  unfold andThen
  rcases x s with ⟨⟨e | a, s'⟩, l⟩
  · rfl
  dsimp only
  rcases f a s' with ⟨⟨e | b, s''⟩, l'⟩
  · rfl
  · exact congrArg _ (List.append_assoc l l' _)

instance : LawfulMonad Recorded := .mk' _ andThen_pure (fun _ _ => rfl) andThen_assoc

instance : MonadStateOf Resolver Recorded where
  get := fun s => ((.ok s, s), [])
  set s' := fun _ => ((.ok ⟨⟩, s'), [s'])
  modifyGet f := fun s => ((.ok (f s).1, (f s).2), [(f s).2])

instance : MonadExceptOf ResolveError Recorded where
  throw e := fun s => ((.error e, s), [])
  tryCatch := orElse

/-- The resolvers that a run leads through, the one it starts from first. -/
def moments (x : Recorded α) (s : Resolver) : List Resolver := s :: (x s).2

variable {s : Resolver}

lemma bind_ok {x : Recorded α} {f : α → Recorded β} {a : α} {s' : Resolver} {l : List Resolver}
    (h : x s = ((.ok a, s'), l)) : (x >>= f) s = ((f a s').1, l ++ (f a s').2) := by
  change andThen x f s = _
  unfold andThen
  rw [h]

lemma bind_error {x : Recorded α} {f : α → Recorded β} {e : ResolveError} {s' : Resolver}
    {l : List Resolver} (h : x s = ((.error e, s'), l)) : (x >>= f) s = ((.error e, s'), l) := by
  change andThen x f s = _
  unfold andThen
  rw [h]

lemma observe_apply (x : Recorded α) (s : Resolver) :
    observe x s = ((.ok (x s).1.1, (x s).1.2), (x s).2) := by
  have hobserve : observe x s = orElse (andThen x fun a => pure (Except.ok a))
      (fun e => pure (Except.error e)) s := rfl
  rw [hobserve]
  unfold orElse andThen
  rcases x s with ⟨⟨e | a, s'⟩, l⟩
  · change ((Except.ok (Except.error e), s'), l ++ []) = _
    rw [List.append_nil]
  · change ((Except.ok (Except.ok a), s'), l ++ []) = _
    rw [List.append_nil]

/-- What `inside` adds to a record is the resolver that has entered the place and, at the end,
the one that has left it. -/
lemma inside_apply (place : Address) (x : Recorded Node) (s : Resolver) :
    inside place x s =
      match x (s.enter place) with
      | ((.ok n, s'), l) =>
        ((.ok (n, (s'.openCut s.active.length).isNone), s'.leave s),
          s.enter place :: (l ++ [s'.leave s]))
      | ((.error e, s'), l) => ((.error e, s'.leave s), s.enter place :: (l ++ [s'.leave s])) := by
  let rest : Except ResolveError Node → Recorded (Node × Bool) := fun result => do
    let after ← get
    set (after.leave s)
    let n ← ofExcept result
    return (n, (after.openCut s.active.length).isNone)
  have hstart : inside place x s =
      (((observe x >>= rest) (s.enter place)).1,
        s.enter place :: ((observe x >>= rest) (s.enter place)).2) := rfl
  rw [hstart, bind_ok (observe_apply x (s.enter place))]
  rcases x (s.enter place) with ⟨⟨e | n, s'⟩, l⟩
  · rfl
  · rfl

end Recorded

open Recorded

/-- **The record of a run is one of the same run, and at no moment is a target in progress
twice.** -/
def recording : Simulation Resolution Recorded where
  rel s x y := s.active.Nodup →
    (y s).1 = outcome x s ∧ (outcome x s).2.active = s.active ∧ ∀ t ∈ (y s).2, t.active.Nodup
  pure s a h := ⟨rfl, rfl, fun t ht => absurd ht List.not_mem_nil⟩
  throw s e h := ⟨rfl, rfl, fun t ht => absurd ht List.not_mem_nil⟩
  bind s x y f g hx hf h := by
    obtain ⟨hrun, hactive, hmoments⟩ := hx h
    rcases hy : y s with ⟨o, l⟩
    rw [hy] at hrun hmoments
    rw [outcome_bind]
    rcases hout : outcome x s with ⟨e | a, s'⟩
    all_goals
      rw [hout] at hrun hactive
      obtain rfl : o = _ := hrun
    · rw [bind_error hy]
      exact ⟨rfl, hactive, hmoments⟩
    · obtain ⟨hrun', hactive', hmoments'⟩ := hf a s' hactive (hactive ▸ h)
      rw [bind_ok hy]
      refine ⟨hrun', hactive'.trans hactive, ?_⟩
      intro t ht
      rcases List.mem_append.1 ht with ht | ht
      · exact hmoments t ht
      · exact hmoments' t ht
  get s f g hf h := by
    have hg : (MonadState.get >>= g) s = ((g s s).1, [] ++ (g s s).2) :=
      bind_ok (f := g) (rfl : (MonadState.get : Recorded Resolver) s = ((.ok s, s), []))
    rw [hg, outcome_bind]
    exact hf h
  modify s f hf h := ⟨rfl, hf, List.forall_mem_singleton.2 (hf.symm ▸ h)⟩
  onRegistry s f h := ⟨rfl, rfl, List.forall_mem_singleton.2 h⟩
  inside s place x y hplace hx h := by
    have henter := Resolver.nodup_enter h hplace
    obtain ⟨hrun, hactive, hmoments⟩ := hx henter
    have hleave := Resolver.active_leave_of_enter hactive
    rw [inside_apply, outcome_inside]
    rcases hy : y (s.enter place) with ⟨o, l⟩
    rw [hy] at hrun hmoments
    obtain rfl : o = _ := hrun
    have hall : ∀ t ∈ s.enter place :: (l ++ [(outcome x (s.enter place)).2.leave s]),
        t.active.Nodup := by
      intro t ht
      rcases List.mem_cons.1 ht with rfl | ht
      · exact henter
      rcases List.mem_append.1 ht with ht | ht
      · exact hmoments t ht
      · rw [List.mem_singleton.1 ht, hleave]
        exact h
    rcases hout : outcome x (s.enter place) with ⟨e | n, s'⟩
    all_goals
      rw [hout] at hleave hall
      exact ⟨rfl, hleave, hall⟩

end Resolution

end SchemaCatalog
