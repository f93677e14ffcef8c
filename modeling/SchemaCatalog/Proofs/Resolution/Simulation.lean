import SchemaCatalog.Proofs.Resolution.Outcome

/-!
# Two readings of one resolution

The operations of resolution can be read in any monad with a resolver as state and errors as
exceptions, and under any limit.  To compare two readings it is enough to say what the readings
of the basic steps have to do with one another; that is a relation between programs from a
resolver on.  Trees ask for little: a `Coupling` relates the expansions of a tree if it relates
those of its targets, in whatever way these are expanded (`Coupling.expandNode`).  A `Simulation`
has the steps into a target besides.  Whatever relation it is, the two readings of the expansion
of a target are related (`Simulation.expandTarget`), as long as a run that is given up under the
one limit is related to every run under the other.

A step may be assumed to leave the targets in progress as they are.  The one step that does not,
`inside`, is a step of its own here, taken only into a target that is not in progress.
-/

namespace SchemaCatalog

namespace Resolution

/-- A relation between the programs of two monads, from a resolver on, that the steps of the
expansion of a tree respect. -/
structure Coupling (m m' : Type → Type)
    [Monad m] [MonadStateOf Resolver m] [MonadExceptOf ResolveError m]
    [Monad m'] [MonadStateOf Resolver m'] [MonadExceptOf ResolveError m'] where
  /-- The programs are related from a resolver on. -/
  rel : {α : Type} → Resolver → m α → m' α → Prop
  pure : ∀ {α : Type} (s : Resolver) (a : α), rel s (pure a) (pure a)
  throw : ∀ {α : Type} (s : Resolver) (e : ResolveError), rel (α := α) s (throw e) (throw e)
  bind : ∀ {α β : Type} (s : Resolver) {x : m α} {y : m' α} {f : α → m β} {g : α → m' β},
    rel s x y → (∀ a s', s'.active = s.active → rel s' (f a) (g a)) →
    rel s (x >>= f) (y >>= g)
  onRegistry : ∀ {α : Type} (s : Resolver) (f : Registry → α × Registry),
    rel s (onRegistry f) (onRegistry f)

/-- A relation between the programs of two monads that all steps of resolution respect. -/
structure Simulation (m m' : Type → Type)
    [Monad m] [MonadStateOf Resolver m] [MonadExceptOf ResolveError m]
    [Monad m'] [MonadStateOf Resolver m'] [MonadExceptOf ResolveError m']
    extends Coupling m m' where
  get : ∀ {α : Type} (s : Resolver) {f : Resolver → m α} {g : Resolver → m' α},
    rel s (f s) (g s) → rel s (MonadState.get >>= f) (MonadState.get >>= g)
  modify : ∀ (s : Resolver) (f : Resolver → Resolver), (f s).active = s.active →
    rel s (modify f : m PUnit) (modify f : m' PUnit)
  inside : ∀ (s : Resolver) (place : Address) {x : m Node} {y : m' Node}, place ∉ s.active →
    rel (s.enter place) x y → rel s (inside place x) (inside place y)

variable {m m' : Type → Type} [Monad m] [MonadStateOf Resolver m] [MonadExceptOf ResolveError m]
  [Monad m'] [MonadStateOf Resolver m'] [MonadExceptOf ResolveError m']

namespace Coupling

variable (S : Coupling m m')

/-! ## Derived steps -/

lemma ofExcept {α : Type} (s : Resolver) (a : Except ResolveError α) :
    S.rel s (Resolution.ofExcept a) (Resolution.ofExcept a) := by
  cases a with
  | ok a => exact S.pure s a
  | error e => exact S.throw s e

lemma lift {α : Type} (s : Resolver) (x : Registry.Lookup α) :
    S.rel s (Resolution.lift x) (Resolution.lift x) :=
  S.bind s (S.onRegistry s _) fun a s' _ => S.ofExcept s' a

lemma rawAt (s : Resolver) (place : Address) :
    S.rel s (Resolution.rawAt place) (Resolution.rawAt place) := by
  unfold Resolution.rawAt
  refine S.bind s (S.ofExcept s _) fun fragment s₁ _ => ?_
  exact S.bind s₁ (S.lift s₁ _) fun raw s₂ _ => S.pure s₂ _

/-- Following aliases asks for little too: it looks up and goes on. -/
lemma followAliases {extra : Nat}
    (deep : extra = 0 ∨
      ∀ {α : Type} s place (y : m' α), S.rel s (MonadExcept.throw (.tooDeep place)) y)
    (limit : Nat) (seen : List Address) (raw : Node) (document : Address) (s : Resolver) :
    S.rel s (Resolution.followAliases limit seen raw document)
      (Resolution.followAliases (limit + extra) seen raw document) := by
  induction limit generalizing seen raw document s with
  | zero =>
    rcases deep with rfl | deep
    · exact S.throw s _
    · exact deep s document _
  | succ limit ih =>
    rw [Nat.add_right_comm limit 1 extra]
    rw [Resolution.followAliases, Resolution.followAliases]
    split
    · refine S.bind s (S.ofExcept s _) fun t s₁ _ => ?_
      by_cases hseen : t.place ∈ seen
      · rw [if_pos hseen, if_pos hseen]
        exact S.pure s₁ _
      · rw [if_neg hseen, if_neg hseen]
        exact S.bind s₁ (S.rawAt s₁ _) fun p s₂ _ => ih _ _ _ s₂
    · exact S.pure s _

/-! ## Trees -/

section Trees

variable {expand : Address → m Node} {expand' : Address → m' Node} {current : Address}

lemma expandSchemas {schemas : List Node}
    (h : ∀ c ∈ schemas, ∀ s,
      S.rel s (expandNode expand current c) (expandNode expand' current c)) (s : Resolver) :
    S.rel s (Resolution.expandSchemas expand current schemas)
      (Resolution.expandSchemas expand' current schemas) := by
  induction schemas generalizing s with
  | nil => exact S.pure s []
  | cons c schemas ih =>
    obtain ⟨hc, hschemas⟩ := List.forall_mem_cons.1 h
    rw [Resolution.expandSchemas, Resolution.expandSchemas]
    refine S.bind s (hc s) fun r s₁ _ => ?_
    exact S.bind s₁ (ih hschemas s₁) fun rs s₂ _ => S.pure s₂ _

lemma assemble (h : ∀ t s, S.rel s (expand t) (expand' t)) (n : Node) (ks : List Keyword)
    (s : Resolver) :
    S.rel s (Resolution.assemble expand current n ks)
      (Resolution.assemble expand' current n ks) := by
  unfold Resolution.assemble
  split
  · exact S.onRegistry s _
  · refine S.bind s (S.ofExcept s _) fun t s₁ _ => ?_
    refine S.bind s₁ (h t s₁) fun found s₂ _ => ?_
    split
    · exact S.pure s₂ found
    · exact S.onRegistry s₂ _
  · exact S.throw s _

variable [LawfulMonad m] [LawfulMonad m']

lemma expandKeyword {k : Keyword}
    (h : ∀ c ∈ k.nested, ∀ s,
      S.rel s (expandNode expand current c) (expandNode expand' current c)) (s : Resolver) :
    S.rel s (Resolution.expandKeyword expand current k)
      (Resolution.expandKeyword expand' current k) := by
  rw [expandKeyword_eq, expandKeyword_eq]
  exact S.bind s (S.expandSchemas h s) fun _ s₁ _ => S.pure s₁ _

lemma expandKeywords {early : Bool} {ks : List Keyword}
    (h : ∀ k ∈ ks, ∀ c ∈ k.nested, ∀ s,
      S.rel s (expandNode expand current c) (expandNode expand' current c)) (s : Resolver) :
    S.rel s (Resolution.expandKeywords expand current early ks)
      (Resolution.expandKeywords expand' current early ks) := by
  induction ks generalizing s with
  | nil => exact S.pure s []
  | cons k ks ih =>
    obtain ⟨hk, hks⟩ := List.forall_mem_cons.1 h
    rw [Resolution.expandKeywords, Resolution.expandKeywords]
    by_cases hearly : (isEarly k == early) = true
    · rw [if_pos hearly, if_pos hearly]
      refine S.bind s (S.expandKeyword hk s) fun k' s₁ _ => ?_
      exact S.bind s₁ (ih hks s₁) fun ks' s₂ _ => S.pure s₂ _
    · rw [if_neg hearly, if_neg hearly]
      exact S.bind s (ih hks s) fun ks' s₁ _ => S.pure s₁ _

/-- The readings of the expansion of a tree are related if those of the expansion of targets
are. -/
theorem expandNode (h : ∀ t s, S.rel s (expand t) (expand' t)) (n : Node) (s : Resolver) :
    S.rel s (Resolution.expandNode expand current n)
      (Resolution.expandNode expand' current n) := by
  induction n using Node.induction_nested generalizing s with
  | step n ih =>
    obtain ⟨identity, truth, base, keywords⟩ := n
    rw [Resolution.expandNode, Resolution.expandNode]
    refine S.bind s (S.onRegistry s _) fun _ s₁ _ => ?_
    split
    · exact S.pure s₁ _
    · refine S.bind s₁ (S.expandKeywords ih s₁) fun early s₂ _ => ?_
      refine S.bind s₂ (S.expandKeywords ih s₂) fun late s₃ _ => ?_
      exact S.assemble h _ _ s₃

end Trees

end Coupling

/-! ## Targets -/

namespace Simulation

variable (S : Simulation m m') {extra : Nat}
  (deep : extra = 0 ∨
    ∀ {α : Type} s place (y : m' α), S.rel s (MonadExcept.throw (.tooDeep place)) y)
include deep

lemma closeCycle (limit depth : Nat) (raw : Node) (document : Address) (s : Resolver) :
    S.rel s (Resolution.closeCycle limit depth raw document)
      (Resolution.closeCycle (limit + extra) depth raw document) := by
  unfold Resolution.closeCycle
  refine S.bind s (S.modify s _ rfl) fun _ s₁ _ => ?_
  exact S.bind s₁ (S.toCoupling.followAliases deep limit [] raw document s₁) fun p s₂ _ => S.onRegistry s₂ _

variable [LawfulMonad m] [LawfulMonad m']

/-- **The readings of the expansion of a target are related.** -/
theorem expandTarget (limit : Nat) (target : Address) (s : Resolver) :
    S.rel s (Resolution.expandTarget limit target)
      (Resolution.expandTarget (limit + extra) target) := by
  induction limit generalizing target s with
  | zero =>
    rcases deep with rfl | deep
    · exact S.throw s _
    · exact deep s target _
  | succ limit ih =>
    rw [Nat.add_right_comm limit 1 extra]
    rw [Resolution.expandTarget, Resolution.expandTarget]
    refine S.get s ?_
    split
    · exact S.pure s _
    · refine S.bind s (S.ofExcept s _) fun fragment s₁ _ => ?_
      refine S.bind s₁ (S.rawAt s₁ _) fun p s₂ _ => ?_
      refine S.get s₂ ?_
      split
      · exact S.closeCycle deep limit _ p.1 p.2 s₂
      · rename_i hactive
        have hnot : target.place ∉ s₂.active := List.idxOf?_eq_none_iff.1 hactive
        refine S.bind s₂ (S.inside s₂ _ hnot (S.expandNode ih p.1 _)) fun q s₃ _ => ?_
        obtain ⟨n, complete⟩ := q
        by_cases hcomplete : complete = true
        · dsimp only
          rw [if_pos hcomplete, if_pos hcomplete]
          exact S.bind s₃ (S.modify s₃ (·.keep target.place fragment n) rfl)
            fun _ s₄ _ => S.pure s₄ n
        · dsimp only
          rw [if_neg hcomplete, if_neg hcomplete]
          exact S.pure s₃ n

lemma document (limit : Nat) (address : Address) (s : Resolver) :
    S.rel s (Resolution.document limit address) (Resolution.document (limit + extra) address) :=
  S.expandTarget deep limit address.withoutFragment s

lemma node (limit : Nat) (n : Node) (current : Address) (s : Resolver) :
    S.rel s (Resolution.node limit n current) (Resolution.node (limit + extra) n current) :=
  S.bind s (S.onRegistry s _) fun n s₁ _ => S.expandNode (S.expandTarget deep limit) n s₁

end Simulation

end Resolution

end SchemaCatalog
