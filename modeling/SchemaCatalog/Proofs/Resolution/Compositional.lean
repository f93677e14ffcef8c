import SchemaCatalog.Proofs.Resolution.Outcome

/-!
# Properties that composition keeps

A resolution is put together from few operations: look-ups, identities, anchors, cuts, expansions
that are kept, and targets that are entered and left.  A property of programs is `Compositional` if
all of these have it and programs put together from such as have it have it too.  Then the
resolution of every tree, target and document has the property, and no proof about it has to follow
the recursion again.

The properties meant are those that say how a run changes the state, whatever its result is.  One
of them is `Maintains`: the program leads from a state that is `fine` to a state that is `fine` too
if it has a result, and to one that is at least `spent` if it fails.
-/

namespace SchemaCatalog

/-! ## What programs maintain -/

section Maintains

variable {σ ε α β : Type} {fine spent : σ → Prop}

/-- Whether a program leads from every fine state to a fine one if it has a result, and to one that
is spent if it fails. -/
def Maintains (fine spent : σ → Prop) (x : ExceptT ε (StateM σ) α) : Prop :=
  ∀ s, fine s →
    match x.run.run s with
    | (.ok _, s') => fine s'
    | (.error _, s') => spent s'

lemma maintains_pure (a : α) : Maintains fine spent (pure a : ExceptT ε (StateM σ) α) :=
  fun _ hs => hs

lemma maintains_get : Maintains fine spent (get : ExceptT ε (StateM σ) σ) := fun _ hs => hs

lemma maintains_modifyGet {f : σ → α × σ} (hf : ∀ s, fine s → fine (f s).2) :
    Maintains fine spent (modifyGet f : ExceptT ε (StateM σ) α) := fun s hs => hf s hs

lemma maintains_throw (stop : ∀ s, fine s → spent s) (e : ε) :
    Maintains fine spent (throw e : ExceptT ε (StateM σ) α) := fun s hs => stop s hs

lemma maintains_bind {x : ExceptT ε (StateM σ) α} {f : α → ExceptT ε (StateM σ) β}
    (hx : Maintains fine spent x) (hf : ∀ a, Maintains fine spent (f a)) :
    Maintains fine spent (x >>= f) := by
  intro s hs
  have hx := hx s hs
  rw [ExceptT.run_bind, StateT.run_bind]
  rcases hrun : x.run.run s with ⟨e | a, s'⟩
  all_goals rw [hrun] at hx
  · exact hx
  · exact hf a s' hx

/-- A list of programs maintains what each of them does. -/
lemma maintains_mapM {f : α → ExceptT ε (StateM σ) β} (hf : ∀ a, Maintains fine spent (f a))
    (l : List α) : Maintains fine spent (l.mapM f) := by
  induction l with
  | nil => exact maintains_pure []
  | cons a l ih =>
    rw [List.mapM_cons]
    exact maintains_bind (hf a) fun b => maintains_bind ih fun bs => maintains_pure (b :: bs)

/-- However a run ends, the state is spent. -/
lemma Maintains.final {x : ExceptT ε (StateM σ) α} (h : Maintains fine spent x)
    (stop : ∀ s, fine s → spent s) (s : σ) (hs : fine s) : spent (x.run.run s).2 := by
  have h := h s hs
  rcases hrun : x.run.run s with ⟨e | a, s'⟩
  all_goals rw [hrun] at h
  · exact h
  · exact stop s' h

end Maintains

namespace Resolution

/-- Whether a property of programs holds of the operations and is kept when programs are put
together. -/
structure Compositional (P : ∀ α : Type, Resolution α → Prop) : Prop where
  pure : ∀ {α : Type} (a : α), P α (Pure.pure a)
  throw : ∀ {α : Type} (e : ResolveError), P α (MonadExcept.throw e)
  bind : ∀ {α β : Type} {x : Resolution α} {f : α → Resolution β},
    P α x → (∀ a, P β (f a)) → P β (x >>= f)
  get : P Resolver MonadState.get
  lookup : ∀ address fragment, P Node (lift (Registry.lookup address fragment))
  adopt : ∀ n, P Node (onRegistry (·.adopt n))
  fresh : ∀ n, P Node (Resolution.fresh n)
  setAnchors : ∀ current n, P Unit (Resolution.setAnchors current n)
  cutAt : ∀ depth, P PUnit (modify (·.cutAt depth))
  keep : ∀ place fragment n, P PUnit (modify (·.keep place fragment n))
  inside : ∀ place {x : Resolution Node}, P Node x → P (Node × Bool) (Resolution.inside place x)

namespace Compositional

variable {P : ∀ α : Type, Resolution α → Prop} (h : Compositional P)
include h

lemma ofExcept {α : Type} (a : Except ResolveError α) : P α (Resolution.ofExcept a) := by
  cases a with
  | ok a => exact h.pure a
  | error e => exact h.throw e

/-- A pure result that comes last. -/
lemma map {α β : Type} {x : Resolution α} (hx : P α x) (f : α → β) :
    P β (x >>= fun a => Pure.pure (f a)) := h.bind hx fun a => h.pure (f a)

lemma rawAt (place : Address) : P (Node × Address) (Resolution.rawAt place) :=
  h.bind (h.ofExcept _) fun _ => h.map (h.lookup _ _) _

lemma followAliases (limit : Nat) (seen : List Address) (raw : Node) (document : Address) :
    P (Node × Address) (Resolution.followAliases limit seen raw document) := by
  induction limit generalizing seen raw document with
  | zero => exact h.throw _
  | succ limit ih =>
    rw [Resolution.followAliases]
    split
    case h_2 => exact h.pure _
    case h_1 reference _ =>
      refine h.bind (h.ofExcept _) fun t => ?_
      by_cases hseen : t.place ∈ seen
      · rw [if_pos hseen]
        exact h.pure _
      · rw [if_neg hseen]
        exact h.bind (h.rawAt t.place) fun p => ih _ _ _

lemma closeCycle (limit depth : Nat) (raw : Node) (document : Address) :
    P Node (Resolution.closeCycle limit depth raw document) :=
  h.bind (h.cutAt depth) fun _ => h.bind (h.followAliases limit [] raw document) fun _ => h.fresh _

/-! ### Trees -/

variable {expand : Address → Resolution Node} {current : Address}

lemma expandSchemas {schemas : List Node}
    (hschemas : ∀ c ∈ schemas, P Node (expandNode expand current c)) :
    P _ (Resolution.expandSchemas expand current schemas) := by
  induction schemas with
  | nil => exact h.pure []
  | cons c schemas ih =>
    obtain ⟨hc, hschemas⟩ := List.forall_mem_cons.1 hschemas
    exact h.bind hc fun c' => h.map (ih hschemas) _

lemma expandKeyword {k : Keyword} (hk : ∀ c ∈ k.nested, P Node (expandNode expand current c)) :
    P Keyword (Resolution.expandKeyword expand current k) := by
  rw [expandKeyword_eq]
  exact h.map (h.expandSchemas hk) _

lemma expandKeywords {early : Bool} {ks : List Keyword}
    (hks : ∀ k ∈ ks, ∀ c ∈ k.nested, P Node (expandNode expand current c)) :
    P _ (Resolution.expandKeywords expand current early ks) := by
  induction ks with
  | nil => exact h.pure []
  | cons k ks ih =>
    obtain ⟨hk, hks⟩ := List.forall_mem_cons.1 hks
    rw [Resolution.expandKeywords]
    split
    · exact h.bind (h.expandKeyword hk) fun k' => h.map (ih hks) _
    · exact h.map (ih hks) _

lemma assemble (hexpand : ∀ t, P Node (expand t)) (n : Node) (ks : List Keyword) :
    P Node (Resolution.assemble expand current n ks) := by
  unfold Resolution.assemble
  split
  case h_1 => exact h.fresh _
  case h_2 reference _ =>
    refine h.bind (h.ofExcept _) fun t => h.bind (hexpand t) fun m => ?_
    split
    · exact h.pure m
    · exact h.fresh _
  case h_3 => exact h.throw _

/-- The expansion of a tree has the property if that of targets does. -/
theorem expandNode (hexpand : ∀ t, P Node (expand t)) (n : Node) :
    P Node (Resolution.expandNode expand current n) := by
  induction n using Node.induction_nested with
  | step n ih =>
    obtain ⟨identity, truth, base, keywords⟩ := n
    rw [Resolution.expandNode]
    refine h.bind (h.setAnchors _ _) fun _ => ?_
    split
    · exact h.pure _
    · exact h.bind (h.expandKeywords ih) fun early => h.bind (h.expandKeywords ih) fun late =>
        h.assemble hexpand _ _

/-! ### Targets -/

/-- The expansion of every target has the property. -/
theorem expandTarget (limit : Nat) (target : Address) :
    P Node (Resolution.expandTarget limit target) := by
  induction limit generalizing target with
  | zero => exact h.throw _
  | succ limit ih =>
    rw [Resolution.expandTarget]
    refine h.bind h.get fun s => ?_
    split
    case h_1 => exact h.pure _
    case h_2 =>
    refine h.bind (h.ofExcept _) fun fragment => h.bind (h.rawAt _) ?_
    rintro ⟨raw, document⟩
    refine h.bind h.get fun s => ?_
    split
    case h_1 depth _ => exact h.closeCycle limit depth raw document
    case h_2 =>
      refine h.bind (h.inside _ (h.expandNode ih raw)) ?_
      rintro ⟨n, complete⟩
      dsimp only
      split
      · exact h.bind (h.keep _ _ _) fun _ => h.pure n
      · exact h.pure n

theorem document (limit : Nat) (address : Address) :
    P Node (Resolution.document limit address) := h.expandTarget limit _

theorem node (limit : Nat) (n : Node) (current : Address) :
    P Node (Resolution.node limit n current) :=
  h.bind (h.adopt n) fun n' => h.expandNode (h.expandTarget limit) n'

end Compositional

end Resolution

/-! ## Registries -/

/-- What a resolution maintains is what it ensures. -/
lemma maintains_iff_ensures {α : Type} {fine spent : Resolver → Prop} {x : Resolution α} :
    Maintains fine spent x ↔ ∀ s, fine s →
      Resolution.Ensures x s (fun _ s' => fine s') fun _ s' => spent s' := by
  refine forall₂_congr fun s _ => ?_
  unfold Resolution.Ensures Resolution.outcome
  rcases x.run.run s with ⟨e | a, s'⟩ <;> rfl

/-- What the operations on a registry maintain: from a fine registry they lead to a fine one, or
fail and leave one that is spent. -/
structure Registry.Conduct (fine spent : Registry → Prop) : Prop where
  stop : ∀ r, fine r → spent r
  lookup : ∀ address fragment, Maintains fine spent (Registry.lookup address fragment)
  adopt : ∀ r n, fine r → fine (Registry.adopt r n).2
  renew : ∀ r n, fine r → fine (Registry.renew r n).2
  setAnchor : ∀ r address name n, fine r → fine (Registry.setAnchor r address name n)

namespace Registry.Conduct

variable {fine spent : Registry → Prop} (h : Conduct fine spent)
include h

lemma setAnchors {r : Registry} (hr : fine r) (current : Address) (n : Node) :
    fine (r.setAnchors current n) := by
  unfold Registry.setAnchors
  induction n.anchors generalizing r with
  | nil => exact hr
  | cons name names ih => exact ih (h.setAnchor r current name n hr)

/-- **What the operations on a registry maintain is maintained by whole resolutions.** -/
theorem compositional :
    Resolution.Compositional fun _ x => Maintains (fine ·.registry) (spent ·.registry) x where
  pure := maintains_pure
  throw := maintains_throw fun s => h.stop s.registry
  bind := maintains_bind
  get := maintains_get
  lookup address fragment := maintains_iff_ensures.2 fun s hs => by
    have hlookup := h.lookup address fragment s.registry hs
    unfold Resolution.Ensures
    rw [Resolution.outcome_lift]
    rcases hrun : (Registry.lookup address fragment).run.run s.registry with ⟨e | n, r⟩
    all_goals
      rw [hrun] at hlookup
      exact hlookup
  adopt n s hs := h.adopt s.registry n hs
  fresh n s hs := h.renew s.registry n hs
  setAnchors current n s hs := h.setAnchors hs current n
  cutAt depth s hs := hs
  keep place fragment n s hs := by
    change fine (s.keep place fragment n).registry
    unfold Resolver.keep
    dsimp only
    split
    · exact hs
    · exact h.setAnchor _ _ _ _ hs
  inside place x hx := maintains_iff_ensures.2 fun s hs =>
    Resolution.ensures_inside.2 (maintains_iff_ensures.1 hx (s.enter place) hs)

end Registry.Conduct

end SchemaCatalog
