import SchemaCatalog.Proofs.Resolution.Confined
import SchemaCatalog.Proofs.Resolution.Moments
import SchemaCatalog.Proofs.Resolution.ReferenceFree

/-!
# Resolution terminates

Resolution is bounded by a limit on the targets that may be open inside one another, and it is
given up beyond.  Over finitely many documents the limit says nothing: from some limit on no run
is given up, and then a larger limit changes nothing in the outcome.

The measure is counted in places.  Let `T` be a finite set that the registry is confined to.  The
targets in progress are distinct members of `T`, so one more can be opened at most `T.card`
times; and the places on a way through aliases are distinct members of `T` as well, so a way has
at most `T.card` steps.  A limit of twice the number is enough for both.  A run then fails with
faults of the places in `T` alone (`expandTarget_confined`).
-/

namespace SchemaCatalog

/-- The error of a run that was given up at the limit. -/
def ResolveError.IsTooDeep (e : ResolveError) : Prop := ∃ place, e = .tooDeep place

lemma Address.target_not_tooDeep {a : Address} {reference : String} {e : ResolveError}
    (h : a.target reference = .error e) : ¬ e.IsTooDeep := by
  rintro ⟨place, rfl⟩
  unfold target at h
  split at h
  · cases h
  · split at h <;> cases h
  · cases h

lemma Registry.raw_not_tooDeep {r : Registry} {place : Address} {e : ResolveError}
    (h : r.raw place = .error e) : ¬ e.IsTooDeep := by
  rintro ⟨p, rfl⟩
  cases hfragment : place.fragmentText with
  | error e =>
    rw [raw_of_fragmentText_error hfragment] at h
    obtain rfl := Except.error.inj h
    unfold Address.fragmentText at hfragment
    split at hfragment <;> cases hfragment
  | ok fragment =>
    rw [raw_of_fragmentText hfragment] at h
    change (r.content place).bind _ = _ at h
    cases hcontent : r.content place with
    | error e =>
      rw [hcontent] at h
      obtain rfl := Except.error.inj h
      unfold content at hcontent
      split at hcontent
      · cases hcontent
      · split at hcontent
        · cases hcontent
        · split at hcontent <;> cases hcontent
    | ok doc =>
      rw [hcontent] at h
      change r.placed place fragment doc = _ at h
      unfold placed at h
      split at h
      · cases h
      · split at h <;> cases h

lemma Node.confined_of_targets {T : Finset Address} {n : Node} {current : Address}
    (h : ∀ q ∈ n.targets current, q ∈ T) : n.Confined T (fun e => ¬ e.IsTooDeep) current where
  target m hm reference hone t ht :=
    h t.place (targets_subset hm (place_mem_targets hone ht))
  malformed m hm reference hone e he := Address.target_not_tooDeep he
  several m hm hmore := fun ⟨_, h⟩ => by cases h

/-- A registry that refers into a set is confined to it, but for faults that have nothing to do
with the limit. -/
lemma Registry.RefersInto.confined {r : Registry} {T : Finset Address} (h : r.RefersInto T) :
    r.Confined T fun e => ¬ e.IsTooDeep := by
  intro p _
  refine ⟨fun e he => raw_not_tooDeep he, fun n hn => Node.confined_of_targets fun q hq => ?_⟩
  cases hfragment : p.fragmentText with
  | error e =>
    rw [raw_of_fragmentText_error hfragment] at hn
    cases hn
  | ok fragment =>
    rw [raw_of_fragmentText hfragment] at hn
    exact h p fragment n hn q hq

namespace Resolution

variable {T : Finset Address} {fail : ResolveError → Prop} {limit : Nat} {s : Resolver}

/-! ## Runs in a closed set -/

lemma length_le_card {l : List Address} (hnodup : l.Nodup) (h : ∀ p ∈ l, p ∈ T) :
    l.length ≤ T.card := by
  rw [← List.toFinset_card_of_nodup hnodup]
  exact Finset.card_le_card fun p hp => h p (List.mem_toFinset.1 hp)

/-- Every step through an alias leads to a place not seen before, of which there are finitely
many. -/
lemma followAliases_confined {seen : List Address} {raw : Node} {document : Address}
    (hr : s.registry.Confined T fail) (hraw : raw.Confined T fail document)
    (hnodup : seen.Nodup) (hseen : ∀ p ∈ seen, p ∈ T) (room : T.card + 1 ≤ limit + seen.length) :
    Ensures (followAliases limit seen raw document) s (fun _ _ => True) (fun e _ => fail e) := by
  induction limit generalizing seen raw document s with
  | zero =>
    -- All places of the set have been seen, and the limit leaves room for one more.
    have hcard := length_le_card hnodup hseen
    omega
  | succ limit ih =>
    rw [followAliases]
    split
    case h_2 => exact trivial
    case h_1 reference hkeywords =>
      have hone := Node.references_of_bare hkeywords
      rw [ensures_bind, ensures_ofExcept]
      refine ⟨fun t ht => ?_, fun e he => hraw.malformed raw raw.self_mem_nodes reference hone e he⟩
      by_cases hmem : t.place ∈ seen
      · rw [if_pos hmem]
        exact trivial
      · rw [if_neg hmem, ensures_bind]
        have ht' : t.place ∈ T := hraw.target raw raw.self_mem_nodes reference hone t ht
        apply ensures_rawAt
        case missing => exact fun e r _ he => (hr t.place ht').missing e he
        case found =>
          intro n raw' r' halike hn hforget
          refine ih (hr.alike halike) (hr.raw ht' hn hforget)
            (List.nodup_cons.2 ⟨hmem, hnodup⟩) ?_ ?_
          · exact List.forall_mem_cons.2 ⟨ht', hseen⟩
          · rw [List.length_cons]
            omega

/-- Resolvers that are confined to a finite set and have room for all its members under a limit. -/
structure Bounded (T : Finset Address) (fail : ResolveError → Prop) (limit : Nat)
    (s : Resolver) : Prop where
  confined : s.registry.Confined T fail
  referenceFree : s.ReferenceFree
  nodup : s.active.Nodup
  active : ∀ p ∈ s.active, p ∈ T
  room : 2 * T.card + 2 ≤ limit + s.active.length

/-- The discipline of bounded resolvers. -/
def bounded (T : Finset Address) (fail : ResolveError → Prop) (limit : Nat) : Discipline :=
  .steady (Bounded T fail limit)

lemma Bounded.active_card (h : Bounded T fail limit s) : s.active.length ≤ T.card :=
  length_le_card h.nodup h.active

/-- The targets in progress and the expansions stay, and the registry may change. -/
lemma Bounded.of_eq {s' : Resolver} (h : Bounded T fail limit s) (hr : s'.registry.Confined T fail)
    (hexpansions : s'.expansions = s.expansions) (hactive : s'.active = s.active) :
    Bounded T fail limit s' := by
  refine ⟨hr, ?_, hactive ▸ h.nodup, hactive ▸ h.active, hactive ▸ h.room⟩
  unfold Resolver.ReferenceFree
  rw [hexpansions]
  exact h.referenceFree

lemma Bounded.enter {place : Address} (h : Bounded T fail (limit + 1) s) (hplace : place ∈ T)
    (hnot : place ∉ s.active) : Bounded T fail limit (s.enter place) where
  confined := h.confined
  referenceFree := h.referenceFree
  nodup := Resolver.nodup_enter h.nodup hnot
  active p hp := by
    rw [Resolver.active_enter, List.mem_append, List.mem_singleton] at hp
    rcases hp with hp | rfl
    · exact h.active p hp
    · exact hplace
  room := by
    have hroom := h.room
    rw [Resolver.active_enter, List.length_append, List.length_singleton]
    omega

lemma Bounded.leave {place : Address} {s' : Resolver} (h : Bounded T fail (limit + 1) s)
    (h' : Bounded T fail limit s') (hactive : s'.active = s.active ++ [place]) :
    Bounded T fail (limit + 1) (s'.leave s) ∧ (s'.leave s).active = s.active := by
  have hleave := Resolver.active_leave_of_enter hactive
  refine ⟨⟨h'.confined, h'.referenceFree, ?_, ?_, ?_⟩, hleave⟩
  · rw [hleave]
    exact h.nodup
  · rw [hleave]
    exact h.active
  · rw [hleave]
    exact h.room

lemma Bounded.keep {place : Address} {fragment : String} {m : Node} (h : Bounded T fail limit s)
    (hm : m.hasReferences = false) : Bounded T fail limit (s.keep place fragment m) where
  confined := by
    unfold Resolver.keep
    split
    · exact h.confined
    · exact h.confined.setAnchor (.of_hasReferences hm)
  referenceFree := h.referenceFree.keep hm
  nodup := h.nodup
  active := h.active
  room := h.room

lemma expandNode_confined {expand : Address → Resolution Node} {current : Address} {n : Node}
    (hn : n.Confined T fail current)
    (hexpand : ∀ t, t.place ∈ T → ∀ s, Keeps (bounded T fail limit) (expand t) s
      (fun m _ => m.hasReferences = false) fail) (s : Resolver) :
    Keeps (bounded T fail limit) (expandNode expand current n) s
      (fun m _ => m.hasReferences = false) fail := by
  have hserves : Serves (bounded T fail limit) (fun _ _ m => m.hasReferences = false)
      fail expand current n :=
    { stable := fun _ _ _ _ _ hm => hm
      fresh := fun s hs m =>
        ⟨hs.of_eq (hs.confined.alike (s.registry.alike_renew m)) rfl rfl, rfl⟩
      anchors := fun m hm s hs =>
        ⟨hs.of_eq (hs.confined.setAnchors (hn.of_mem hm)) rfl rfl, rfl⟩
      expand := fun m hm reference hone t ht s =>
        hexpand t (hn.target m hm reference hone t ht) s
      malformed := hn.malformed
      several := hn.several }
  refine (expandNode_keeps hserves s).mono (fun m s' hm => ?_) fun _ h => h
  exact hm.hasReferences_eq_false fun _ _ hm => hm

/-- **In a closed set of places the expansion of a target ends, and it fails with faults of these
places alone.** -/
theorem expandTarget_confined {target : Address} (htarget : target.place ∈ T) (s : Resolver) :
    Keeps (bounded T fail limit) (expandTarget limit target) s
      (fun m _ => m.hasReferences = false) fail := by
  induction limit generalizing target s with
  | zero =>
    -- Not all of the room can have been used up by targets in progress.
    intro hs
    have hcard := hs.active_card
    have hroom := hs.room
    omega
  | succ limit ih =>
    intro hs
    have hcard := hs.active_card
    have hroom := hs.room
    apply expandTarget_ensures
    case kept =>
      intro n hn
      exact ⟨hs, rfl, hs.referenceFree _ (OrderedMap.mem_of_get?_eq_some hn)⟩
    case missing =>
      intro _ e r halike he
      exact ⟨hs.of_eq (hs.confined.alike halike) rfl rfl, rfl,
        (hs.confined _ htarget).missing e he⟩
    case cycle =>
      intro _ n raw r halike hn hforget depth _
      have hr := hs.confined.alike halike
      have hraw := hs.confined.raw htarget hn hforget
      rw [Address.withoutFragment_place] at hraw
      refine closeCycle_ensures (followAliases_confined hr hraw List.nodup_nil (by simp) ?_) ?_ ?_
      · -- What is left of the limit is enough for any chain of aliases.
        rw [List.length_nil]
        omega
      · intro p r' halike' _
        refine ⟨hs.of_eq ?_ rfl rfl, rfl, Node.hasReferences_cycleStub p.1 (some p.2)⟩
        exact (hr.alike halike').alike
          (Registry.alike_renew r' { p.1.cycleStub with base := some p.2 })
      · exact fun e r' halike' he => ⟨hs.of_eq (hr.alike halike') rfl rfl, rfl, he⟩
    case opened =>
      intro _ n raw r halike hn hforget hnot fragment _
      have hraw := hs.confined.raw htarget hn hforget
      rw [Address.withoutFragment_place] at hraw
      have hs₁ : Bounded T fail (limit + 1) (s.withRegistry r) :=
        hs.of_eq (hs.confined.alike halike) rfl rfl
      refine (expandNode_confined hraw (fun t ht s => ih ht s) _
        (hs₁.enter htarget hnot)).mono ?_ ?_
      · rintro m s' ⟨hs', hactive, hm⟩
        obtain ⟨hleave, hactive⟩ := hs₁.leave hs' hactive
        exact ⟨fun _ => ⟨hleave.keep hm, hactive, hm⟩, fun _ => ⟨hleave, hactive, hm⟩⟩
      · rintro e s' ⟨hs', hactive, he⟩
        obtain ⟨hleave, hactive⟩ := hs₁.leave hs' hactive
        exact ⟨hleave, hactive, he⟩

/-! ## A larger limit changes nothing -/

/-- A run that is not given up has the same outcome under a larger limit. -/
def longer : Simulation Resolution Resolution where
  rel s x y := (outcome x s).2.active = s.active ∧
    ((∀ e, (outcome x s).1 = .error e → ¬ e.IsTooDeep) → outcome y s = outcome x s)
  pure s a := ⟨rfl, fun _ => rfl⟩
  throw s e := ⟨rfl, fun _ => rfl⟩
  bind s x y f g hx hf := by
    obtain ⟨hactive, hrun⟩ := hx
    rw [outcome_bind, outcome_bind]
    rcases hout : outcome x s with ⟨e | a, s'⟩
    all_goals
      rw [hout] at hactive hrun
    · refine ⟨hactive, fun he => ?_⟩
      rw [hrun fun e' h => he e' (congrArg Except.error (Except.error.inj h))]
    · obtain ⟨hactive', hrun'⟩ := hf a s' hactive
      refine ⟨hactive'.trans hactive, fun he => ?_⟩
      rw [hrun fun e h => by cases h]
      exact hrun' he
  get s f g hf := by
    rw [outcome_bind, outcome_bind]
    exact hf
  modify s f hf := ⟨hf, fun _ => rfl⟩
  onRegistry s f := ⟨rfl, fun _ => rfl⟩
  inside s place x y _ hx := by
    obtain ⟨hactive, hrun⟩ := hx
    have hleave := Resolver.active_leave_of_enter hactive
    rw [outcome_inside, outcome_inside]
    rcases hout : outcome x (s.enter place) with ⟨e | n, s'⟩
    all_goals
      rw [hout] at hleave hrun
    · refine ⟨hleave, fun he => ?_⟩
      rw [hrun fun e' h => he e' (congrArg Except.error (Except.error.inj h))]
    · refine ⟨hleave, fun _ => ?_⟩
      rw [hrun fun e h => by cases h]

lemma longer_deep {α : Type} (s : Resolver) (place : Address) (y : Resolution α) :
    longer.rel s (throw (.tooDeep place)) y :=
  ⟨rfl, fun h => absurd ⟨place, rfl⟩ (h _ rfl)⟩

/-- A bounded run finishes if from some limit on it is not given up and always has the same
outcome. -/
def Finishes (x : Nat → Resolution Node) (s : Resolver) : Prop :=
  ∃ o : Except ResolveError Node × Resolver, (∀ e, o.1 = .error e → ¬ e.IsTooDeep) ∧
    ∃ N, ∀ limit, N ≤ limit → outcome (x limit) s = o

lemma finishes_of_not_tooDeep {x : Nat → Resolution Node} {N : Nat}
    (hx : ∀ e, (outcome (x N) s).1 = .error e → ¬ e.IsTooDeep)
    (hlonger : ∀ extra, longer.rel s (x N) (x (N + extra))) : Finishes x s := by
  refine ⟨outcome (x N) s, hx, N, ?_⟩
  intro limit hlimit
  obtain ⟨extra, rfl⟩ := Nat.exists_eq_add_of_le hlimit
  exact (hlonger extra).2 hx

/-- Runs for a document that are not given up have one outcome, whatever their limits. -/
lemma document_eq_of_not_tooDeep {N M : Nat} {address : Address}
    (hN : ∀ e, (outcome (document N address) s).1 = .error e → ¬ e.IsTooDeep)
    (hM : ∀ e, (outcome (document M address) s).1 = .error e → ¬ e.IsTooDeep) :
    outcome (document M address) s = outcome (document N address) s := by
  rcases Nat.le_total N M with hle | hle
  · obtain ⟨extra, rfl⟩ := Nat.exists_eq_add_of_le hle
    exact (longer.document (.inr longer_deep) N address s).2 hN
  · obtain ⟨extra, rfl⟩ := Nat.exists_eq_add_of_le hle
    exact ((longer.document (.inr longer_deep) M address s).2 hM).symm

lemma bounded_of_reachable (h : s.Reachable) (hr : s.registry.Confined T fail) :
    Bounded T fail (2 * T.card + 2) s where
  confined := hr
  referenceFree := h.referenceFree
  nodup := h.active_eq_nil ▸ List.nodup_nil
  active p hp := by
    rw [h.active_eq_nil] at hp
    exact absurd hp List.not_mem_nil
  room := Nat.le_add_right _ _

lemma node_finishes (h : s.Reachable) (hfinite : s.registry.documentAddresses.Finite) (n : Node)
    (current : Address) : Finishes (node · n current) s := by
  obtain ⟨T₀, hr⟩ := s.registry.exists_refersInto hfinite
  let T := T₀ ∪ (n.targets current).toFinset
  have hT : s.registry.Confined T fun e => ¬ e.IsTooDeep :=
    (hr.mono Finset.subset_union_left).confined
  have hn : (s.registry.adopt n).1.Confined T (fun e => ¬ e.IsTooDeep) current := by
    refine Node.confined_of_targets fun p hp => ?_
    rw [← Node.targets_forget, Registry.forget_adopt, Node.targets_forget] at hp
    exact Finset.mem_union_right _ (List.mem_toFinset.2 hp)
  have hs : Bounded T (fun e => ¬ e.IsTooDeep) (2 * T.card + 2)
      (s.withRegistry (s.registry.adopt n).2) :=
    (bounded_of_reachable h hT).of_eq (hT.alike (s.registry.alike_adopt n)) rfl rfl
  have hrun : Ensures (node (2 * T.card + 2) n current) s (fun _ _ => True)
      fun e _ => ¬ e.IsTooDeep := by
    rw [node, ensures_bind, ensures_onRegistry]
    refine (expandNode_confined hn (fun t ht s => expandTarget_confined ht s) _ hs).mono
      (fun _ _ _ => trivial) fun e s' he => he.2.2
  refine finishes_of_not_tooDeep (N := 2 * T.card + 2) ?_ fun extra =>
    longer.node (.inr longer_deep) _ n current s
  intro e he
  exact hrun.of_error (Prod.ext he rfl)

lemma document_finishes (h : s.Reachable) (hfinite : s.registry.documentAddresses.Finite)
    (address : Address) : Finishes (document · address) s := by
  obtain ⟨T₀, hr⟩ := s.registry.exists_refersInto hfinite
  let T := insert address.withoutFragment.place T₀
  have hT : s.registry.RefersInto T := hr.mono (Finset.subset_insert _ _)
  have hrun : Ensures (document (2 * T.card + 2) address) s _ _ :=
    expandTarget_confined (Finset.mem_insert_self address.withoutFragment.place T₀) s
      (bounded_of_reachable h hT.confined)
  refine finishes_of_not_tooDeep (N := 2 * T.card + 2) ?_ fun extra =>
    longer.document (.inr longer_deep) _ address s
  intro e he
  exact (hrun.of_error (Prod.ext he rfl)).2.2

/-- The record of a run from a point between two calls. -/
lemma moments_nodup {x : Resolution Node} {y : Recorded Node} (h : s.Reachable)
    (hxy : recording.rel s x y) :
    (y s).1 = outcome x s ∧ ∀ t ∈ Recorded.moments y s, t.active.Nodup := by
  have hidle : s.active.Nodup := h.active_eq_nil ▸ List.nodup_nil
  obtain ⟨hrun, -, hmoments⟩ := hxy hidle
  exact ⟨hrun, List.forall_mem_cons.2 ⟨hidle, hmoments⟩⟩

/-- **Resolution terminates on every graph of references.**  Over finitely many documents, at
every point of every session, the resolution of every node and of every document finishes,
whatever cycles, references to themselves and chains of aliases the documents hold; and at every
moment of the run the targets in progress are distinct. -/
theorem resolution_finishes (h : s.Reachable) (hfinite : s.registry.documentAddresses.Finite) :
    (∀ n current, Finishes (node · n current) s ∧ ∀ limit,
      ((node limit n current : Recorded Node) s).1 = outcome (node limit n current) s ∧
      ∀ t ∈ Recorded.moments (node limit n current) s, t.active.Nodup) ∧
    ∀ address, Finishes (document · address) s ∧ ∀ limit,
      ((document limit address : Recorded Node) s).1 = outcome (document limit address) s ∧
      ∀ t ∈ Recorded.moments (document limit address) s, t.active.Nodup := by
  refine ⟨fun n current => ⟨node_finishes h hfinite n current, fun limit => ?_⟩,
    fun address => ⟨document_finishes h hfinite address, fun limit => ?_⟩⟩
  · exact moments_nodup h (recording.node (.inl rfl) limit n current s)
  · exact moments_nodup h (recording.document (.inl rfl) limit address s)

lemma finite_threeDocuments : Registry.threeDocuments.documentAddresses.Finite := by
  refine Registry.threeDocuments.finite_documentAddresses ?_
  convert Set.finite_empty (α := Address)
  simp [Registry.threeDocuments, Registry.register]

/-- The resolution of the document that refers to itself finishes. -/
theorem ring_finishes :
    Finishes (document · (.inMemory "ring")) (.ofRegistry .threeDocuments) :=
  ((resolution_finishes (.start .threeDocuments) finite_threeDocuments).2 (.inMemory "ring")).1

end Resolution

end SchemaCatalog
