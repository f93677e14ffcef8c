import SchemaCatalog.Proofs.Resolution.Likeness
import SchemaCatalog.Proofs.Resolution.Replacement

/-!
# Resolutions that correspond

Resolution cannot tell resolvers apart that are like one another: from such resolvers it comes to
the same errors or to trees that match, and leaves resolvers that are like one another
(`corresponds_document`).

`Corresponds W s t x y R` says so of two programs.  The roster `W` is that of the first resolver
when the programs start; what they find is listed in one that has grown, so `R` is a relation for
each roster.  The rules take the two programs apart side by side, and a proof about a function of
resolution has the shape of the function.
-/

namespace SchemaCatalog

variable {W W' : Roster}

/-! ## Programs that correspond -/

namespace Resolution

open Resolver

/-- Results that are related, or the same error. -/
inductive SameResult {α : Type} (R : α → α → Prop) :
    Except ResolveError α → Except ResolveError α → Prop where
  | ok {a b : α} (h : R a b) : SameResult R (.ok a) (.ok b)
  | error (e : ResolveError) : SameResult R (.error e) (.error e)

/-- From resolvers that are like one another, two programs come to results that are related, or
to the same error, and leave resolvers that are like one another. -/
def Corresponds {α : Type} (W : Roster) (s t : Resolver) (x y : Resolution α)
    (R : Roster → α → α → Prop) : Prop :=
  Like W s t → ∃ W', W.Grows W' ∧ Like W' (outcome x s).2 (outcome y t).2 ∧
    SameResult (R W') (outcome x s).1 (outcome y t).1

namespace Corresponds

variable {α β : Type} {s t : Resolver} {x y : Resolution α} {f g : α → Resolution β}
  {R : Roster → α → α → Prop} {S : Roster → β → β → Prop}

lemma pure {a b : α} (h : R W a b) : Corresponds W s t (Pure.pure a) (Pure.pure b) R :=
  fun like => ⟨W, .refl W, like, .ok h⟩

lemma throw (e : ResolveError) :
    Corresponds W s t (MonadExcept.throw e) (MonadExcept.throw e) R :=
  fun like => ⟨W, .refl W, like, .error e⟩

lemma bind (hx : Corresponds W s t x y R) (hf : ∀ W' s' t' a b, W.Grows W' → R W' a b →
    Corresponds W' s' t' (f a) (g b) S) : Corresponds W s t (x >>= f) (y >>= g) S := by
  intro like
  obtain ⟨W₁, grows₁, like₁, result⟩ := hx like
  rw [outcome_bind, outcome_bind]
  generalize outcome x s = p, outcome y t = q at like₁ result ⊢
  obtain ⟨a, s₁⟩ := p
  obtain ⟨b, t₁⟩ := q
  dsimp only at like₁ result
  cases result with
  | error e => exact ⟨W₁, grows₁, like₁, .error e⟩
  | ok hab =>
    obtain ⟨W₂, grows₂, like₂, result⟩ := hf W₁ s₁ t₁ _ _ grows₁ hab like₁
    exact ⟨W₂, grows₁.trans grows₂, like₂, result⟩

lemma ofExcept {a : Except ResolveError α} (h : ∀ b, a = .ok b → R W b b) :
    Corresponds W s t (Resolution.ofExcept a) (Resolution.ofExcept a) R := by
  cases a with
  | ok b => exact pure (h b rfl)
  | error e => exact throw e

/-- The programs may depend on the resolvers they run from. -/
lemma get {f g : Resolver → Resolution β} (h : Like W s t → Corresponds W s t (f s) (g t) S) :
    Corresponds W s t (MonadState.get >>= f) (MonadState.get >>= g) S := by
  intro like
  rw [outcome_bind, outcome_bind]
  exact h like like

lemma fresh {n m : Node} (truth : n.truth = m.truth)
    (keywords : List.Forall₂ (Keyword.Related (Node.Matches W)) n.keywords m.keywords) :
    Corresponds W s t (Resolution.fresh n) (Resolution.fresh m) Node.Matches := by
  intro like
  have hnested : ∀ k ∈ n.keywords, ∀ c ∈ k.nested, c.Listed W := by
    intro k hk c hc
    obtain ⟨d, hd⟩ := Keyword.exists_rel_of_nested keywords hk hc
    exact hd.listed
  obtain ⟨W', grows, coherent, listed⟩ := like.coherent.renew hnested
  have same := like.same.alike (s.registry.alike_renew n) (t.registry.alike_renew m)
  refine ⟨W', grows, like.withRegistry grows coherent same, .ok ⟨listed, ?_⟩⟩
  calc (s.registry.renew n).1.forget
    _ = n.forget := s.registry.forget_renew n
    _ = m.forget := Node.forget_of_matches truth keywords
    _ = (t.registry.renew m).1.forget := (t.registry.forget_renew m).symm

lemma setAnchors (current : Address) {n m : Node} (h : n.Matches W m) :
    Corresponds W s t (Resolution.setAnchors current n) (Resolution.setAnchors current m)
      fun _ _ _ => True := by
  intro like
  have coherent := like.coherent.setAnchors current h.listed
  have same := like.same.setAnchors current h.forget
  exact ⟨W, .refl W, like.withRegistry (.refl W) coherent same, .ok trivial⟩

lemma lookup (address : Address) (fragment : String) :
    Corresponds W s t (lift (Registry.lookup address fragment))
      (lift (Registry.lookup address fragment)) Node.Matches := by
  intro like
  obtain ⟨W', grows, coherent, listed⟩ := like.coherent.lookup address fragment
  obtain ⟨hfound, halike⟩ := s.registry.lookup_found address fragment
  obtain ⟨hfound', halike'⟩ := t.registry.lookup_found address fragment
  rw [like.same.found, ← hfound] at hfound'
  rw [outcome_lift, outcome_lift]
  refine ⟨W', grows, like.withRegistry grows coherent (like.same.alike halike halike'), ?_⟩
  dsimp only
  rcases hrun : ((Registry.lookup address fragment).run.run s.registry).1 with e | n
  · rw [hrun] at hfound'
    rw [Registry.error_of_map_forget hfound'.symm rfl]
    exact .error e
  · rw [hrun] at hfound'
    obtain ⟨m, hm, hforget⟩ := Registry.ok_of_map_forget hfound'.symm rfl
    rw [hm]
    exact .ok ⟨listed n hrun, hforget⟩

lemma inside (place : Address) {x y : Resolution Node}
    (h : Corresponds W (s.enter place) (t.enter place) x y Node.Matches) :
    Corresponds W s t (Resolution.inside place x) (Resolution.inside place y)
      fun W' a b => a.1.Matches W' b.1 ∧ a.2 = b.2 := by
  intro like
  obtain ⟨W', grows, like', result⟩ := h (like.enter place)
  rw [outcome_inside, outcome_inside]
  generalize outcome x (s.enter place) = p, outcome y (t.enter place) = q at like' result ⊢
  obtain ⟨a, s'⟩ := p
  obtain ⟨b, t'⟩ := q
  dsimp only at like' result
  cases result with
  | error e => exact ⟨W', grows, like'.leave like, .error e⟩
  | ok hab =>
    refine ⟨W', grows, like'.leave like, .ok ⟨hab, ?_⟩⟩
    rw [like.active, like'.openCut]

lemma modify {f g : Resolver → Resolver} (h : Like W s t → Like W (f s) (g t)) :
    Corresponds W s t (modify f) (modify g) fun _ _ _ => True :=
  fun like => ⟨W, .refl W, h like, .ok trivial⟩

end Corresponds

/-! ## Trees -/

section Trees

variable {expand : Address → Resolution Node} {current : Address} {s t : Resolver}

/-- The expansion of a tree corresponds to that of every tree that it matches. -/
def ExpandsAlike (expand : Address → Resolution Node) (current : Address) (n : Node) : Prop :=
  ∀ W s t m, n.Matches W m →
    Corresponds W s t (expandNode expand current n) (expandNode expand current m) Node.Matches

lemma corresponds_expandSchemas {schemas schemas' : List Node}
    (h : ∀ c ∈ schemas, ExpandsAlike expand current c)
    (hrel : List.Forall₂ (Node.Matches W) schemas schemas') :
    Corresponds W s t (expandSchemas expand current schemas)
      (expandSchemas expand current schemas')
      fun W' rs rs' => rs.length = schemas.length ∧ List.Forall₂ (Node.Matches W') rs rs' := by
  induction schemas generalizing W s t schemas' with
  | nil =>
    obtain _ | _ := hrel
    exact .pure ⟨rfl, .nil⟩
  | cons c schemas ih =>
    obtain _ | ⟨hc, hrel⟩ := hrel
    obtain ⟨hexpands, hschemas⟩ := List.forall_mem_cons.1 h
    refine (hexpands W s t _ hc).bind fun W₁ s₁ t₁ r r' grows₁ hr => ?_
    have hrel₁ := hrel.imp fun _ _ hd => hd.mono grows₁
    refine (ih hschemas hrel₁).bind fun W₂ s₂ t₂ rs rs' grows₂ hrs => ?_
    exact .pure ⟨congrArg Nat.succ hrs.1, .cons (hr.mono grows₂) hrs.2⟩

lemma corresponds_expandKeyword {k l : Keyword}
    (h : ∀ c ∈ k.nested, ExpandsAlike expand current c)
    (hrel : Keyword.Related (Node.Matches W) k l) :
    Corresponds W s t (expandKeyword expand current k) (expandKeyword expand current l)
      fun W' => Keyword.Related (Node.Matches W') := by
  rw [expandKeyword_eq, expandKeyword_eq]
  refine (corresponds_expandSchemas h hrel.nested).bind fun W₁ _ _ rs rs' _ hrs => ?_
  exact .pure (hrel.withNested hrs.2 hrs.1)

lemma isEarly_of_related {R : Node → Node → Prop} {k l : Keyword} (h : Keyword.Related R k l) :
    isEarly k = isEarly l := by
  cases h with
  | @keyed kind _ _ _ => cases kind <;> rfl
  | _ => rfl

lemma corresponds_expandKeywords {early : Bool} {ks ls : List Keyword}
    (h : ∀ k ∈ ks, ∀ c ∈ k.nested, ExpandsAlike expand current c)
    (hrel : List.Forall₂ (Keyword.Related (Node.Matches W)) ks ls) :
    Corresponds W s t (expandKeywords expand current early ks)
      (expandKeywords expand current early ls)
      fun W' => List.Forall₂ (Option.Rel (Keyword.Related (Node.Matches W'))) := by
  induction ks generalizing W s t ls with
  | nil =>
    obtain _ | _ := hrel
    exact .pure .nil
  | cons k ks ih =>
    obtain _ | ⟨hk, hrel⟩ := hrel
    obtain ⟨hexpands, hks⟩ := List.forall_mem_cons.1 h
    rw [expandKeywords, expandKeywords, isEarly_of_related hk]
    split
    · refine (corresponds_expandKeyword hexpands hk).bind fun W₁ s₁ t₁ r r' grows₁ hr => ?_
      have hrel₁ := hrel.imp fun _ _ hl => hl.mono fun _ _ _ hd => hd.mono grows₁
      refine (ih hks hrel₁).bind fun W₂ s₂ t₂ rs rs' grows₂ hrs => ?_
      exact .pure (.cons (.some (hr.mono fun _ _ _ hd => hd.mono grows₂)) hrs)
    · exact (ih hks hrel).bind fun _ _ _ _ _ _ hrs => .pure (.cons .none hrs)

/-- Two rounds that are related leave related keywords. -/
lemma related_rounds {R : Node → Node → Prop} {early early' late late' : List (Option Keyword)}
    (hearly : List.Forall₂ (Option.Rel (Keyword.Related R)) early early')
    (hlate : List.Forall₂ (Option.Rel (Keyword.Related R)) late late') :
    List.Forall₂ (Keyword.Related R) ((List.zipWith Option.or early late).filterMap id)
      ((List.zipWith Option.or early' late').filterMap id) := by
  induction hearly generalizing late late' with
  | nil => exact .nil
  | cons h _ ih =>
    obtain _ | ⟨h', hlate⟩ := hlate
    · exact .nil
    have ih := ih hlate
    cases h with
    | some h => exact .cons h ih
    | none =>
      cases h' with
      | some h' => exact .cons h' ih
      | none => exact ih

lemma corresponds_assemble (hexpand : ∀ W s t target,
    Corresponds W s t (expand target) (expand target) Node.Matches) {n m : Node}
    (htruth : n.truth = m.truth) {ks ls : List Keyword}
    (hrel : List.Forall₂ (Keyword.Related (Node.Matches W)) ks ls) :
    Corresponds W s t (assemble expand current n ks) (assemble expand current m ls)
      Node.Matches := by
  have hown := Keyword.filter_of_related hrel
  rw [assemble, assemble, Keyword.references_of_related hrel]
  split
  case h_1 => exact .fresh htruth hrel
  case h_2 reference _ =>
    refine (Corresponds.ofExcept (R := fun _ => Eq) fun _ _ => rfl).bind ?_
    rintro W₁ s₁ t₁ target _ grows₁ rfl
    refine (hexpand W₁ s₁ t₁ target).bind fun W₂ s₂ t₂ found found' grows₂ hfound => ?_
    generalize (ks.filter fun k => k.reference?.isNone) = own,
      (ls.filter fun k => k.reference?.isNone) = own' at hown
    cases hown with
    | nil => exact .pure hfound
    | cons hk hown =>
      refine .fresh rfl (List.rel_append ?_ hfound.keywords)
      exact (List.Forall₂.cons hk hown).imp fun _ _ hl =>
        hl.mono fun _ _ _ hd => hd.mono (grows₁.trans grows₂)
  case h_3 => exact .throw _

/-- **The expansions of trees that match correspond, if those of targets do.** -/
theorem corresponds_expandNode (hexpand : ∀ W s t target,
    Corresponds W s t (expand target) (expand target) Node.Matches) (n : Node) :
    ExpandsAlike expand current n := by
  induction n using Node.induction_nested with
  | step n ih =>
    intro W s t m hnm
    have hanchors := Corresponds.setAnchors (s := s) (t := t) current hnm
    have hleaf : n.isLeaf = m.isLeaf := by
      rw [← n.isLeaf_forget, hnm.forget, m.isLeaf_forget]
    have hkeywords := hnm.keywords
    have htruth := hnm.truth
    obtain ⟨identity, truth, base, keywords⟩ := n
    obtain ⟨identity', truth', base', keywords'⟩ := m
    rw [expandNode, expandNode]
    refine hanchors.bind fun W₁ s₁ t₁ _ _ grows₁ _ => ?_
    rw [hleaf]
    split
    case isTrue => exact .pure (hnm.mono grows₁)
    case isFalse =>
      have hrel₁ := hkeywords.imp fun _ _ hl => hl.mono fun _ _ _ hd => hd.mono grows₁
      refine (corresponds_expandKeywords ih hrel₁).bind
        fun W₂ s₂ t₂ early early' grows₂ hearly => ?_
      have hrel₂ := hrel₁.imp fun _ _ hl => hl.mono fun _ _ _ hd => hd.mono grows₂
      refine (corresponds_expandKeywords ih hrel₂).bind
        fun W₃ s₃ t₃ late late' grows₃ hlate => ?_
      refine corresponds_assemble hexpand htruth (related_rounds ?_ hlate)
      refine hearly.imp fun k l hkl => ?_
      cases hkl with
      | none => exact .none
      | some hkl => exact .some (hkl.mono fun _ _ _ hd => hd.mono grows₃)

end Trees

/-! ## Targets -/

variable {s t : Resolver}

lemma corresponds_rawAt (place : Address) :
    Corresponds W s t (rawAt place) (rawAt place)
      fun W' p q => p.1.Matches W' q.1 ∧ p.2 = q.2 := by
  refine (Corresponds.ofExcept (R := fun _ => Eq) fun _ _ => rfl).bind ?_
  rintro W₁ s₁ t₁ fragment _ grows₁ rfl
  refine (Corresponds.lookup place.withoutFragment fragment).bind
    fun W₂ s₂ t₂ raw raw' grows₂ hraw => .pure ⟨hraw, rfl⟩

lemma corresponds_followAliases (limit : Nat) (seen : List Address) {raw raw' : Node}
    (document : Address) (hraw : raw.Matches W raw') :
    Corresponds W s t (followAliases limit seen raw document)
      (followAliases limit seen raw' document) fun W' p q => p.1.Matches W' q.1 ∧ p.2 = q.2 := by
  induction limit generalizing W s t seen raw raw' document with
  | zero => exact .throw _
  | succ limit ih =>
    rw [followAliases, followAliases]
    split
    case h_1 reference hbare =>
      rw [(Node.bare_congr hraw.forget).1 hbare]
      refine (Corresponds.ofExcept (R := fun _ => Eq) fun _ _ => rfl).bind ?_
      rintro W₁ s₁ t₁ target _ grows₁ rfl
      dsimp only
      split
      · exact .pure ⟨hraw.mono grows₁, rfl⟩
      · refine (corresponds_rawAt target.place).bind ?_
        rintro W₂ s₂ t₂ ⟨next, document₂⟩ ⟨next', _⟩ grows₂ ⟨hnext, rfl⟩
        exact ih (target.place :: seen) document₂ hnext
    case h_2 hmore =>
      split
      case h_1 reference hbare => exact absurd ((Node.bare_congr hraw.forget).2 hbare) (hmore _)
      case h_2 => exact .pure ⟨hraw, rfl⟩

lemma corresponds_closeCycle (limit depth : Nat) {raw raw' : Node} (document : Address)
    (hraw : raw.Matches W raw') :
    Corresponds W s t (closeCycle limit depth raw document)
      (closeCycle limit depth raw' document) Node.Matches := by
  refine (Corresponds.modify fun like => like.cutAt depth).bind fun W₁ s₁ t₁ _ _ grows₁ _ => ?_
  refine (corresponds_followAliases limit [] document (hraw.mono grows₁)).bind ?_
  rintro W₂ s₂ t₂ ⟨found, document₂⟩ ⟨found', _⟩ grows₂ ⟨hfound, rfl⟩
  refine .fresh hfound.truth ?_
  have hfacets := List.rel_filter (p := Keyword.isFacet) (q := Keyword.isFacet)
    (fun k l (hl : Keyword.Related (Node.Matches W₂) k l) => by cases hl <;> rfl) hfound.keywords
  exact hfacets

/-- **The expansions of a target from resolvers that are like one another correspond.** -/
theorem corresponds_expandTarget (limit : Nat) (target : Address) :
    Corresponds W s t (expandTarget limit target) (expandTarget limit target) Node.Matches := by
  induction limit generalizing W s t target with
  | zero => exact .throw _
  | succ limit ih =>
    rw [expandTarget]
    refine .get fun like => ?_
    rcases Registry.option_map_forget (like.expansions target.place) with
      ⟨hkept', hkept⟩ | ⟨m, n, hkept', hkept, hforget⟩
    · rw [hkept, hkept']
      refine (Corresponds.ofExcept (R := fun _ => Eq) fun _ _ => rfl).bind ?_
      rintro W₁ s₁ t₁ fragment _ grows₁ rfl
      refine (corresponds_rawAt target.place).bind ?_
      rintro W₂ s₂ t₂ ⟨raw, document⟩ ⟨raw', _⟩ grows₂ ⟨hraw, rfl⟩
      refine .get fun like₂ => ?_
      rw [like₂.active]
      split
      case h_1 depth _ => exact corresponds_closeCycle limit depth document hraw
      case h_2 =>
        refine (Corresponds.inside target.place ?_).bind ?_
        · exact corresponds_expandNode (fun _ _ _ target => ih target) raw W₂ _ _ raw' hraw
        rintro W₃ s₃ t₃ ⟨n, complete⟩ ⟨n', _⟩ grows₃ ⟨hn, rfl⟩
        dsimp only
        split
        · refine (Corresponds.modify fun like => like.keep target.place fragment hn).bind
            fun W₄ _ _ _ _ grows₄ _ => .pure (hn.mono grows₄)
        · exact .pure hn
    · rw [hkept, hkept']
      exact .pure ⟨like.listed _ n hkept, hforget.symm⟩

/-- **Resolution cannot tell resolvers that are like one another apart.**  A document resolves to
trees that match, or fails with the same error, and leaves resolvers that are like one another. -/
theorem corresponds_document (limit : Nat) (address : Address) :
    Corresponds W s t (document limit address) (document limit address) Node.Matches :=
  corresponds_expandTarget limit address.withoutFragment

end Resolution

end SchemaCatalog
