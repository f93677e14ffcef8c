import SchemaCatalog.Resolver
import SchemaCatalog.Proofs.Resolution.Replacement
import SchemaCatalog.Proofs.Schema.Copies

/-!
# Logics of resolution

What is said of the runs of a program differs from one proof to the next, and so does the monad
the program is read in; how it is proved for a tree does not.  A `Logic` is what the proof needs:
a way to say that a program has results and failures of some kind, and the rules for the programs
that a tree is made of.  Any logic shows of the expansion of a tree what it shows of the
expansions of the targets, and that the result is the tree with the references replaced
(`Logic.expandNode`).  A tree without references needs no targets and is copied
(`Logic.expandNode_of_referenceFree`).
-/

namespace SchemaCatalog

namespace Resolution

/-- A logic of the programs of a monad. -/
structure Logic (m : Type → Type)
    [Monad m] [MonadStateOf Resolver m] [MonadExceptOf ResolveError m] where
  /-- How a resolver may be related to an earlier one. -/
  later : Resolver → Resolver → Prop
  /-- From a resolver on, the results of the program satisfy `ok` and its failures `fail`. -/
  ensures : {α : Type} → m α → Resolver → (α → Resolver → Prop) → (ResolveError → Prop) → Prop
  mono : ∀ {α : Type} {x : m α} {s : Resolver} {ok ok' : α → Resolver → Prop}
    {fail : ResolveError → Prop}, ensures x s ok fail →
    (∀ a s', later s s' → ok a s' → ok' a s') → ensures x s ok' fail
  pure : ∀ {α : Type} {a : α} {s : Resolver} {ok : α → Resolver → Prop}
    {fail : ResolveError → Prop}, ok a s → ensures (pure a) s ok fail
  throw : ∀ {α : Type} {e : ResolveError} {s : Resolver} {ok : α → Resolver → Prop}
    {fail : ResolveError → Prop}, fail e → ensures (throw e) s ok fail
  bind : ∀ {α β : Type} {x : m α} {f : α → m β} {s : Resolver} {ok : α → Resolver → Prop}
    {ok' : β → Resolver → Prop} {fail : ResolveError → Prop}, ensures x s ok fail →
    (∀ a s', later s s' → ok a s' → ensures (f a) s' ok' fail) → ensures (x >>= f) s ok' fail

/-- What the two rounds make of a keyword: its expansion in the round it belongs to and nothing
in the other. -/
def Round (R : Node → Node → Prop) (early : Bool) (k : Keyword) (k' : Option Keyword) : Prop :=
  if isEarly k = early then ∃ l, k' = some l ∧ Keyword.Related R k l else k' = none

/-- The two rounds together leave the expansion of every keyword at its place. -/
lemma rounds_join {R : Node → Node → Prop} {ks : List Keyword} {early late : List (Option Keyword)}
    (hearly : List.Forall₂ (Round R true) ks early) (hlate : List.Forall₂ (Round R false) ks late) :
    List.Forall₂ (Keyword.Related R) ks ((List.zipWith Option.or early late).filterMap id) := by
  induction hearly generalizing late with
  | nil => cases hlate; exact .nil
  | @cons k k' ks early h _ ih =>
    obtain _ | ⟨h', hlate⟩ := hlate
    have ih := ih hlate
    unfold Round at h h'
    cases hk : isEarly k
    · obtain ⟨l, rfl, hl⟩ := by simpa [hk] using h'
      obtain rfl := by simpa [hk] using h
      exact .cons hl ih
    · obtain ⟨l, rfl, hl⟩ := by simpa [hk] using h
      obtain rfl := by simpa [hk] using h'
      exact .cons hl ih

variable {m : Type → Type} [Monad m] [MonadStateOf Resolver m] [MonadExceptOf ResolveError m]

namespace Logic

variable {L : Logic m} {α β : Type} {x : m α} {s : Resolver} {ok : α → Resolver → Prop}
  {fail : ResolveError → Prop}

lemma map {g : α → β} {ok' : β → Resolver → Prop} (hx : L.ensures x s ok fail)
    (hg : ∀ a s', ok a s' → ok' (g a) s') :
    L.ensures (x >>= fun a => Pure.pure (g a)) s ok' fail :=
  L.bind hx fun a s' _ ha => L.pure (hg a s' ha)

lemma ofExcept {a : Except ResolveError α} (hok : ∀ b, a = .ok b → ok b s)
    (hfail : ∀ e, a = .error e → fail e) : L.ensures (Resolution.ofExcept a) s ok fail := by
  cases a with
  | ok b => exact L.pure (hok b rfl)
  | error e => exact L.throw (hfail e rfl)

/-- What the expansion of a tree asks for: nodes are named by their anchors and made new as the
logic has it, targets are expanded to nodes that `F` allows, and each fault of the tree itself is
an error that `fail` allows. -/
structure Serves (L : Logic m) (F : Resolver → Address → Node → Prop)
    (fail : ResolveError → Prop) (expand : Address → m Node) (current : Address)
    (n : Node) : Prop where
  stable : ∀ s s' t m, L.later s s' → F s t m → F s' t m
  fresh : ∀ s n, L.ensures (Resolution.fresh n) s
    (fun m _ => m.truth = n.truth ∧ m.keywords = n.keywords) fail
  anchors : ∀ m ∈ n.nodes, ∀ s, L.ensures (setAnchors current m) s (fun _ _ => True) fail
  expand : ∀ m ∈ n.nodes, ∀ reference, m.references = [reference] →
    ∀ t, current.target reference = .ok t →
      ∀ s, L.ensures (expand t) s (fun m s' => F s' t m) fail
  malformed : ∀ m ∈ n.nodes, ∀ reference, m.references = [reference] →
    ∀ e, current.target reference = .error e → fail e
  several : ∀ m ∈ n.nodes, 1 < m.references.length →
    fail (.malformed (", ".intercalate m.references) .several)

variable {F : Resolver → Address → Node → Prop} {expand : Address → m Node} {current : Address}
  {n : Node}

lemma Serves.nested (h : L.Serves F fail expand current n) {k : Keyword} (hk : k ∈ n.keywords)
    {c : Node} (hc : c ∈ k.nested) : L.Serves F fail expand current c where
  stable := h.stable
  fresh := h.fresh
  anchors m hm := h.anchors m (Node.mem_nodes_of_nested hk hc hm)
  expand m hm := h.expand m (Node.mem_nodes_of_nested hk hc hm)
  malformed m hm := h.malformed m (Node.mem_nodes_of_nested hk hc hm)
  several m hm := h.several m (Node.mem_nodes_of_nested hk hc hm)

/-- The expansion of one tree is such a program, and its results are related to the tree. -/
def Expands (L : Logic m) (R : Resolver → Node → Node → Prop) (fail : ResolveError → Prop)
    (expand : Address → m Node) (current : Address) (c : Node) : Prop :=
  ∀ s, L.ensures (expandNode expand current c) s (fun r s' => R s' c r) fail

section Rounds

variable {R : Resolver → Node → Node → Prop}
  (stable : ∀ s s' a b, L.later s s' → R s a b → R s' a b)
include stable

lemma expandSchemas {schemas : List Node}
    (h : ∀ c ∈ schemas, L.Expands R fail expand current c) (s : Resolver) :
    L.ensures (Resolution.expandSchemas expand current schemas) s
      (fun schemas' s' => List.Forall₂ (R s') schemas schemas') fail := by
  induction schemas generalizing s with
  | nil => exact L.pure .nil
  | cons c schemas ih =>
    obtain ⟨hc, hschemas⟩ := List.forall_mem_cons.1 h
    refine L.bind (hc s) fun r s₁ _ hr => L.bind (ih hschemas s₁) fun schemas' s₂ hlater hrest => ?_
    exact L.pure (.cons (stable _ _ _ _ hlater hr) hrest)

variable [LawfulMonad m]

lemma expandKeyword {k : Keyword} (h : ∀ c ∈ k.nested, L.Expands R fail expand current c)
    (s : Resolver) :
    L.ensures (Resolution.expandKeyword expand current k) s
      (fun k' s' => Keyword.Related (R s') k k') fail := by
  rw [expandKeyword_eq]
  exact map (expandSchemas stable h s) fun _ _ hnested => Keyword.related_withNested hnested

lemma expandKeywords {early : Bool} {ks : List Keyword}
    (h : ∀ k ∈ ks, ∀ c ∈ k.nested, L.Expands R fail expand current c) (s : Resolver) :
    L.ensures (Resolution.expandKeywords expand current early ks) s
      (fun ks' s' => List.Forall₂ (Round (R s') early) ks ks') fail := by
  induction ks generalizing s with
  | nil => exact L.pure .nil
  | cons k ks ih =>
    obtain ⟨hk, hks⟩ := List.forall_mem_cons.1 h
    rw [Resolution.expandKeywords]
    by_cases hearly : isEarly k = early
    · rw [if_pos (by simpa using hearly)]
      refine L.bind (expandKeyword stable hk s) fun k' s₁ _ hk' =>
        L.bind (ih hks s₁) fun ks' s₂ hlater hrest => L.pure (.cons ?_ hrest)
      rw [Round, if_pos hearly]
      exact ⟨k', rfl, hk'.mono fun a _ b => stable _ _ a b hlater⟩
    · rw [if_neg (by simpa using hearly)]
      refine map (ih hks s) fun ks' s₁ hrest => .cons ?_ hrest
      rw [Round, if_neg hearly]

/-- A tree is expanded as its root is put together from expanded keywords, be it a leaf or not. -/
lemma expandNode_of_nested {ok : Node → Resolver → Prop}
    (nested : ∀ k ∈ n.keywords, ∀ c ∈ k.nested, L.Expands R fail expand current c)
    (anchors : ∀ s, L.ensures (setAnchors current n) s (fun _ _ => True) fail)
    (leaf : n.isLeaf = true → ∀ s, ok n s)
    (assemble : ∀ s ks, List.Forall₂ (Keyword.Related (R s)) n.keywords ks →
      L.ensures (Resolution.assemble expand current n ks) s ok fail) (s : Resolver) :
    L.ensures (Resolution.expandNode expand current n) s ok fail := by
  obtain ⟨identity, truth, base, keywords⟩ := n
  rw [Resolution.expandNode]
  refine L.bind (anchors s) fun _ s₁ _ _ => ?_
  split
  case isTrue hleaf => exact L.pure (leaf hleaf s₁)
  case isFalse =>
    refine L.bind (expandKeywords stable nested s₁) fun early s₂ _ hearly =>
      L.bind (expandKeywords stable nested s₂) fun late s₃ hlater hlate => ?_
    refine assemble s₃ _ (rounds_join ?_ hlate)
    refine hearly.imp fun k k' hk => ?_
    unfold Round at hk ⊢
    split at hk
    · obtain ⟨l, rfl, hl⟩ := hk
      rw [if_pos ‹_›]
      exact ⟨l, rfl, hl.mono fun a _ b => stable _ _ a b hlater⟩
    · rw [if_neg ‹_›]
      exact hk

end Rounds

/-- The node that comes of expanded keywords is the node with its references replaced. -/
lemma assemble (h : L.Serves F fail expand current n) {ks : List Keyword} (s : Resolver)
    (hks : List.Forall₂ (Keyword.Related (Replaced (F s) current)) n.keywords ks) :
    L.ensures (Resolution.assemble expand current n ks) s
      (fun r s' => Replaced (F s') current n r) fail := by
  have hreferences : ks.filterMap Keyword.reference? = n.references :=
    Keyword.references_of_related hks
  have hown : List.Forall₂ (Keyword.Related (Replaced (F s) current)) n.own
      (ks.filter fun k => k.reference?.isNone) := Keyword.filter_of_related hks
  rw [Resolution.assemble, hreferences]
  split
  case h_1 hnone =>
    refine L.mono (h.fresh s _) ?_
    rintro r s' hlater ⟨htruth, hkeywords⟩
    refine .plain (fun _ _ hab => Replaced.mono hab fun _ _ => h.stable _ _ _ _ hlater) hnone
      htruth ?_
    rwa [hkeywords]
  case h_2 reference hone =>
    have htarget : L.ensures (Resolution.ofExcept (current.target reference)) s
        (fun t _ => current.target reference = .ok t) fail :=
      ofExcept (fun t ht => ht) (h.malformed n (Node.self_mem_nodes n) reference hone)
    refine L.bind htarget fun t s₁ hlater₁ ht => ?_
    refine L.bind (h.expand n (Node.self_mem_nodes n) reference hone t ht s₁)
      fun m s₂ hlater₂ hm => ?_
    have hstable : ∀ t m, F s t m → F s₂ t m := fun t m hF =>
      h.stable _ _ _ _ hlater₂ (h.stable _ _ _ _ hlater₁ hF)
    split
    case h_1 hempty =>
      refine L.pure (.bare ?_ ht hm)
      rw [hempty] at hown
      exact Node.keywords_of_own_eq_nil (List.forall₂_nil_right_iff.1 hown) hone
    case h_2 hne =>
      refine L.mono (h.fresh s₂ _) ?_
      rintro r s' hlater ⟨htruth, hkeywords⟩
      refine .merged (fun _ _ hab => Replaced.mono hab fun _ _ hF => h.stable _ _ _ _ hlater
        (hstable _ _ hF)) hone ?_ ht (h.stable _ _ _ _ hlater hm) hown htruth hkeywords
      intro hbare
      apply hne
      rw [Node.own_of_bare hbare] at hown
      exact List.forall₂_nil_left_iff.1 hown
  case h_3 hnone hone =>
    refine L.throw (h.several n (Node.self_mem_nodes n) ?_)
    match hr : n.references with
    | [] => exact absurd hr hnone
    | [reference] => exact absurd hr (hone reference)
    | _ :: _ :: _ => simp

variable [LawfulMonad m]

/-- **A logic shows of the expansion of a tree what it shows of those of the targets, and that the
result is the tree with the references replaced.** -/
theorem expandNode (h : L.Serves F fail expand current n) (s : Resolver) :
    L.ensures (Resolution.expandNode expand current n) s
      (fun r s' => Replaced (F s') current n r) fail := by
  induction n using Node.induction_nested generalizing s with
  | step n ih =>
    have hnested : ∀ k ∈ n.keywords, ∀ c ∈ k.nested,
        L.Expands (fun s => Replaced (F s) current) fail expand current c :=
      fun k hk c hc s => ih k hk c hc (h.nested hk hc) s
    refine expandNode_of_nested ?_ hnested (h.anchors n n.self_mem_nodes)
      (fun hleaf _ => .leaf hleaf) (fun s ks hks => assemble h s hks) s
    exact fun s s' a b hlater hab => hab.mono fun _ _ => h.stable _ _ _ _ hlater

/-- A tree without references is copied, and no target is called for. -/
theorem expandNode_of_referenceFree (free : n.hasReferences = false)
    (fresh : ∀ s n, L.ensures (Resolution.fresh n) s
      (fun m _ => m.truth = n.truth ∧ m.base = n.base ∧ m.keywords = n.keywords) fail)
    (anchors : ∀ m ∈ n.nodes, ∀ s, L.ensures (setAnchors current m) s (fun _ _ => True) fail)
    (s : Resolver) :
    L.ensures (Resolution.expandNode expand current n) s (fun r _ => n.Copies r) fail := by
  induction n using Node.induction_nested generalizing s with
  | step n ih =>
    obtain ⟨hnone, hbelow⟩ := Node.hasReferences_eq_false_iff_nested.1 free
    have hnested : ∀ k ∈ n.keywords, ∀ c ∈ k.nested,
        L.Expands (fun _ => Node.Copies) fail expand current c := fun k hk c hc s =>
      ih k hk c hc (hbelow k hk c hc)
        (fun m hm => anchors m (Node.mem_nodes_of_nested hk hc hm)) s
    refine expandNode_of_nested (fun _ _ _ _ _ h => h) hnested (anchors n n.self_mem_nodes)
      (fun _ _ => .refl n) (fun s ks hks => ?_) s
    have hreferences : ks.filterMap Keyword.reference? = [] :=
      (Keyword.references_of_related hks).trans hnone
    rw [Resolution.assemble, hreferences]
    refine L.mono (fresh s _) fun r _ _ ⟨htruth, hbase, hkeywords⟩ => ?_
    exact Node.copies_iff.2 ⟨htruth, hbase, hkeywords ▸ hks⟩

end Logic

end Resolution

end SchemaCatalog
