import SchemaCatalog.Proofs.Resolution.Soundness

/-!
# Resolution is inlining where references are acyclic

The plainest way to resolve references is to put the tree at the target in the place of each
reference and go on inside it.  `inlineTarget` does that: it keeps no expansions and no stack, it
looks nothing up but in the documents themselves, and it visits keywords in their order.  A depth
bounds it, for it does not end where references lead in a circle.

Where they do not, resolution comes to the same: a document resolves exactly when it can be
inlined, and to the same tree, whatever was resolved before.  Both sides are compared with the
expansions of a target.  An expansion of an acyclic target holds no stubs, so it is the inlined
tree (`Expansion.inlineTarget_eq`); and where there is a fault, no depth is enough
(`Fault.inlineTarget_eq_none`).
-/

namespace SchemaCatalog

open Relation

/-! ## Inlining -/

mutual

/-- The tree, which stands in the document at `current`, with what `expand` has for the target of
each reference in the place of the reference. -/
def inlineNode (expand : Address → Option Node) (current : Address) : Node → Option Node
  | ⟨_, truth, _, keywords⟩ => do
    let own ← inlineKeywords expand current keywords
    match keywords.filterMap Keyword.reference? with
    | [] => return { truth, keywords := own }
    | [reference] => do
      let target ← (current.target reference).toOption
      let found ← expand target
      match own with
      | [] => return found
      | own => return { keywords := own ++ found.keywords }
    | _ => none

/-- The keywords that are no references, inlined one by one. -/
def inlineKeywords (expand : Address → Option Node) (current : Address) :
    List Keyword → Option (List Keyword)
  | [] => return []
  | k :: ks => do
    let ks' ← inlineKeywords expand current ks
    if k.reference?.isSome then return ks'
    else
      let k' ← inlineKeyword expand current k
      return k' :: ks'

/-- The keyword with the schemas it holds inlined. -/
def inlineKeyword (expand : Address → Option Node) (current : Address) :
    Keyword → Option Keyword
  | .keyed kind members => do return .keyed kind (← inlineMembers expand current members)
  | .ordered kind schemas => do return .ordered kind (← inlineSchemas expand current schemas)
  | .additionalProperties schema => do
    return .additionalProperties (← inlineNode expand current schema)
  | .ref target => return .ref target
  | .facet a => return .facet a

/-- Named schemas inlined one by one. -/
def inlineMembers (expand : Address → Option Node) (current : Address) :
    List (String × Node) → Option (List (String × Node))
  | [] => return []
  | (name, n) :: members => do
    let n' ← inlineNode expand current n
    let members' ← inlineMembers expand current members
    return (name, n') :: members'

/-- Schemas inlined one by one. -/
def inlineSchemas (expand : Address → Option Node) (current : Address) :
    List Node → Option (List Node)
  | [] => return []
  | n :: schemas => do
    let n' ← inlineNode expand current n
    let schemas' ← inlineSchemas expand current schemas
    return n' :: schemas'

end

namespace Registry

/-- What a place names in its document, the table of anchors left aside. -/
def plainAt (r : Registry) (p : Address) : Option Node := do
  let fragment ← p.fragmentText.toOption
  let doc ← (r.content p).toOption
  placeIn doc fragment

/-- The tree at a place with all references inlined, if that goes no deeper than a depth. -/
def inlineTarget (r : Registry) : Nat → Address → Option Node
  | 0, _ => none
  | depth + 1, p => do
    let n ← r.plainAt p
    inlineNode (fun t => inlineTarget r depth t.place) p.withoutFragment n.forget

end Registry

variable {f g : Address → Option Node} {current : Address} {n m : Node}

/-! ## What inlining gives -/

lemma inlineMembers_eq_some {members members' : List (String × Node)} :
    inlineMembers f current members = some members' ↔
      List.Forall₂ (fun e e' => e.1 = e'.1 ∧ inlineNode f current e.2 = some e'.2)
        members members' := by
  induction members generalizing members' with
  | nil => simp [inlineMembers, eq_comm]
  | cons e members ih =>
    obtain ⟨name, c⟩ := e
    rw [List.forall₂_cons_left_iff]
    simp only [inlineMembers, Option.bind_eq_bind, Option.pure_def, Option.bind_eq_some_iff,
      Option.some.injEq, ih]
    constructor
    · rintro ⟨c', hc, rest, hrest, rfl⟩
      exact ⟨(name, c'), rest, ⟨rfl, hc⟩, hrest, rfl⟩
    · rintro ⟨⟨_, c'⟩, rest, ⟨rfl, hc⟩, hrest, rfl⟩
      exact ⟨c', hc, rest, hrest, rfl⟩

lemma inlineSchemas_eq_some {schemas schemas' : List Node} :
    inlineSchemas f current schemas = some schemas' ↔
      List.Forall₂ (fun c c' => inlineNode f current c = some c') schemas schemas' := by
  induction schemas generalizing schemas' with
  | nil => simp [inlineSchemas, eq_comm]
  | cons c schemas ih =>
    rw [List.forall₂_cons_left_iff]
    simp only [inlineSchemas, Option.bind_eq_bind, Option.pure_def, Option.bind_eq_some_iff,
      Option.some.injEq, ih]
    constructor
    · rintro ⟨c', hc, rest, hrest, rfl⟩
      exact ⟨c', rest, hc, hrest, rfl⟩
    · rintro ⟨c', rest, hc, hrest, rfl⟩
      exact ⟨c', hc, rest, hrest, rfl⟩

lemma inlineKeyword_eq_some {k k' : Keyword} :
    inlineKeyword f current k = some k' ↔
      Keyword.Related (fun c c' => inlineNode f current c = some c') k k' := by
  constructor
  · intro h
    cases k with
    | keyed kind members =>
      simp only [inlineKeyword, Option.bind_eq_bind, Option.pure_def, Option.bind_eq_some_iff,
        Option.some.injEq] at h
      obtain ⟨members', hmembers, rfl⟩ := h
      exact .keyed (inlineMembers_eq_some.1 hmembers)
    | ordered kind schemas =>
      simp only [inlineKeyword, Option.bind_eq_bind, Option.pure_def, Option.bind_eq_some_iff,
        Option.some.injEq] at h
      obtain ⟨schemas', hschemas, rfl⟩ := h
      exact .ordered (inlineSchemas_eq_some.1 hschemas)
    | additionalProperties schema =>
      simp only [inlineKeyword, Option.bind_eq_bind, Option.pure_def, Option.bind_eq_some_iff,
        Option.some.injEq] at h
      obtain ⟨schema', hschema, rfl⟩ := h
      exact .additionalProperties hschema
    | ref target =>
      obtain rfl := Option.some.inj h
      exact .ref
    | facet a =>
      obtain rfl := Option.some.inj h
      exact .facet
  · intro h
    cases h with
    | keyed h =>
      rw [inlineKeyword, inlineMembers_eq_some.2 h]
      rfl
    | ordered h =>
      rw [inlineKeyword, inlineSchemas_eq_some.2 h]
      rfl
    | additionalProperties h =>
      rw [inlineKeyword, h]
      rfl
    | ref => rfl
    | facet => rfl

lemma inlineKeywords_eq_some {ks own : List Keyword} :
    inlineKeywords f current ks = some own ↔
      List.Forall₂ (Keyword.Related fun c c' => inlineNode f current c = some c')
        (ks.filter fun k => k.reference?.isNone) own := by
  induction ks generalizing own with
  | nil => simp [inlineKeywords, eq_comm]
  | cons k ks ih =>
    rw [inlineKeywords]
    cases hk : k.reference? with
    | some reference =>
      have hfilter : (k :: ks).filter (fun k => k.reference?.isNone) =
          ks.filter fun k => k.reference?.isNone := by
        rw [List.filter_cons_of_neg (by simp [hk])]
      rw [hfilter, ← ih]
      cases inlineKeywords f current ks <;> simp
    | none =>
      have hfilter : (k :: ks).filter (fun k => k.reference?.isNone) =
          k :: ks.filter fun k => k.reference?.isNone := by
        rw [List.filter_cons_of_pos (by simp [hk])]
      rw [hfilter, List.forall₂_cons_left_iff]
      simp only [Option.isSome_none, Bool.false_eq_true, if_false, Option.bind_eq_bind,
        Option.pure_def, Option.bind_eq_some_iff, Option.some.injEq, ih, inlineKeyword_eq_some]
      constructor
      · rintro ⟨rest, hrest, k', hk', rfl⟩
        exact ⟨k', rest, hk', hrest, rfl⟩
      · rintro ⟨k', rest, hk', hrest, rfl⟩
        exact ⟨rest, hrest, k', hk', rfl⟩

/-- What comes of a node, once its own keywords are inlined. -/
lemma inlineNode_eq_some {n m : Node} : inlineNode f current n = some m ↔
    ∃ own, List.Forall₂ (Keyword.Related fun c c' => inlineNode f current c = some c') n.own own ∧
      (n.references = [] ∧ m = { truth := n.truth, keywords := own } ∨
        ∃ reference t l, n.references = [reference] ∧ current.target reference = .ok t ∧
          f t = some l ∧
          (own = [] ∧ m = l ∨ own ≠ [] ∧ m = { keywords := own ++ l.keywords })) := by
  obtain ⟨identity, truth, base, keywords⟩ := n
  rw [inlineNode, Option.bind_eq_bind, Option.bind_eq_some_iff]
  refine exists_congr fun own => ?_
  rw [inlineKeywords_eq_some]
  refine and_congr_right fun _ => ?_
  change (match (⟨identity, truth, base, keywords⟩ : Node).references with
    | [] => _
    | [reference] => _
    | _ => _) = some m ↔ _
  split
  case h_1 hnone =>
    simp only [hnone, Option.pure_def, Option.some.injEq, true_and, List.nil_eq, reduceCtorEq,
      false_and, exists_false, or_false]
    exact eq_comm
  case h_2 reference hone =>
    simp only [hone, reduceCtorEq, false_and, false_or, List.cons.injEq, and_true,
      Option.bind_eq_bind, Option.bind_eq_some_iff]
    constructor
    · rintro ⟨t, ht, l, hl, hm⟩
      refine ⟨reference, t, l, rfl, toOption_eq_some.1 ht, hl, ?_⟩
      cases own with
      | nil => exact .inl ⟨rfl, (Option.some.inj hm).symm⟩
      | cons k own => exact .inr ⟨List.cons_ne_nil k own, (Option.some.inj hm).symm⟩
    · rintro ⟨_, t, l, rfl, ht, hl, hm⟩
      refine ⟨t, by rw [ht]; rfl, l, hl, ?_⟩
      rcases hm with ⟨rfl, rfl⟩ | ⟨hne, rfl⟩
      · rfl
      · cases own with
        | nil => exact absurd rfl hne
        | cons k own => rfl
  case h_3 hnone hone =>
    simp only [reduceCtorEq, false_iff]
    rintro (⟨h, -⟩ | ⟨reference, t, l, h, -⟩)
    · exact hnone h
    · exact hone reference h

/-- An inlined tree is the tree with its references replaced. -/
theorem replaced_of_inlineNode (h : inlineNode f current n = some m) :
    Replaced (fun t l => f t = some l) current n m := by
  induction n using Node.induction_nested generalizing m with
  | step n ih =>
    obtain ⟨own, hown, hm⟩ := inlineNode_eq_some.1 h
    have hreplaced : List.Forall₂ (Keyword.Related (Replaced (fun t l => f t = some l) current))
        n.own own :=
      ((List.forall₂_and_left _ _).2 ⟨fun k hk => (List.mem_filter.1 hk).1, hown⟩).imp
        fun k k' ⟨hk, hrel⟩ => hrel.mono fun c hc c' hc' => ih k hk c hc hc'
    rcases hm with ⟨hnone, rfl⟩ | ⟨reference, t, l, hone, ht, hl, ⟨rfl, rfl⟩ | ⟨hne, rfl⟩⟩
    · refine .plain (fun _ _ hab => hab) hnone rfl ?_
      rwa [Node.own_of_references_eq_nil hnone] at hreplaced
    · exact .bare (Node.keywords_of_own_eq_nil (List.forall₂_nil_right_iff.1 hown) hone) ht hl
    · refine .merged (fun _ _ hab => hab) hone ?_ ht hl hreplaced rfl rfl
      intro hbare
      rw [Node.own_of_bare hbare] at hown
      exact hne (List.forall₂_nil_left_iff.1 hown)

/-- A tree with its references replaced by what `f` has for their targets is the inlined tree. -/
theorem inlineNode_of_replaced {F : Address → Node → Prop} (h : Replaced F current n m)
    (hF : ∀ t l, F t l → f t = some l.forget) : inlineNode f current n = some m.forget := by
  have inlined {P : Node → Node → Prop} {ks ks' : List Keyword}
      (h : List.Forall₂ (Keyword.Related P) ks ks')
      (hP : ∀ a b, P a b → inlineNode f current a = some b.forget) :
      List.Forall₂ (Keyword.Related fun c c' => inlineNode f current c = some c') ks
        (ks'.map (Keyword.map Node.forget)) := by
    rw [List.forall₂_map_right_iff]
    exact h.imp fun k k' hrel => hrel.map_right hP
  induction h with
  | @leaf n isLeaf =>
    have hnone : n.references = [] := (Node.hasReferences_eq_false_iff_nested.1
      (Node.hasReferences_of_isLeaf isLeaf)).1
    refine inlineNode_eq_some.2 ⟨n.keywords, ?_, .inl ⟨hnone, ?_⟩⟩
    · rw [Node.own_of_references_eq_nil hnone, List.forall₂_same]
      intro k hk
      have hfacet := List.all_eq_true.1 isLeaf k hk
      cases k <;> first | exact .facet | cases hfacet
    · have hkeywords : n.keywords.map (Keyword.map Node.forget) = n.keywords := by
        conv_rhs => rw [← List.map_id n.keywords]
        refine List.map_congr_left fun k hk => ?_
        exact Keyword.map_of_isFacet Node.forget (List.all_eq_true.1 isLeaf k hk)
      rw [Node.forget_eq, hkeywords]
  | @plain n r P _ hnone truth keywords ih =>
    refine inlineNode_eq_some.2 ⟨r.keywords.map (Keyword.map Node.forget), ?_, .inl ⟨hnone, ?_⟩⟩
    · rw [Node.own_of_references_eq_nil hnone]
      exact inlined keywords ih
    · rw [Node.forget_eq, truth]
  | @bare n l reference t hbare target found =>
    refine inlineNode_eq_some.2 ⟨[], ?_, .inr ⟨reference, t, l.forget,
      Node.references_of_bare hbare, target, hF t l found, .inl ⟨rfl, rfl⟩⟩⟩
    rw [Node.own_of_bare hbare]
    exact .nil
  | @merged n r l P reference t own _ hone company target found own_replaced truth keywords ih =>
    refine inlineNode_eq_some.2 ⟨own.map (Keyword.map Node.forget), inlined own_replaced ih,
      .inr ⟨reference, t, l.forget, hone, target, hF t l found, .inr ⟨?_, ?_⟩⟩⟩
    · intro hnil
      rw [List.map_eq_nil_iff.1 hnil] at own_replaced
      exact company (Node.keywords_of_own_eq_nil (List.forall₂_nil_right_iff.1 own_replaced) hone)
    · rw [Node.forget_eq, truth, keywords, List.map_append, Node.keywords_forget]

/-! ## Depths -/

namespace Registry

variable {r : Registry} {p q : Address} {depth : Nat}

lemma plainAt_eq_some (fresh : r.anchors = []) : r.plainAt p = some n ↔ r.raw p = .ok n := by
  rw [raw_eq_ok fresh]
  unfold plainAt
  simp only [Option.bind_eq_bind, Option.bind_eq_some_iff, toOption_eq_some]
  constructor
  · rintro ⟨fragment, hfragment, doc, hdoc, hn⟩
    exact ⟨fragment, doc, hfragment, hdoc, hn⟩
  · rintro ⟨fragment, doc, hfragment, hdoc, hn⟩
    exact ⟨fragment, hfragment, doc, hdoc, hn⟩

/-- What inlining takes at a place: the raw tree, with the references replaced. -/
lemma inlineTarget_succ_eq_some (fresh : r.anchors = []) :
    r.inlineTarget (depth + 1) p = some m ↔ ∃ n, r.raw p = .ok n ∧
      inlineNode (fun t => r.inlineTarget depth t.place) p.withoutFragment n.forget = some m := by
  rw [inlineTarget, Option.bind_eq_bind, Option.bind_eq_some_iff]
  simp only [plainAt_eq_some fresh]

lemma inlineTarget_forget (h : r.inlineTarget depth p = some m) : m.forget = m := by
  induction depth generalizing p m with
  | zero => cases h
  | succ depth ih =>
    rw [inlineTarget, Option.bind_eq_bind, Option.bind_eq_some_iff] at h
    obtain ⟨n, -, hn⟩ := h
    have hforget := inlineNode_of_replaced (replaced_of_inlineNode hn) fun t l hl => by
      rw [ih hl]
      exact hl
    exact Option.some.inj (hforget.symm.trans hn)

lemma inlineTarget_succ (h : r.inlineTarget depth p = some m) :
    r.inlineTarget (depth + 1) p = some m := by
  induction depth generalizing p m with
  | zero => cases h
  | succ depth ih =>
    have hm := inlineTarget_forget h
    rw [inlineTarget, Option.bind_eq_bind, Option.bind_eq_some_iff] at h ⊢
    obtain ⟨n, hn, hinline⟩ := h
    refine ⟨n, hn, ?_⟩
    rw [← hm]
    refine inlineNode_of_replaced (replaced_of_inlineNode hinline) fun t l hl => ?_
    rw [inlineTarget_forget hl]
    exact ih hl

theorem inlineTarget_mono {depth' : Nat} (h : r.inlineTarget depth p = some m)
    (hle : depth ≤ depth') : r.inlineTarget depth' p = some m := by
  induction hle with
  | refl => exact h
  | step _ ih => exact inlineTarget_succ ih

theorem inlineTarget_unique {depth' : Nat} {l : Node} (h : r.inlineTarget depth p = some m)
    (h' : r.inlineTarget depth' p = some l) : m = l :=
  Option.some.inj ((inlineTarget_mono h (le_max_left depth depth')).symm.trans
    (inlineTarget_mono h' (le_max_right depth depth')))

lemma exists_depth {Q : Nat → Address → Prop} (mono : ∀ d d' p, d ≤ d' → Q d p → Q d' p)
    (places : List Address) (h : ∀ p ∈ places, ∃ d, Q d p) : ∃ d, ∀ p ∈ places, Q d p := by
  induction places with
  | nil => exact ⟨0, fun p hp => absurd hp List.not_mem_nil⟩
  | cons p places ih =>
    obtain ⟨hp, hplaces⟩ := List.forall_mem_cons.1 h
    obtain ⟨d, hd⟩ := hp
    obtain ⟨d', hd'⟩ := ih hplaces
    refine ⟨max d d', List.forall_mem_cons.2 ⟨mono _ _ _ (le_max_left d d') hd, ?_⟩⟩
    exact fun q hq => mono _ _ _ (le_max_right d d') (hd' q hq)

/-! ## Acyclic targets -/

/-- **An expansion of an acyclic target is its inlined tree.** -/
theorem Expansion.inlineTarget_eq (fresh : r.anchors = []) {opened : List Address}
    (h : r.Expansion opened p m) (hopened : ∀ o ∈ opened, TransGen r.Refers o p)
    (hp : r.Acyclic p) : ∃ depth, r.inlineTarget depth p = some m.forget := by
  induction h with
  | cut inside _ =>
    -- References would lead from the target back to it.
    exact absurd (hopened _ inside) (hp _ .refl)
  | @expand opened p n m P raw _ replaced ih =>
    have hfound : ∀ q ∈ n.targets p, ∀ l, P q l → ∃ d, r.inlineTarget d q = some l.forget := by
      intro q hq l hl
      have hrefers : r.Refers p q := ⟨n, raw, hq⟩
      refine ih q l hl ?_ (hp.refers hrefers)
      intro o ho
      rcases List.mem_cons.1 ho with rfl | ho
      · exact .single hrefers
      · exact (hopened o ho).tail hrefers
    have hdepth : ∃ d, ∀ q ∈ n.targets p, ∀ l, P q l → r.inlineTarget d q = some l.forget := by
      refine exists_depth (Q := fun d q => ∀ l, P q l → r.inlineTarget d q = some l.forget)
        (fun d d' q hle h l hl => inlineTarget_mono (h l hl) hle) _ fun q hq => ?_
      by_cases hex : ∃ l, P q l
      · obtain ⟨l₀, hl₀⟩ := hex
        obtain ⟨d, hd⟩ := hfound q hq l₀ hl₀
        refine ⟨d, fun l hl => ?_⟩
        obtain ⟨d', hd'⟩ := hfound q hq l hl
        rw [inlineTarget_unique hd' hd]
        exact hd
      · exact ⟨0, fun l hl => absurd ⟨l, hl⟩ hex⟩
    obtain ⟨d, hd⟩ := hdepth
    refine ⟨d + 1, (inlineTarget_succ_eq_some fresh).2 ⟨n, raw, ?_⟩⟩
    refine inlineNode_of_replaced (F := fun t l => r.inlineTarget d t.place = some l.forget)
      (replaced.mono_targets fun t l ht hl => hd t.place ?_ l hl) fun t l hl => hl
    rwa [Node.targets_forget, Node.targets_withoutFragment] at ht

/-- Where a target can be inlined, each node of its tree has at most one reference, whose target
can be inlined. -/
lemma references_of_inlineTarget (fresh : r.anchors = []) (hn : r.raw p = .ok n)
    (h : r.inlineTarget depth p ≠ none) {c : Node} (hc : c ∈ n.nodes) : c.references = [] ∨
      ∃ reference t d, c.references = [reference] ∧ p.target reference = .ok t ∧
        r.inlineTarget d t.place ≠ none := by
  obtain ⟨m, hm⟩ := Option.ne_none_iff_exists'.1 h
  cases depth with
  | zero => cases hm
  | succ depth =>
    obtain ⟨n', hn', hinline⟩ := (inlineTarget_succ_eq_some fresh).1 hm
    obtain rfl : n = n' := Except.ok.inj (hn.symm.trans hn')
    have hmem : c.forget ∈ n.forget.nodes := by
      rw [Node.nodes_forget]
      exact List.mem_map_of_mem hc
    rcases (replaced_of_inlineNode hinline).references c.forget hmem with
      hnil | ⟨reference, t, l, hone, ht, hl⟩
    · rw [Node.references_forget] at hnil
      exact .inl hnil
    · rw [Node.references_forget] at hone
      rw [Address.target_withoutFragment] at ht
      refine .inr ⟨reference, t, depth, hone, ht, ?_⟩
      rw [hl]
      exact Option.some_ne_none l

lemma inlineTarget_of_error (fresh : r.anchors = []) {e : ResolveError}
    (h : r.raw p = .error e) : r.inlineTarget depth p = none := by
  cases depth with
  | zero => rfl
  | succ depth =>
    rw [Option.eq_none_iff_forall_ne_some]
    intro m hm
    obtain ⟨n, hn, -⟩ := (inlineTarget_succ_eq_some fresh).1 hm
    rw [h] at hn
    cases hn

/-- **Where there is a fault in an acyclic target, no depth is enough to inline it.** -/
theorem Fault.inlineTarget_eq_none (fresh : r.anchors = []) {e : ResolveError}
    (h : r.Fault p e) (he : ¬ e.IsTooDeep) (hp : r.Acyclic p) (depth : Nat) :
    r.inlineTarget depth p = none := by
  induction h generalizing depth with
  | tooDeep h => exact absurd h he
  | cyclic cycle => exact absurd cycle (hp _ .refl)
  | missing raw => exact inlineTarget_of_error fresh raw
  | @malformed p n c reference e raw mem one target =>
    by_contra hne
    rcases references_of_inlineTarget fresh raw hne mem with hnil | ⟨reference', t, d, hone, ht, -⟩
    · rw [one] at hnil
      cases hnil
    · obtain rfl : reference = reference' := (List.cons.inj (one.symm.trans hone)).1
      rw [target] at ht
      cases ht
  | @several p n c e raw mem more =>
    by_contra hne
    rcases references_of_inlineTarget fresh raw hne mem with hnil | ⟨reference', t, d, hone, -, -⟩
    · rw [hnil, List.length_nil] at more
      omega
    · rw [hone, List.length_singleton] at more
      omega
  | @nested p q e refers _ ih =>
    by_contra hne
    obtain ⟨n, hn, hq⟩ := refers
    obtain ⟨c, hc, reference, hreference, t, ht, rfl⟩ := Node.mem_targets.1 hq
    rcases references_of_inlineTarget fresh hn hne hc with
      hnil | ⟨reference', t', d, hone, ht', hd⟩
    · rw [hnil] at hreference
      cases hreference
    · rw [hone, List.mem_singleton] at hreference
      subst hreference
      obtain rfl : t = t' := Except.ok.inj (ht.symm.trans ht')
      exact hd (ih he (hp.refers ⟨n, hn, hq⟩) d)

end Registry

namespace Resolution

/-- **Where references are acyclic, resolution is inlining, whatever was resolved before.**  Take
a fresh registry over finitely many documents whose anchors are tidy and whose targets are
unambiguous, any calls for documents, successful or not, and a document from which references do
not lead in a circle.  Under every limit that is large enough, the document resolves to a tree
exactly when inlining its references gives that tree. -/
theorem document_eq_inline {r : Registry} (fresh : r.anchors = [])
    (finite : r.documentAddresses.Finite) (tidy : r.TidyAnchors) (distinct : r.Unambiguous)
    (calls : List (Nat × Address)) (a : Address) (acyclic : r.Acyclic a.withoutFragment) :
    ∃ N, ∀ limit, N ≤ limit → ∀ tree,
      (∃ m s', outcome (document limit a) (Resolver.afterDocuments r calls) = (.ok m, s') ∧
        m.forget = tree) ↔
      ∃ depth, r.inlineTarget depth a.withoutFragment = some tree := by
  have hfinite : (Resolver.afterDocuments r calls).registry.documentAddresses.Finite := by
    -- The session has met no documents but those of `r`.
    have hfaithful := (within_afterDocuments fresh tidy distinct calls).faithful
    refine finite.subset ?_
    rintro b ⟨hb, doc, hdoc⟩
    obtain ⟨doc', hdoc', -⟩ := Registry.ok_of_map_forget (hfaithful.content b) hdoc
    exact ⟨hb, doc', hdoc'⟩
  obtain ⟨o, hdeep, N, hN⟩ :=
    document_finishes (Resolver.reachable_afterDocuments r calls) hfinite a
  refine ⟨N, fun limit hlimit tree => ?_⟩
  have hrun := hN limit hlimit
  have hsound := document_expansion fresh tidy distinct calls limit a
  rcases o with ⟨e | m, s'⟩
  · have hnone := (hsound.of_error hrun).inlineTarget_eq_none fresh (hdeep e rfl) acyclic
    constructor
    · rintro ⟨m, s'', hm, -⟩
      rw [hrun] at hm
      cases hm
    · rintro ⟨depth, hdepth⟩
      rw [hnone depth] at hdepth
      cases hdepth
  · obtain ⟨hexpansion, -⟩ := hsound.of_ok hrun
    obtain ⟨depth, hdepth⟩ := hexpansion.inlineTarget_eq fresh
      (fun o ho => absurd ho List.not_mem_nil) acyclic
    rw [Node.forget_forget] at hdepth
    constructor
    · rintro ⟨m', s'', hm', rfl⟩
      rw [hrun] at hm'
      obtain rfl : m = m' := Except.ok.inj (congrArg Prod.fst hm')
      exact ⟨depth, hdepth⟩
    · rintro ⟨depth', hdepth'⟩
      exact ⟨m, s', hrun, Registry.inlineTarget_unique hdepth hdepth'⟩

/-- The document `mem:list` can be inlined, and after another one it resolves to the same tree. -/
theorem document_eq_inline_list :
    ∃ tree, Registry.threeDocuments.inlineTarget 2 (.inMemory "list") = some tree ∧
      ∃ N, ∀ limit, N ≤ limit →
        ∃ m s', outcome (document limit (.inMemory "list"))
          (.afterDocuments .threeDocuments [(3, .inMemory "ring")]) = (.ok m, s') ∧
          m.forget = tree := by
  obtain ⟨N, hN⟩ := document_eq_inline rfl finite_threeDocuments
    Registry.threeDocuments_anchorless.tidyAnchors Registry.threeDocuments_unambiguous
    [(3, .inMemory "ring")] (.inMemory "list") Registry.threeDocuments_acyclic
  obtain ⟨tree, htree⟩ := Option.isSome_iff_exists.1
    (show (Registry.threeDocuments.inlineTarget 2 (.inMemory "list")).isSome = true by
      decide +kernel)
  exact ⟨tree, htree, N, fun limit hlimit => (hN limit hlimit tree).2 ⟨2, htree⟩⟩

end Resolution

end SchemaCatalog
