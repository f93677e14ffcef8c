import SchemaCatalog.Proofs.Resolution.Done
import SchemaCatalog.Proofs.Resolution.Reports
import SchemaCatalog.Proofs.Resolution.Sharing

/-!
# Stubs keep the facets of their targets

Where a cycle closes, the reference is given a stub of its target.  The stub is read off the node
in which the chain of aliases from the target ends, while the expansion of the target merges
keywords along its references, but they agree (`stub_of_completed`).  Over documents without
anchors, every stub that any call gives for a target has the facets that come first in whatever
expansion of the target is kept, in that session or in another one; and it is the stub of that
expansion, unless the target extends another one by a reference in company.  By design a stub
follows bare references alone, so it has nothing of the target that is extended
(`stub_of_extended`).

For the facets of an expansion it is enough to look at one tree (`Bears.of_replaced`).  That the
stub is read off the documents, and not off an expansion that was kept under the name of the place
in the meantime, is where the order of the resolver is needed (`Orderly`).
-/

namespace SchemaCatalog

open Relation

namespace Registry

variable {r : Registry}

lemma Offers.decoded {K : Keyword → Prop} (h : r.Offers (Node.Throughout (Node.Carries K))) :
    r.Decoded := fun _ _ hn htruth => (h.raw hn).self.truth htruth

end Registry

namespace Resolution

open Resolver

variable {r r' : Registry} {s s' : Resolver} {stack : List Address} {p : Address} {m n raw : Node}

/-- Whether the stubs in an account are those of their targets. -/
def Account.Upholds (r : Registry) : Account → Prop
  | .stub place n => r.Stub place n.forget
  | .expansion _ _ _ _ => True

/-- The discipline of a resolver with the targets of a stack in progress. -/
def orderly (r : Registry) (stack : List Address) : Discipline where
  inv s := s.Orderly r ∧ s.active = stack
  later := Onward
  refl := .refl
  trans := .trans

/-- What is said of a node that is given for a target. -/
structure Given (r : Registry) (s : Resolver) (p : Address) (m : Node) : Prop where
  free : m.hasReferences = false
  lasts : m.Throughout (Node.Carries Keyword.Nameless)
  bears : r.Bears p m
  marked : s.Marked r p

lemma Given.of_kept (h : s.Orderly r) (hm : OrderedMap.get? s.expansions p = some m) :
    Given r s p m where
  free := (h.kept p m hm).1
  lasts := h.offers.expansions _ (OrderedMap.mem_of_get?_eq_some hm)
  bears := (h.kept p m hm).2
  marked := by
    refine .of_done (.inl ⟨m, hm⟩) fun hp => ?_
    rw [h.unkept p hp] at hm
    cases hm

/-! ## Trees -/

lemma setAnchors_nameless (hraw : raw.Throughout (Node.Carries Keyword.Nameless))
    (hm : m ∈ raw.nodes) (registry : Registry) (current : Address) :
    registry.setAnchors current m = registry := by
  unfold Registry.setAnchors
  rw [Node.anchors_eq_nil (hraw.of_mem_nodes hm)]
  rfl

/-- What the expansion of a tree asks for, if targets are given what they should be. -/
lemma serves_nameless {limit : Nat}
    (hraw : raw.Throughout (Node.Carries Keyword.Nameless))
    (hexpand : ∀ m ∈ raw.nodes, ∀ reference, m.references = [reference] →
      ∀ t, p.target reference = .ok t → ∀ s,
        ((orderly r stack).reporting (Account.Upholds r)).ensures (accountTarget limit t) s
          (fun m s' => Given r s' t.place m) fun _ => True) :
    ((orderly r stack).reporting (Account.Upholds r)).Serves (fun s t m => Given r s t.place m)
      (fun _ => True) (accountTarget limit) p raw where
  stable _ _ _ _ hlater h := { h with marked := h.marked.onward hlater }
  fresh s n := reporting_onRegistry fun hs => by
    have halike := s.registry.alike_renew n
    exact ⟨⟨hs.1.alike halike, hs.2⟩, .alike halike, rfl, rfl⟩
  anchors m hm s := reporting_onRegistry fun hs => by
    rw [setAnchors_nameless hraw hm]
    exact ⟨hs, .refl s, trivial⟩
  expand := hexpand
  malformed _ _ _ _ _ _ := trivial
  several _ _ _ := trivial

/-- The discipline of a resolver that changes nothing but its registry, and that to one that is
alike. -/
def still (start : Resolver) : Discipline where
  inv s := ∃ r, s = start.withRegistry r ∧ start.registry.Alike r
  later _ _ := True
  refl _ := trivial
  trans _ _ := trivial

lemma reports_still {expand : Address → Accounting Node} {current : Address} {l : Ledger}
    {P : Account → Prop} (hfree : raw.hasReferences = false)
    (hraw : raw.Throughout (Node.Carries Keyword.Nameless)) (hl : Ledger.All P l) :
    Reports (still s) P s (fun m _ => raw.Copies m) (fun _ => False)
      (expandNode expand current raw s l) := by
  refine Logic.expandNode_of_referenceFree (L := (still s).reporting P) hfree ?_ ?_ s
    ⟨s.registry, rfl, .refl _⟩ l hl
  · refine fun s' n => reporting_onRegistry ?_
    rintro ⟨r, rfl, halike⟩
    exact ⟨⟨_, rfl, halike.trans (r.alike_renew n)⟩, trivial, rfl, rfl, rfl⟩
  · refine fun m hm s' => reporting_onRegistry fun hs => ?_
    rw [setAnchors_nameless hraw hm]
    exact ⟨hs, trivial, trivial⟩

/-! ## Targets that are opened -/

/-- Once the tree at a target has been expanded, the target is given what it should be. -/
lemma given_settled {before : Resolver} {fragment : String}
    (hp : p ∉ before.active) (hfragment : p.fragmentText = .ok fragment) (hn : r.raw p = .ok n)
    (hforget : raw.forget = n.forget) (hraw : raw.Throughout (Node.Carries Keyword.Nameless))
    (hs : s'.Orderly r) (hlater : (before.enter p).Onward s')
    (h : Replaced (fun t m => Given r s' t.place m) p.withoutFragment raw m) :
    (s'.settle before p fragment m).Orderly r ∧ before.Onward (s'.settle before p fragment m) ∧
      Given r (s'.settle before p fragment m) p m := by
  have hactive : s'.active = before.active ++ [p] := hlater.active
  have hfree := h.hasReferences_eq_false fun _ _ hm => hm.free
  have hlasts := h.throughout Keyword.lasting_nameless (fun _ _ hm => hm.lasts) hraw
  have hbears : r.Bears p m := .of_replaced hn hforget (h.mono fun _ _ hm => hm.bears)
  have hmarked : ∀ q, r.Refers p q → s'.Marked r q := by
    rintro q ⟨n', hn', hq⟩
    obtain rfl := Except.ok.inj (hn.symm.trans hn')
    rw [← Node.targets_forget, ← hforget, Node.targets_forget, ← Node.targets_withoutFragment] at hq
    obtain ⟨t, l, rfl, hl⟩ := h.exists_of_mem_targets hq
    exact hl.marked
  have hleft : before.Onward (s'.leave before) := .leave hlater
  unfold settle
  cases hcut : s'.openCut before.active.length with
  | none =>
    have hnone : OrderedMap.get? (s'.leave before).expansions p = none :=
      hs.unkept p (by simp [hactive])
    have hp' : p ∉ (s'.leave before).active := by rwa [hleft.active]
    rw [if_pos Option.isNone_none]
    refine ⟨(hs.leave hactive).keep hp' hnone hfragment hfree hlasts hbears (.inr ?_),
      hleft.keep p fragment m, hfree, hlasts, hbears, .of_done done_keep_self hp'⟩
    intro q hpq z hz
    exact not_reaches_of_openCut hactive hp hcut hmarked hpq (by rwa [hleft.active] at hz)
  | some c =>
    rw [if_neg (by simp)]
    exact ⟨hs.leave hactive, hleft, hfree, hlasts, hbears, .leave hactive hp hmarked⟩

/-- What is asked of the report of a target that is expanded inside those in progress. -/
def Opens (r : Registry) (s : Resolver) (p : Address) (fragment : String) (raw : Node)
    (o : Report Node) : Prop :=
  Reports (orderly r s.active) (Account.Upholds r) s (fun m s' => Given r s' p m) (fun _ => True)
    (o.settle s p fragment raw)

/-- A target whose place is named is given what stands there, which is kept as it is. -/
lemma opens_of_done {expand : Address → Accounting Node} {fragment : String} {l : Ledger}
    (hs : s.Orderly r) (hp : p ∉ s.active) (hnone : OrderedMap.get? s.expansions p = none)
    (hfragment : p.fragmentText = .ok fragment) (hdone : s.Done p)
    (hfree : raw.hasReferences = false) (hbears : r.Bears p raw)
    (hraw : raw.Throughout (Node.Carries Keyword.Nameless))
    (hl : Ledger.All (Account.Upholds r) l) :
    Opens r s p fragment raw (expandNode expand p.withoutFragment raw (s.enter p) l) := by
  refine (reports_still hfree hraw hl).settle (fun _ _ => trivial) ?_
    fun _ _ _ _ hfalse => hfalse.elim
  rintro m s' ⟨r₁, rfl, halike⟩ - hcopies
  have hm := hcopies.forget_eq.symm
  have hlater : s.Onward (s.withRegistry r₁) := .alike halike
  have hfree := Node.hasReferences_of_forget hm hfree
  have hbears := hbears.congr hm
  have hlasts := hraw.forget Keyword.lasting_nameless hm
  rw [settle_enter]
  refine ⟨⟨?_, rfl⟩, hlater.keep p fragment m, hfree, hlasts, hbears, .of_done done_keep_self hp⟩
  exact (hs.alike halike).keep hp hnone hfragment hfree hlasts hbears (.inl (hlater.done p hdone))

/-- A target that is not done with is given what it should be, if those are to which it refers. -/
lemma opens_of_not_done {limit : Nat} {fragment : String} {l : Ledger} (hs : s.Orderly r)
    (hp : p ∉ s.active) (hnot : ¬ s.Done p) (hfragment : p.fragmentText = .ok fragment)
    (hn : r.raw p = .ok n) (hforget : raw.forget = n.forget)
    (hraw : raw.Throughout (Node.Carries Keyword.Nameless))
    (hl : Ledger.All (Account.Upholds r) l)
    (hexpand : ∀ t : Address, r.Refers p t.place → ∀ s',
      ((orderly r (s.active ++ [p])).reporting (Account.Upholds r)).ensures (accountTarget limit t)
        s' (fun m s' => Given r s' t.place m) fun _ => True) :
    Opens r s p fragment raw
      (expandNode (accountTarget limit) p.withoutFragment raw (s.enter p) l) := by
  have hserves := serves_nameless hraw fun m hm reference hone t ht =>
    hexpand t (.of_mem_nodes hn hforget hm hone ht)
  refine (Logic.expandNode hserves _ ⟨hs.enter hnot, rfl⟩ l hl).settle (fun _ _ => trivial) ?_ ?_
  · rintro m s' ⟨hs', -⟩ hlater hreplaced
    obtain ⟨hs', hlater, hgiven⟩ := given_settled hp hfragment hn hforget hraw hs' hlater hreplaced
    exact ⟨⟨hs', hlater.active⟩, hlater, hgiven⟩
  · rintro e s' ⟨hs', hactive⟩ hlater -
    have hlater : s.Onward (s'.leave s) := .leave hlater
    exact ⟨⟨hs'.leave hactive, hlater.active⟩, hlater, trivial⟩

section Session

variable (fresh : r.anchors = [])
  (nameless : r.Offers (Node.Throughout (Node.Carries Keyword.Nameless)))
include fresh nameless

/-! ## Cycles -/

lemma closeCycle_given {limit depth : Nat} (hs : s.Orderly r)
    (hchain : List.IsChain r.Refers (s.active ++ [p])) (hdepth : s.active.idxOf? p = some depth)
    (hn : s.registry.raw p = .ok n) (hforget : raw.forget = n.forget) :
    Ensures (closeCycle limit depth raw p.withoutFragment) s
      (fun m s' => (s'.Orderly r ∧ s.Onward s') ∧ r.Stub p m.forget ∧ Given r s' p m)
      (fun _ s' => s'.Orderly r ∧ s.Onward s') := by
  obtain ⟨outer, inner, hactive⟩ : ∃ outer inner, s.active = outer ++ p :: inner := by
    obtain ⟨hlt, hget, -⟩ := List.idxOf?_eq_some_iff.1 hdepth
    exact List.append_of_mem (hget ▸ List.getElem_mem hlt)
  rw [hactive, List.append_assoc] at hchain
  have hcycle : List.IsChain r.Refers ((p :: inner) ++ [p]) := hchain.right_of_append
  -- Aliases lead around the cycle, on which nothing is done with and so all is raw as it was.
  have hnot := (hs.not_done_of_isChain hactive hcycle (by simp)).1
  have hclosed : ∀ x ∈ p :: inner, ∀ y, r.AliasTo x y → y ∈ p :: inner := fun x hx y hxy =>
    hxy.mem_of_isChain hcycle List.mem_cons_self hx
  have hsame := fun x hx => hs.raw_forget fresh (hnot x hx)
  obtain ⟨n', hn', hforget'⟩ := Registry.ok_of_map_forget (hsame p List.mem_cons_self) hn
  have hraw := (hs.offers.registry.raw hn).forget Keyword.lasting_nameless hforget.symm
  have hcut : s.Onward (s.cutAt depth) := .cutAt s depth
  have hstubs : Ensures (followAliases limit [] raw p.withoutFragment) (s.cutAt depth)
      (fun found _ => r.Stub p found.1.cycleStub.forget) fun _ _ => True :=
    followAliases_stub hclosed hsame List.mem_cons_self .refl hn' (hforget.trans hforget')
      fun x hx => absurd hx List.not_mem_nil
  have haliases := hstubs.and (followAliases_lasting Keyword.lasting_nameless [] p.withoutFragment
    (hs.cutAt depth).offers.registry hraw)
  refine closeCycle_ensures haliases ?_ ?_
  · rintro found r' halike ⟨hstub, hlasts⟩
    have hrenewed := halike.trans (r'.alike_renew { found.1.cycleStub with base := some found.2 })
    have hlater := hcut.trans (.alike (s := s.cutAt depth) hrenewed)
    refine ⟨⟨(hs.cutAt depth).alike hrenewed, hlater⟩, hstub, ?_, ?_, ?_, ?_⟩
    · refine Node.hasReferences_of_isLeaf (List.all_eq_true.2 fun k hk => ?_)
      exact (List.mem_filter.1 hk).2
    · refine (hlasts.cycleStub (some found.2)).forget Keyword.lasting_nameless ?_
      rw [Node.forget_eq, Node.forget_eq]
      rfl
    · exact Registry.Stub.bears nameless.decoded hstub
    · exact (Marked.cutAt hdepth).onward (.alike (s := s.cutAt depth) hrenewed)
  · intro e r' halike _
    exact ⟨(hs.cutAt depth).alike halike, hcut.trans (.alike (s := s.cutAt depth) halike)⟩

/-! ## Targets -/

/-- **Every target is given what it should be, and so are those called for inside.** -/
theorem accountTarget_given {limit : Nat} {target : Address}
    (hchain : List.IsChain r.Refers (stack ++ [target.place])) (s : Resolver) :
    ((orderly r stack).reporting (Account.Upholds r)).ensures (accountTarget limit target) s
      (fun m s' => Given r s' target.place m) fun _ => True := by
  induction limit generalizing target stack s with
  | zero => exact Logic.throw _ trivial
  | succ limit ih =>
    rintro ⟨hs, rfl⟩ l hl
    refine accountTarget_cases (P := fun _ report => Reports (orderly r s.active)
      (Account.Upholds r) s (fun m s' => Given r s' target.place m) (fun _ => True) report)
      ?kept ?missing ?cycle ?opened
    case kept =>
      intro m hm
      refine .of_ok ⟨hs, rfl⟩ (.refl s) hl (fun a ha => ?_) (.of_kept hs hm)
      exact hl _ a (Option.mem_toList.1 ha)
    case missing =>
      intro _ e r' halike _
      exact .of_error ⟨hs.alike halike, rfl⟩ (.alike halike) hl (List.forall_mem_nil _) trivial
    case cycle =>
      intro _ n raw r' halike hn hforget depth hdepth
      obtain ⟨n', hn', hforget'⟩ := Registry.ok_of_map_forget (halike.raw _).symm hn
      refine (closeCycle_given fresh nameless (hs.alike halike) hchain hdepth hn'
        (hforget.trans hforget')).mono ?_ ?_
      · rintro m s' ⟨⟨hs', hlater⟩, hstub, hgiven⟩
        refine .since (.of_ok ⟨hs', hlater.active⟩ hlater hl ?_ hgiven) (.alike halike)
        exact List.forall_mem_singleton.2 (.stub hstub)
      · rintro e s' ⟨hs', hlater⟩
        refine .since (.of_error ⟨hs', hlater.active⟩ hlater hl ?_ trivial) (.alike halike)
        exact List.forall_mem_nil _
    case opened =>
      intro hnone n raw r' halike hn hforget hplace fragment hfragment
      have hbefore : (s.withRegistry r').Orderly r := hs.alike halike
      have hraw := (hs.offers.registry.raw hn).forget Keyword.lasting_nameless hforget.symm
      have hopens : Opens r (s.withRegistry r') target.place fragment raw
          (expandNode (accountTarget limit) target.place.withoutFragment raw
            ((s.withRegistry r').enter target.place) l) := by
        by_cases hdone : s.Done target.place
        · obtain ⟨hfree, hbears⟩ := hs.raw_of_done hdone hnone hn
          exact opens_of_done hbefore hplace hnone hfragment ((done_withRegistry halike).2 hdone)
            (Node.hasReferences_of_forget hforget.symm hfree) (hbears.congr hforget.symm) hraw hl
        · obtain ⟨n', hn', hforget'⟩ := Registry.ok_of_map_forget (hs.raw_forget fresh hdone) hn
          refine opens_of_not_done hbefore hplace ((done_withRegistry halike).not.2 hdone) hfragment
            hn' (hforget.trans hforget') hraw hl fun t ht => ih ?_
          show List.IsChain r.Refers (s.active ++ [target.place] ++ [t.place])
          rw [List.append_assoc, List.singleton_append, List.isChain_append_cons_cons]
          exact ⟨hchain, ht, .singleton _⟩
      exact Reports.since hopens (.alike halike)

end Session

end Resolution

/-! ## Sessions -/

namespace Resolver

open Resolution

/-- Whether a property holds of the node that a call takes, if it takes one. -/
def Call.Takes (P : Node → Prop) : Call → Prop
  | .document _ _ => True
  | .node _ n _ => P n

variable {r : Registry} (fresh : r.anchors = [])
  (nameless : r.Offers (Node.Throughout (Node.Carries Keyword.Nameless)))
include fresh nameless

/-- One call keeps the order of the resolver, and the stubs that it gives are those of their
targets. -/
lemma Call.orderly {call : Call}
    (hcall : call.Takes (Node.Throughout (Node.Carries Keyword.Nameless))) (s : Resolver) :
    ((orderly r []).reporting (Account.Upholds r)).ensures call.accounting s (fun _ _ => True)
      fun _ => True := by
  have hgiven (limit : Nat) (t : Address) (s : Resolver) :
      ((Resolution.orderly r []).reporting (Account.Upholds r)).ensures (accountTarget limit t) s
        (fun m s' => Given r s' t.place m) fun _ => True := by
    have hchain : List.IsChain r.Refers ([] ++ [t.place]) := .singleton _
    exact accountTarget_given fresh nameless hchain s
  cases call with
  | document limit address =>
    exact Logic.mono _ (hgiven limit address.withoutFragment s) fun _ _ _ _ => trivial
  | node limit n current =>
    have hadopt : ((Resolution.orderly r []).reporting (Account.Upholds r)).ensures
        (onRegistry (·.adopt n) : Accounting Node) s
        (fun m _ => m.Throughout (Node.Carries Keyword.Nameless)) fun _ => True := by
      refine reporting_onRegistry fun hs => ?_
      have halike := s.registry.alike_adopt n
      exact ⟨⟨hs.1.alike halike, hs.2⟩, .alike halike,
        Node.Throughout.forget Keyword.lasting_nameless hcall (s.registry.forget_adopt n).symm⟩
    refine Logic.bind _ hadopt fun m s' _ hm => ?_
    have hexpand := Logic.expandNode
      (serves_nameless (r := r) (p := current) hm fun _ _ _ _ t _ s => hgiven limit t s) s'
    exact Logic.mono _ hexpand fun _ _ _ _ => trivial

/-- However a session goes, the resolver is in order and the stubs that are filed are those of their
targets. -/
theorem orderly_after {calls : List Call}
    (hcalls : ∀ call ∈ calls, call.Takes (Node.Throughout (Node.Carries Keyword.Nameless)))
    {s : Resolver} {l : Ledger} (hs : (orderly r []).inv s) (hl : Ledger.All (Account.Upholds r) l)
    (hcovers : Ledger.Covers l s.expansions) :
    (orderly r []).inv (s.after calls) ∧
      Ledger.All (Account.Upholds r) (s.ledgerAfter l calls) := by
  induction calls generalizing s l with
  | nil => exact ⟨hs, hl⟩
  | cons call calls ih =>
    obtain ⟨hcall, hcalls⟩ := List.forall_mem_cons.1 hcalls
    obtain ⟨hsound, hrun⟩ := call.sound hcovers
    have hreports := Call.orderly fresh nameless hcall s hs l hl
    have hinv := hreports.inv
    have hcovers := hsound.covers
    rw [hrun] at hinv hcovers
    exact ih hcalls hinv hreports.ledger hcovers

/-- **Stubs keep the facets of their targets.**  Take a fresh registry over documents without
anchors and any calls for documents, or for nodes without anchors, successful or not.  Every stub
that a call gives for a target is that of the node in which the chain of aliases from the target
ends, or has no keywords if the chain loops.  Wherever an expansion of the target is kept, in this
session or in another one, the facets of the stub come first among those of the expansion; and the
stub is that of the expansion, unless the target extends another one. -/
theorem stub_of_completed {calls calls' : List Call} {call : Call}
    (hcalls : ∀ c ∈ calls ++ call :: calls',
      c.Takes (Node.Throughout (Node.Carries Keyword.Nameless)))
    {a : Account} (ha : a ∈ accounts r calls call) {p : Address} {m n : Node}
    (hstub : Account.stub p m ∈ a.all)
    (hkept : OrderedMap.get? ((ofRegistry r).after calls').expansions p = some n) :
    r.Stub p m.forget ∧ m.facets <+: n.facets ∧
      (¬ r.Extends p → m.forget = n.cycleStub.forget) := by
  have hstart : (orderly r []).inv (ofRegistry r) := ⟨.ofRegistry fresh nameless, rfl⟩
  have hempty : Ledger.All (Account.Upholds r) [] := fun _ _ h => by cases h
  have hcovers : Ledger.Covers [] (ofRegistry r).expansions := fun _ _ h => by cases h
  obtain ⟨hbefore, hcall, hafter⟩ : (∀ c ∈ calls, _) ∧ _ ∧ ∀ c ∈ calls', _ := by
    simpa only [List.forall_mem_append, List.forall_mem_cons] using hcalls
  obtain ⟨hs, hl⟩ := orderly_after fresh nameless hbefore hstart hempty hcovers
  have hm : r.Stub p m.forget :=
    (Call.orderly fresh nameless hcall _ hs _ hl).accounts a ha _ hstub
  have hn : r.Bears p n :=
    ((orderly_after fresh nameless hafter hstart hempty hcovers).1.1.kept p n hkept).2
  have hfacets := hm.of_bears nameless.decoded hn
  rw [Node.facets_forget] at hfacets
  exact ⟨hm, hfacets⟩

end Resolver

/-! ## A target that extends another one -/

lemma Resolution.Account.eq_stub {a : Account} (h : a.place ∈ a.cuts) :
    a = .stub a.place a.node := by
  cases a with
  | stub place node => rfl
  | expansion place raw node inside =>
    have hne := (List.mem_filter.1 h).2
    exact absurd rfl (of_decide_eq_true hne)

/-- The document `mem:extended`.  The schema `t` in it extends the schema `b`, which refers back to
`t` and to itself. -/
def Registry.extendedTarget : Registry :=
  (Registry.register {} (.inMemory "extended") (.ofKeywords
    [.keyed .definitions
      [("first", .ofKeywords [.ref "#/definitions/t"]),
        ("t", .ofKeywords [.ref "#/definitions/b", .facet (.label .description "d")]),
        ("b", .ofKeywords [.facet (.type ["object"]), .keyed .properties
          [("up", .ofKeywords [.ref "#/definitions/t"]),
            ("self", .ofKeywords [.ref "#/definitions/b"])]])]])).2

namespace Registry

lemma extendedTarget_nameless :
    extendedTarget.Offers (Node.Throughout (Node.Carries Keyword.Nameless)) where
  content a doc hdoc := by
    have hmem := mem_documents_of_content rfl hdoc
    have hnodes : ∀ e ∈ extendedTarget.documents, ∀ m ∈ e.2.nodes, m.truth = none ∧ m.anchors = [] ∧
        ∀ f ∈ m.facets, (Keyword.facet f).term?.isSome = true := by decide +kernel
    refine Node.throughout_of_nodes (fun m hm => ?_) fun m hm f hf path => ?_
    · obtain ⟨htruth, hanchors, -⟩ := hnodes _ hmem m hm
      refine ⟨fun hsome => absurd htruth hsome, fun k hk name => ?_⟩
      rintro rfl
      have hname : name ∈ m.anchors :=
        List.mem_filterMap.2 ⟨_, List.mem_filterMap.2 ⟨_, hk, rfl⟩, rfl⟩
      rw [hanchors] at hname
      cases hname
    · have hterm := (hnodes _ hmem m hm).2.2 f hf
      cases f with
      | unrecognized => cases hterm
      | _ => rfl
  anchor? a name n hn := by cases hn

end Registry

namespace Resolver

open Resolution

lemma exists_stub {r : Registry} {calls : List Call} {call : Call} {p : Address} {facets : Nat}
    (h : ∃ a ∈ accounts r calls call, ∃ b ∈ a.all,
      b.place = p ∧ p ∈ b.cuts ∧ b.node.facets.length = facets) :
    ∃ a ∈ accounts r calls call, ∃ m, Account.stub p m ∈ a.all ∧ m.facets.length = facets := by
  obtain ⟨a, ha, b, hb, rfl, hcuts, hfacets⟩ := h
  exact ⟨a, ha, b.node, Account.eq_stub hcuts ▸ hb, hfacets⟩

/-- **A stub has nothing of the target that its own target extends.**  No document has an anchor, a
call gives a stub of `t`, and `t` is kept, but the stub has one facet of two. -/
theorem stub_of_extended : Registry.extendedTarget.anchors = [] ∧
    Registry.extendedTarget.Offers (Node.Throughout (Node.Carries Keyword.Nameless)) ∧
    ∃ a ∈ accounts .extendedTarget [] (.document 5 (.inMemory "extended")), ∃ m n,
      Account.stub (.targetIn "extended") m ∈ a.all ∧
      OrderedMap.get? ((ofRegistry .extendedTarget).after
        [.document 5 (.inMemory "extended")]).expansions (.targetIn "extended") = some n ∧
      m.facets ≠ n.facets ∧ m.forget ≠ n.cycleStub.forget := by
  obtain ⟨a, ha, m, hm, hone⟩ : ∃ a ∈ accounts .extendedTarget []
      (.document 5 (.inMemory "extended")), ∃ m, Account.stub (.targetIn "extended") m ∈ a.all ∧
        m.facets.length = 1 := exists_stub (by decide +kernel)
  have htwo : (OrderedMap.get? ((ofRegistry .extendedTarget).after
      [.document 5 (.inMemory "extended")]).expansions (.targetIn "extended")).map
        (·.facets.length) = some 2 := by decide +kernel
  obtain ⟨n, hn, htwo⟩ := Option.map_eq_some_iff.1 htwo
  have hne : m.facets ≠ n.facets := by
    intro heq
    rw [heq, htwo] at hone
    cases hone
  refine ⟨rfl, Registry.extendedTarget_nameless, a, ha, m, n, hm, hn, hne, fun heq => hne ?_⟩
  rw [Node.facets_of_forget heq, Node.facets_cycleStub]

/-- The schema `b` extends no other one, and its stub is that of its expansion. -/
theorem stub_of_completed_plain :
    ∃ a ∈ accounts .extendedTarget [] (.document 5 (.inMemory "extended")), ∃ p m n,
      Account.stub p m ∈ a.all ∧ OrderedMap.get? ((ofRegistry .extendedTarget).after
        [.document 5 (.inMemory "extended")]).expansions p = some n ∧
      m.facets.length = 1 ∧ m.forget = n.cycleStub.forget := by
  let p : Address := { Address.inMemory "extended" with fragment := some "/definitions/b" }
  obtain ⟨a, ha, m, hm, hone⟩ : ∃ a ∈ accounts .extendedTarget []
      (.document 5 (.inMemory "extended")), ∃ m, Account.stub p m ∈ a.all ∧
        m.facets.length = 1 := exists_stub (by decide +kernel)
  have hsome : (OrderedMap.get? ((ofRegistry .extendedTarget).after
      [.document 5 (.inMemory "extended")]).expansions p).isSome = true := by decide +kernel
  obtain ⟨n, hn⟩ := Option.isSome_iff_exists.1 hsome
  have hraw : (Registry.extendedTarget.raw p).toOption.map
      (fun b => (b.keywords.length, b.references)) = some (2, []) := by decide +kernel
  obtain ⟨b, hb, hshape⟩ := Option.map_eq_some_iff.1 hraw
  obtain ⟨hlength, hreferences⟩ := Prod.mk.inj hshape
  have hends : Registry.extendedTarget.Ends p b := by
    refine ⟨p, .refl, toOption_eq_some.1 hb, fun reference hbare => ?_⟩
    rw [hbare] at hlength
    cases hlength
  have hplain : ¬ Registry.extendedTarget.Extends p := by
    rintro ⟨b', hends', hextends⟩
    exact hextends (hends.unique hends' ▸ hreferences)
  have hstub := stub_of_completed (r := .extendedTarget) rfl Registry.extendedTarget_nameless
    (by simp [Call.Takes]) ha hm hn
  exact ⟨a, ha, p, m, n, hm, hn, hone, hstub.2.2 hplain⟩

end Resolver

end SchemaCatalog
