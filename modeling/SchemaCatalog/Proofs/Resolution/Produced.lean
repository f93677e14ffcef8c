import SchemaCatalog.Proofs.Resolution.Discipline
import SchemaCatalog.Proofs.Schema.FoldedTrees

/-!
# What decoding and resolving produce

`Produced D n` holds of every node that comes of documents that satisfy `D` in any number of steps:
it is decoded, it is a part of such a node, or it is what a resolver makes of such a node or of a
document, in a session over registries that hold such nodes (`Session`).  Nodes that were
produced may be registered and resolved again.

What lasts in a keyword while schemas give way to others (`Keyword.Lasting`) and holds throughout
the documents holds throughout everything that is produced (`Produced.throughout`).  Most of the
proof is about one tree: putting targets in the places of references puts keywords side by side
and changes none (`Replaced.throughout`).
-/

namespace SchemaCatalog

open Resolution

/-! ## Sessions over documents -/

mutual

/-- The nodes that come of decoding documents that satisfy `D` and of resolving them. -/
inductive Produced (D : Json → Prop) : Node → Prop where
  /-- A document is decoded. -/
  | decoded {v : Json} {n : Node} (distinct : v.hasDistinctNames = true) (document : D v)
      (decode : Node.decode v = .ok n) : Produced D n
  /-- A part of a node is taken. -/
  | part {n c : Node} (whole : Produced D n) (part : n.Part c) : Produced D c
  /-- Identities and base addresses are free. -/
  | alike {n m : Node} (tree : Produced D n) (forget : m.forget = n.forget) : Produced D m
  /-- A document is resolved. -/
  | document {s s' : Resolver} {limit : Nat} {address : Address} {m : Node}
      (session : Session D s) (run : outcome (Resolution.document limit address) s = (.ok m, s')) :
      Produced D m
  /-- A node is resolved as part of a document. -/
  | node {s s' : Resolver} {limit : Nat} {current : Address} {n m : Node}
      (session : Session D s) (tree : Produced D n)
      (run : outcome (Resolution.node limit n current) s = (.ok m, s')) : Produced D m

/-- The resolvers of sessions over such nodes. -/
inductive Session (D : Json → Prop) : Resolver → Prop where
  /-- A session starts over a registry that is empty or has a source of documents. -/
  | start {source : Option (Address → Option ByteArray)}
      (documents : ∀ f, source = some f → ∀ a bytes, f a = some bytes → ∀ v,
        Json.readBytes? bytes = some v → D v) : Session D (.ofRegistry { source })
  /-- A session starts over the registry that another one left. -/
  | again {s : Resolver} (session : Session D s) : Session D (.ofRegistry s.registry)
  /-- A document is registered. -/
  | register {s : Resolver} {n : Node} (address : Address) (session : Session D s)
      (tree : Produced D n) : Session D (s.withRegistry (s.registry.register address n).2)
  /-- A place is named. -/
  | setAnchor {s : Resolver} {n : Node} (address : Address) (anchor : String)
      (session : Session D s) (tree : Produced D n) :
      Session D (s.withRegistry (s.registry.setAnchor address anchor n))
  /-- A document is resolved, successfully or not. -/
  | document {s : Resolver} (limit : Nat) (address : Address) (session : Session D s) :
      Session D (outcome (Resolution.document limit address) s).2
  /-- A node is resolved, successfully or not. -/
  | node {s : Resolver} {n : Node} (limit : Nat) (current : Address) (session : Session D s)
      (tree : Produced D n) : Session D (outcome (Resolution.node limit n current) s).2

end

/-! ## What lasts in one tree -/

section Related

variable {R : Node → Node → Prop} {n m : Node} {s : String}

lemma Keyword.find?_of_related {ks ks' : List Keyword} (h : List.Forall₂ (Related R) ks ks')
    {a : Facet} (hfind : ks.find? (·.name = s) = some (.facet a)) :
    ks'.find? (·.name = s) = some (.facet a) := by
  induction h with
  | nil => cases hfind
  | @cons k k' ks ks' hk _ ih =>
    rw [List.find?_cons] at hfind ⊢
    rw [hk.name_eq]
    by_cases hname : k.name = s
    · simp only [hname, decide_true, Option.some.injEq] at hfind ⊢
      subst hfind
      cases hk
      rfl
    · simp only [hname, decide_false] at hfind ⊢
      exact ih hfind

/-- A node keeps the name it carries when schemas give way to others. -/
lemma Node.listedName?_of_related (htruth : m.truth = n.truth)
    (h : List.Forall₂ (Keyword.Related R) n.keywords m.keywords) (hn : n.listedName? = some s) :
    m.listedName? = some s := by
  unfold listedName? at hn ⊢
  split at hn
  case h_2 => cases hn
  case h_1 name t hnone hfind =>
    rw [htruth, hnone, Keyword.find?_of_related h hfind]
    exact hn

end Related

section Lasting

variable {K : Keyword → Prop} {n m : Node}

/-- What lasts is carried by a node whose keywords are related. -/
lemma Node.Carries.related (hK : Keyword.Lasting K) {R : Node → Node → Prop}
    (hR : ∀ a b, R a b → ∀ s, a.listedName? = some s → b.listedName? = some s)
    (htruth : m.truth = n.truth)
    (h : List.Forall₂ (Keyword.Related R) n.keywords m.keywords) (hn : n.Carries K) :
    m.Carries K where
  truth hm := by
    rw [hn.truth (htruth ▸ hm), List.forall₂_nil_left_iff] at h
    exact h
  keywords k hk := by
    obtain ⟨j, hj, hrel⟩ := Keyword.exists_rel_of_mem h.flip hk
    exact hK R hR j k hrel (hn.keywords j hj)

lemma Node.Throughout.forget (hK : Keyword.Lasting K) (h : n.Throughout (Carries K))
    (hforget : n.forget = m.forget) : m.Throughout (Carries K) := by
  refine h.congr (fun a b hab ha => ?_) hforget
  have htruth {a b : Node} (h : a.forget = b.forget) : b.truth = a.truth := by
    rw [← truth_forget, ← h, truth_forget]
  exact ha.related hK
    (fun a b h s => listedName?_of_related (htruth h) (related_of_forget h)) (htruth hab)
    (related_of_forget hab)

/-- What lasts holds throughout a keyword if it does throughout the schemas it holds. -/
lemma Keyword.Throughout.related (hK : Lasting K) {R : Node → Node → Prop} {j k : Keyword}
    (hR : ∀ a b, R a b → ∀ s, a.listedName? = some s → b.listedName? = some s)
    (h : Related R j k) (hj : j.Throughout K)
    (hnested : ∀ a ∈ j.nested, ∀ b, R a b → b.Throughout (Node.Carries K)) : k.Throughout K where
  self := hK R hR j k h hj.self
  nested c hc := by
    obtain ⟨d, hd, hrel⟩ := exists_rel_of_mem h.nested.flip hc
    exact hnested d hd c hrel
  plain a ha := hj.plain a (by cases h <;> exact ha)

lemma Node.Throughout.cycleStub (h : n.Throughout (Carries K)) (base : Option Address) :
    ({ n.cycleStub with base } : Node).Throughout (Carries K) := by
  rw [throughout_carries_iff] at h ⊢
  refine ⟨fun htruth => ?_, fun k hk => h.2 k (List.mem_filter.1 hk).1⟩
  exact List.filter_eq_nil_iff.2 fun k hk => absurd hk (h.1 htruth ▸ List.not_mem_nil)

variable {F : Address → Node → Prop} {current : Address}

/-- A node keeps the name it carries when its references are replaced: a bare reference carries
none, and in company the node's own keywords come first. -/
lemma Replaced.listedName?_eq (h : Replaced F current n m) {s : String}
    (hn : n.listedName? = some s) : m.listedName? = some s := by
  cases h with
  | leaf _ => exact hn
  | plain _ _ truth keywords => exact Node.listedName?_of_related truth keywords hn
  | bare keywords _ _ =>
    unfold Node.listedName? at hn
    rw [keywords] at hn
    split at hn
    case h_1 hfind =>
      cases hfind
    case h_2 => cases hn
  | merged _ _ _ _ _ own_replaced truth keywords =>
    unfold Node.listedName? at hn ⊢
    split at hn
    case h_2 => cases hn
    case h_1 name t hnone hfind =>
      have hown : n.own.find? (·.name = "name") =
          some (.facet (.unrecognized name (.string t))) := by
        rw [Node.own, List.find?_filter, ← hfind]
        congr 1
        funext k
        by_cases hname : k.name = "name"
        · obtain ⟨v, rfl⟩ := Keyword.eq_unrecognized_of_name hname
          rfl
        · simp [hname]
      rw [truth, keywords, List.find?_append, Keyword.find?_of_related own_replaced hown]
      exact hn

/-- What lasts holds throughout a tree whose references are replaced, if it does throughout the
tree and its targets. -/
theorem Replaced.throughout (hK : Keyword.Lasting K) (h : Replaced F current n m)
    (hF : ∀ t l, F t l → l.Throughout (Node.Carries K)) (hn : n.Throughout (Node.Carries K)) :
    m.Throughout (Node.Carries K) := by
  have nested {P : Node → Node → Prop} {ks ks' : List Keyword}
      (sub : ∀ a b, P a b → Replaced F current a b)
      (ih : ∀ a b, P a b → a.Throughout (Node.Carries K) → b.Throughout (Node.Carries K))
      (hrel : List.Forall₂ (Keyword.Related P) ks ks') (hks : ∀ k ∈ ks, k.Throughout K) :
      ∀ k ∈ ks', k.Throughout K := by
    intro k' hk'
    obtain ⟨k, hk, hkk'⟩ := Keyword.exists_rel_of_mem hrel.flip hk'
    exact (hks k hk).related hK (fun a b hab _ => (sub a b hab).listedName?_eq) hkk'
      fun a ha b hab => ih a b hab ((hks k hk).nested a ha)
  induction h with
  | leaf _ => exact hn
  | @plain n r P sub _ truth keywords ih =>
    rw [Node.throughout_carries_iff] at hn ⊢
    refine ⟨fun htruth => ?_, nested sub ih keywords hn.2⟩
    rw [hn.1 (truth ▸ htruth), List.forall₂_nil_left_iff] at keywords
    exact keywords
  | bare _ _ found => exact hF _ _ found
  | @merged n r l P _ _ own sub _ _ _ found own_replaced truth keywords ih =>
    have hl := Node.throughout_carries_iff.1 (hF _ _ found)
    rw [Node.throughout_carries_iff] at hn ⊢
    refine ⟨fun htruth => absurd truth htruth, fun k hk => ?_⟩
    rw [keywords] at hk
    rcases List.mem_append.1 hk with hk | hk
    · exact nested sub ih own_replaced (fun j hj => hn.2 j (List.mem_filter.1 hj).1) k hk
    · exact hl.2 k hk

end Lasting

/-! ## What lasts in a session -/

/-- Whether a property holds of every node that a resolver may come upon. -/
structure Resolver.Offers (P : Node → Prop) (s : Resolver) : Prop where
  registry : s.registry.Offers P
  expansions : ∀ e ∈ s.expansions, P e.2

lemma Resolver.Offers.keep {P : Node → Prop} {s : Resolver} (h : s.Offers P) (place : Address)
    (fragment : String) {n : Node} (hn : P n) : (s.keep place fragment n).Offers P where
  registry := by
    unfold Resolver.keep
    dsimp only
    split
    · exact h.registry
    · exact h.registry.setAnchor _ _ hn
  expansions e he := by
    rcases OrderedMap.eq_or_mem_of_mem_insert he with rfl | he
    · exact hn
    · exact h.expansions e he

section Offers

variable {K : Keyword → Prop} {r r' : Registry} {s : Resolver}

namespace Registry.Offers

lemma alike (hK : Keyword.Lasting K) (h : r.Offers (Node.Throughout (Node.Carries K)))
    (halike : r.Alike r') : r'.Offers (Node.Throughout (Node.Carries K)) where
  content a n hn := by
    obtain ⟨m, hm, hforget⟩ := ok_of_map_forget (halike.content a) hn
    exact (h.content a m hm).forget hK hforget.symm
  anchor? a name n hn := h.anchor? a name n (halike.anchor? a name ▸ hn)

lemma raw (h : r.Offers (Node.Throughout (Node.Carries K))) {place : Address} {n : Node}
    (hn : r.raw place = .ok n) : n.Throughout (Node.Carries K) := by
  obtain ⟨fragment, -, hfound⟩ := bind_eq_ok_iff.1 hn
  obtain ⟨doc, hdoc, hanchor | ⟨-, hplace⟩⟩ := found_cases hfound
  · exact h.anchor? _ _ _ hanchor
  · exact (h.content _ _ hdoc).of_placeIn hplace

lemma register_lasting (hK : Keyword.Lasting K) (h : r.Offers (Node.Throughout (Node.Carries K)))
    (address : Address) {n : Node} (hn : n.Throughout (Node.Carries K)) :
    (r.register address n).2.Offers (Node.Throughout (Node.Carries K)) :=
  h.register (hn.forget hK (r.forget_register address n).symm)

end Registry.Offers

namespace Resolution

/-- The discipline of resolvers that offer nodes throughout which a property lasts. -/
def lasting (K : Keyword → Prop) : Discipline where
  inv s := s.Offers (Node.Throughout (Node.Carries K))
  later _ _ := True
  refl _ := trivial
  trans _ _ := trivial

variable {limit : Nat}

lemma followAliases_lasting (hK : Keyword.Lasting K) (seen : List Address) {raw : Node}
    (document : Address) (hs : s.registry.Offers (Node.Throughout (Node.Carries K)))
    (hraw : raw.Throughout (Node.Carries K)) :
    Ensures (followAliases limit seen raw document) s
      (fun p _ => p.1.Throughout (Node.Carries K)) (fun _ _ => True) := by
  induction limit generalizing seen raw document s with
  | zero => exact trivial
  | succ limit ih =>
    rw [followAliases]
    split
    case h_2 => exact hraw
    case h_1 reference _ =>
      rw [ensures_bind, ensures_ofExcept]
      refine ⟨fun t _ => ?_, fun e _ => trivial⟩
      by_cases hseen : t.place ∈ seen
      · rw [if_pos hseen]
        exact hraw
      · rw [if_neg hseen, ensures_bind]
        apply ensures_rawAt
        · intro n raw' r halike hn hforget
          exact ih _ _ (hs.alike hK halike) ((hs.raw hn).forget hK hforget.symm)
        · exact fun _ _ _ _ => trivial

/-- What lasts throughout the expansions of targets lasts throughout the expansion of a tree. -/
lemma expandNode_lasting (hK : Keyword.Lasting K) {expand : Address → Resolution Node}
    (h : ∀ t s, Keeps (lasting K) (expand t) s (fun m _ => m.Throughout (Node.Carries K))
      fun _ => True) (current : Address) {n : Node} (hn : n.Throughout (Node.Carries K))
    (s : Resolver) :
    Keeps (lasting K) (expandNode expand current n) s
      (fun m _ => m.Throughout (Node.Carries K)) fun _ => True := by
  have hserves : Serves (lasting K) (fun _ _ m => m.Throughout (Node.Carries K)) (fun _ => True)
      expand current n :=
    { stable := fun _ _ _ _ _ hm => hm
      fresh := fun s hs m => ⟨⟨hs.registry.alike hK (s.registry.alike_renew m), hs.expansions⟩,
        trivial⟩
      anchors := fun m hm s hs =>
        ⟨⟨hs.registry.setAnchors current (hn.of_mem_nodes hm), hs.expansions⟩, trivial⟩
      expand := fun _ _ _ _ t _ s => h t s
      malformed := fun _ _ _ _ _ _ => trivial
      several := fun _ _ _ => trivial }
  exact (expandNode_keeps hserves s).mono
    (fun m _ hm => hm.throughout hK (fun _ _ h => h) hn) fun _ h => h

lemma expandTarget_lasting (hK : Keyword.Lasting K) (limit : Nat) (target : Address)
    (s : Resolver) :
    Keeps (lasting K) (expandTarget limit target) s
      (fun m _ => m.Throughout (Node.Carries K)) fun _ => True := by
  induction limit generalizing target s with
  | zero => exact Keeps.throw trivial
  | succ limit ih =>
    intro hs
    have offers {r : Registry} (h : s.registry.Alike r) : (lasting K).inv (s.withRegistry r) :=
      ⟨hs.registry.alike hK h, hs.expansions⟩
    apply expandTarget_ensures
    case kept =>
      exact fun n hn => ⟨hs, trivial, hs.expansions _ (OrderedMap.mem_of_get?_eq_some hn)⟩
    case missing => exact fun _ e r halike _ => ⟨offers halike, trivial, trivial⟩
    case cycle =>
      intro _ n raw r halike hn hforget depth _
      have hraw := (hs.registry.raw hn).forget hK hforget.symm
      refine closeCycle_ensures (followAliases_lasting hK [] _ (offers halike).registry hraw) ?_ ?_
      · intro p r' halike' hp
        refine ⟨⟨?_, hs.expansions⟩, trivial, ?_⟩
        · exact ((offers halike).registry.alike hK halike').alike hK (r'.alike_renew p.1)
        · refine (hp.cycleStub (some p.2)).forget hK ?_
          rw [Node.forget_eq, Node.forget_eq]
          rfl
      · intro e r' halike' _
        exact ⟨⟨(offers halike).registry.alike hK halike', hs.expansions⟩, trivial, trivial⟩
    case opened =>
      intro _ n raw r halike hn hforget _ fragment _
      have hraw := (hs.registry.raw hn).forget hK hforget.symm
      refine (expandNode_lasting hK ih target.withoutFragment hraw
        ((s.withRegistry r).enter target.place)
        ⟨(offers halike).registry, (offers halike).expansions⟩).mono ?_ ?_
      · rintro m s' ⟨hs', -, hm⟩
        have hleft : (lasting K).inv (s'.leave (s.withRegistry r)) :=
          ⟨hs'.registry, hs'.expansions⟩
        exact ⟨fun _ => ⟨Resolver.Offers.keep hleft _ _ hm, trivial, hm⟩,
          fun _ => ⟨hleft, trivial, hm⟩⟩
      · rintro e s' ⟨hs', -, -⟩
        exact ⟨⟨hs'.registry, hs'.expansions⟩, trivial, trivial⟩

lemma document_lasting (hK : Keyword.Lasting K) (limit : Nat) (address : Address) (s : Resolver) :
    Keeps (lasting K) (document limit address) s (fun m _ => m.Throughout (Node.Carries K))
      fun _ => True :=
  expandTarget_lasting hK limit address.withoutFragment s

lemma node_lasting (hK : Keyword.Lasting K) (limit : Nat) {n : Node} (current : Address)
    (hn : n.Throughout (Node.Carries K)) (s : Resolver) :
    Keeps (lasting K) (node limit n current) s (fun m _ => m.Throughout (Node.Carries K))
      fun _ => True := by
  intro hs
  rw [node, ensures_bind, ensures_onRegistry]
  refine expandNode_lasting hK (expandTarget_lasting hK limit) current
    (hn.forget hK (s.registry.forget_adopt n).symm) _ ?_
  exact ⟨hs.registry.alike hK (s.registry.alike_adopt n), hs.expansions⟩

/-- A program that keeps the discipline leaves a resolver that offers no other nodes. -/
lemma Keeps.offers {α : Type} {x : Resolution α} {ok : α → Resolver → Prop}
    {fail : ResolveError → Prop} (hx : Keeps (lasting K) x s ok fail)
    (hs : s.Offers (Node.Throughout (Node.Carries K))) :
    (outcome x s).2.Offers (Node.Throughout (Node.Carries K)) := by
  have hx := hx hs
  rcases ho : outcome x s with ⟨e | m, s'⟩
  · exact (hx.of_error ho).1
  · exact (hx.of_ok ho).1

end Resolution

end Offers

/-! ## What lasts in everything that is produced -/

variable {D : Json → Prop} {K : Keyword → Prop}

/-- The resolver that a session starts from offers what comes of the documents. -/
lemma Resolver.offers_ofRegistry
    (hD : ∀ v n, v.hasDistinctNames = true → D v → Node.decode v = .ok n →
      n.Throughout (Node.Carries K)) {source : Option (Address → Option ByteArray)}
    (documents : ∀ f, source = some f → ∀ a bytes, f a = some bytes → ∀ v,
      Json.readBytes? bytes = some v → D v) :
    (Resolver.ofRegistry { source }).Offers (Node.Throughout (Node.Carries K)) := by
  refine ⟨⟨fun a n hn => ?_, fun _ _ _ hn => nomatch hn⟩, fun _ he => nomatch he⟩
  simp only [Resolver.ofRegistry, Registry.content, OrderedMap.get?] at hn
  split at hn
  case h_1 => cases hn
  case h_2 bytes hbytes =>
    split at hn
    case h_1 => cases hn
    case h_2 m hm =>
      obtain ⟨f, rfl, hf⟩ := Option.bind_eq_some_iff.1 hbytes
      obtain rfl := Except.ok.inj hn
      obtain ⟨v, hv, hdistinct, hm⟩ := Node.ofBytes_eq_ok_iff.1 hm
      exact hD v m hdistinct (documents f rfl _ bytes hf v hv) hm

/-- What lasts and holds throughout the documents holds throughout everything produced from
them. -/
theorem Produced.throughout (hK : Keyword.Lasting K)
    (hD : ∀ v n, v.hasDistinctNames = true → D v → Node.decode v = .ok n →
      n.Throughout (Node.Carries K)) {n : Node} (h : Produced D n) :
    n.Throughout (Node.Carries K) := by
  -- along the way, the resolvers of sessions offer no other nodes
  refine @Produced.rec D (fun n _ => n.Throughout (Node.Carries K))
    (fun s _ => s.Offers (Node.Throughout (Node.Carries K)))
    ?decoded ?part ?alike ?document ?node ?start ?again ?register ?setAnchor ?afterDocument
    ?afterNode n h
  case decoded => exact fun distinct document decode => hD _ _ distinct document decode
  case part => exact fun _ part whole => whole.part part
  case alike => exact fun _ forget tree => tree.forget hK forget.symm
  case document => exact fun _ run session => ((document_lasting hK _ _ _ session).of_ok run).2.2
  case node =>
    exact fun _ _ run session tree => ((node_lasting hK _ _ tree _ session).of_ok run).2.2
  case start => exact fun documents => Resolver.offers_ofRegistry hD documents
  case again => exact fun _ session => ⟨session.registry, by simp [Resolver.ofRegistry]⟩
  case register =>
    exact fun address _ _ session tree =>
      ⟨session.registry.register_lasting hK address tree, session.expansions⟩
  case setAnchor =>
    exact fun address anchor _ _ session tree =>
      ⟨session.registry.setAnchor address anchor tree, session.expansions⟩
  case afterDocument =>
    exact fun limit address _ session => (document_lasting hK limit address _).offers session
  case afterNode =>
    exact fun limit current _ _ session tree =>
      (node_lasting hK limit current tree _).offers session

/-- A document that is registered alone and then resolved leads to a node that is produced. -/
lemma Produced.of_document (limit : Nat) (address : Address) (check : Node → Bool) {v : Json}
    {n : Node} (distinct : v.hasDistinctNames = true) (document : D v)
    (decode : Node.decode v = .ok n) (run : (outcome (Resolution.document limit address)
      ((Resolver.ofRegistry {}).withRegistry (Registry.register {} address n).2)).1.toOption.any
        check = true) :
    ∃ m, Produced D m ∧ check m = true := by
  have session := Session.register address (@Session.start D none fun _ h => nomatch h)
    (.decoded distinct document decode)
  obtain ⟨m, hm, hcheck⟩ := exists_of_any_toOption run
  exact ⟨m, .document session (Prod.ext hm rfl), hcheck⟩

end SchemaCatalog
