import SchemaCatalog.Resolver
import SchemaCatalog.Proofs.Schema.Places

/-!
# What a registry holds

A look-up changes the registry: a document that is asked of the source is kept, nodes are given
identities, and what was requested is recorded.  None of this can be seen in what is found, and
that is what this file makes precise.  `content` is the document at an address and `found` the
place a fragment names in it, both as functions of the registry; two registries are `Alike` if
they have the same documents, identities and base addresses aside, and the same anchors.  Then a
look-up finds what `found` says and leaves a registry like the one before (`lookup_found`).
`Offers` says that a property holds of all that a registry has.

The ways in which asking for a document and looking up a place can go are listed once
(`document_cases`, `lookup_cases`); what either keeps intact is read off these lists.
-/

namespace SchemaCatalog

namespace Registry

/-- The document at an address: the one that is kept or, where there is none, the one that the
source has. -/
def content (r : Registry) (address : Address) : Except ResolveError Node :=
  match OrderedMap.get? r.documents address.withoutFragment with
  | some n => .ok n
  | none =>
    match r.source.bind fun source => source address.withoutFragment with
    | none => .error (.notFound address.withoutFragment)
    | some bytes =>
      match Node.ofBytes bytes with
      | .error e => .error (.decode address.withoutFragment e)
      | .ok n => .ok n

/-- The place that a fragment names in a document, which is the one at an address. -/
def placed (r : Registry) (address : Address) (fragment : String) (doc : Node) :
    Except ResolveError Node :=
  match r.anchor? address fragment with
  | some n => .ok n
  | none =>
    match placeIn doc fragment with
    | some n => .ok n
    | none => .error (.notFound (address.withoutFragment.atFragment fragment))

/-- The place that a fragment names in the document at an address. -/
def found (r : Registry) (address : Address) (fragment : String) : Except ResolveError Node :=
  (r.content address).bind (r.placed address fragment)

/-- The node that stands raw at a place. -/
def raw (r : Registry) (place : Address) : Except ResolveError Node :=
  place.fragmentText.bind (r.found place.withoutFragment)

/-! ## Results that are equal but for identities -/

section Forget

variable {x y : Except ResolveError Node} {n : Node} {e : ResolveError}

lemma ok_of_map_forget (h : x.map Node.forget = y.map Node.forget) (hx : x = .ok n) :
    ∃ m, y = .ok m ∧ n.forget = m.forget := by
  subst hx
  cases y with
  | error e => cases h
  | ok m => exact ⟨m, rfl, Except.ok.inj h⟩

lemma error_of_map_forget (h : x.map Node.forget = y.map Node.forget) (hx : x = .error e) :
    y = .error e := by
  subst hx
  cases y with
  | error e' =>
    obtain rfl : e = e' := Except.error.inj h
    rfl
  | ok m => cases h

lemma option_map_forget {x y : Option Node} (h : x.map Node.forget = y.map Node.forget) :
    x = none ∧ y = none ∨ ∃ n m, x = some n ∧ y = some m ∧ n.forget = m.forget := by
  cases x with
  | none =>
    rw [Option.map_none, eq_comm, Option.map_eq_none_iff] at h
    exact .inl ⟨rfl, h⟩
  | some n =>
    rw [Option.map_some, eq_comm, Option.map_eq_some_iff] at h
    obtain ⟨m, rfl, hforget⟩ := h
    exact .inr ⟨n, m, rfl, rfl, hforget.symm⟩

/-- Results that are equal but for identities have equal continuations, if these do not depend on
identities. -/
lemma bind_forget {f g : Node → Except ResolveError Node}
    (hxy : x.map Node.forget = y.map Node.forget)
    (hfg : ∀ n m, n.forget = m.forget → (f n).map Node.forget = (g m).map Node.forget) :
    (x.bind f).map Node.forget = (y.bind g).map Node.forget := by
  cases hx : x with
  | error e =>
    rw [error_of_map_forget hxy hx]
    rfl
  | ok n =>
    obtain ⟨m, hy, hforget⟩ := ok_of_map_forget hxy hx
    rw [hy]
    exact hfg n m hforget

end Forget

/-- Registries that differ in identities, base addresses and requests at most. -/
structure Alike (r r' : Registry) : Prop where
  content : ∀ a, (r'.content a).map Node.forget = (r.content a).map Node.forget
  anchor? : ∀ a name, r'.anchor? a name = r.anchor? a name

namespace Alike

variable {r r' r'' : Registry}

lemma refl (r : Registry) : Alike r r := ⟨fun _ => rfl, fun _ _ => rfl⟩

lemma trans (h : Alike r r') (h' : Alike r' r'') : Alike r r'' where
  content a := (h'.content a).trans (h.content a)
  anchor? a name := (h'.anchor? a name).trans (h.anchor? a name)

end Alike

variable (r : Registry)

/-! ## Identities -/

/-- What is found depends on the documents, the source and the anchors alone. -/
lemma alike_of_eq (r r' : Registry) (hdocuments : r'.documents = r.documents)
    (hsource : r'.source = r.source) (hanchors : r'.anchors = r.anchors) : Alike r r' := by
  constructor
  · intro a
    unfold content
    rw [hdocuments, hsource]
  · intro a name
    unfold anchor?
    rw [hanchors]

lemma alike_renew (n : Node) : Alike r (r.renew n).2 := alike_of_eq r _ rfl rfl rfl

/-- To adopt a node counts identities. -/
lemma exists_adopt_eq (n : Node) : ∃ next, (r.adopt n).2 = { r with nextIdentity := next } := by
  unfold adopt
  split
  · exact ⟨r.nextIdentity, rfl⟩
  · exact ⟨_, rfl⟩

lemma alike_adopt (n : Node) : Alike r (r.adopt n).2 := by
  obtain ⟨next, h⟩ := exists_adopt_eq r n
  exact h ▸ alike_of_eq r _ rfl rfl rfl

lemma forget_adopt (n : Node) : (r.adopt n).1.forget = n.forget := by
  unfold adopt
  split
  · rfl
  · exact n.forget_label r.nextIdentity

lemma forget_renew (n : Node) : (r.renew n).1.forget = n.forget := by
  rw [Node.forget_eq, n.forget_eq]
  rfl

lemma forget_register (address : Address) (n : Node) :
    (r.register address n).1.forget = n.forget := by
  unfold register
  dsimp only
  rw [Node.forget_label, Node.forget_eq, n.forget_eq]

lemma content_register_self (address : Address) (n : Node) :
    (r.register address n).2.content address = .ok (r.register address n).1 := by
  unfold content register
  dsimp only
  rw [OrderedMap.get?_insert_self]

lemma content_register_of_ne {address other : Address} (n : Node)
    (h : address.withoutFragment ≠ other.withoutFragment) :
    (r.register address n).2.content other = r.content other := by
  unfold content register
  dsimp only
  rw [OrderedMap.get?_insert_of_ne _ _ h]

/-! ## Anchors -/

lemma content_setAnchor (current address : Address) (name : String) (n : Node) :
    (r.setAnchor current name n).content address = r.content address := rfl

lemma anchor?_setAnchor (current address : Address) (name other : String) (n : Node) :
    (r.setAnchor current name n).anchor? address other =
      if current.withoutFragment = address.withoutFragment ∧ name = other then some n
      else r.anchor? address other := by
  unfold anchor? setAnchor
  split_ifs with h
  · rw [← h.1, ← h.2, OrderedMap.get?_insert_self]
  · rw [OrderedMap.get?_insert_of_ne]
    simpa using h

/-- To name a node by its anchors changes what is named. -/
lemma exists_setAnchors_eq (current : Address) (n : Node) :
    ∃ anchors, r.setAnchors current n = { r with anchors } := by
  unfold setAnchors
  induction n.anchors generalizing r with
  | nil => exact ⟨r.anchors, rfl⟩
  | cons name names ih =>
    obtain ⟨anchors, h⟩ := ih (r.setAnchor current name n)
    exact ⟨anchors, h⟩

lemma content_setAnchors (current address : Address) (n : Node) :
    (r.setAnchors current n).content address = r.content address := by
  obtain ⟨anchors, h⟩ := exists_setAnchors_eq r current n
  rw [h]
  rfl

/-- Under a name is the node that was named last, and before that what was there. -/
lemma anchor?_setAnchors (current address : Address) (name : String) (n : Node) :
    (r.setAnchors current n).anchor? address name =
      if current.withoutFragment = address.withoutFragment ∧ name ∈ n.anchors then some n
      else r.anchor? address name := by
  unfold setAnchors
  induction n.anchors generalizing r with
  | nil => simp
  | cons first names ih =>
    rw [List.foldl_cons, ih, anchor?_setAnchor]
    simp only [List.mem_cons]
    by_cases hc : current.withoutFragment = address.withoutFragment
    · by_cases hn : name ∈ names
      · simp [hc, hn]
      · by_cases hf : first = name
        · simp [hc, hf]
        · simp [hc, hn, hf, Ne.symm hf]
    · simp [hc]

/-! ## What is found -/

variable {r}

@[simp] lemma content_withoutFragment (address : Address) :
    r.content address.withoutFragment = r.content address := by
  unfold content
  rw [Address.withoutFragment_idem]

lemma content_congr {a b : Address} (h : a.withoutFragment = b.withoutFragment) :
    r.content a = r.content b := by
  rw [← content_withoutFragment, h, content_withoutFragment]

/-- What is found depends on the document of the address alone. -/
lemma found_congr_address {a b : Address} (h : a.withoutFragment = b.withoutFragment)
    (fragment : String) : r.found a fragment = r.found b fragment := by
  have hcontent := content_congr (r := r) h
  have hplaced : r.placed a fragment = r.placed b fragment := by
    funext doc
    unfold placed anchor?
    rw [h]
  unfold found
  rw [hcontent, hplaced]

lemma raw_of_fragmentText_error {p : Address} {e : ResolveError} (h : p.fragmentText = .error e) :
    r.raw p = .error e := by
  unfold raw
  rw [h]
  rfl

lemma raw_of_fragmentText {p : Address} {fragment : String} (h : p.fragmentText = .ok fragment) :
    r.raw p = r.found p fragment := by
  unfold raw
  rw [h]
  exact found_congr_address p.withoutFragment_idem fragment

/-- What is found has been named or stands in the document. -/
lemma found_cases {address : Address} {fragment : String} {n : Node}
    (h : r.found address fragment = .ok n) :
    ∃ doc, r.content address = .ok doc ∧
      (r.anchor? address fragment = some n ∨
        r.anchor? address fragment = none ∧ placeIn doc fragment = some n) := by
  unfold found at h
  cases hdoc : r.content address with
  | error e =>
    rw [hdoc] at h
    cases h
  | ok doc =>
    rw [hdoc] at h
    change r.placed address fragment doc = .ok n at h
    refine ⟨doc, rfl, ?_⟩
    unfold placed at h
    cases hanchor : r.anchor? address fragment with
    | some m =>
      rw [hanchor] at h
      exact .inl (congrArg some (Except.ok.inj h))
    | none =>
      rw [hanchor] at h
      cases hplace : placeIn doc fragment with
      | none =>
        rw [hplace] at h
        cases h
      | some m =>
        rw [hplace] at h
        exact .inr ⟨rfl, congrArg some (Except.ok.inj h)⟩

lemma found_congr {r r' : Registry} {address : Address} {fragment : String}
    (hcontent : r'.content address = r.content address)
    (hanchor : r'.anchor? address fragment = r.anchor? address fragment) :
    r'.found address fragment = r.found address fragment := by
  have hplaced : r'.placed address fragment = r.placed address fragment := by
    funext doc
    unfold placed
    rw [hanchor]
  unfold found
  rw [hcontent, hplaced]

/-- Under an anchor stands what it names, if there is such a document. -/
lemma found_of_anchor? {address : Address} {fragment : String} {m : Node}
    (h : r.anchor? address fragment = some m) :
    r.found address fragment = (r.content address).map fun _ => m := by
  have hplaced : r.placed address fragment = fun _ => .ok m := by
    funext doc
    unfold placed
    rw [h]
  unfold found
  rw [hplaced]
  cases r.content address <;> rfl

/-- Where one node was named at most, the place holds that node or what it held before. -/
lemma raw_of_named {r' : Registry} {current p : Address} {m : Node}
    (hcontent : r'.content p = r.content p)
    (hanchor : ∀ name, r'.anchor? p name = r.anchor? p name ∨
      current.withoutFragment = p.withoutFragment ∧ r'.anchor? p name = some m) :
    r'.raw p = r.raw p ∨ current.withoutFragment = p.withoutFragment ∧ r'.raw p = .ok m := by
  cases hfragment : p.fragmentText with
  | error e =>
    left
    rw [raw_of_fragmentText_error hfragment, raw_of_fragmentText_error hfragment]
  | ok fragment =>
    rw [raw_of_fragmentText hfragment, raw_of_fragmentText hfragment]
    rcases hanchor fragment with hold | ⟨hdocument, hnew⟩
    · exact .inl (found_congr hcontent hold)
    · rw [found_of_anchor? hnew, hcontent]
      cases hdoc : r.content p with
      | error e =>
        left
        unfold found
        rw [hdoc]
        rfl
      | ok doc => exact .inr ⟨hdocument, rfl⟩

lemma raw_setAnchors (r : Registry) (current p : Address) (m : Node) :
    (r.setAnchors current m).raw p = r.raw p ∨
      current.withoutFragment = p.withoutFragment ∧ (r.setAnchors current m).raw p = .ok m := by
  refine raw_of_named (content_setAnchors r current p m) fun name => ?_
  rw [anchor?_setAnchors]
  split_ifs with h
  · exact .inr ⟨h.1, rfl⟩
  · exact .inl rfl

lemma raw_setAnchor (r : Registry) (current p : Address) (name : String) (m : Node) :
    (r.setAnchor current name m).raw p = r.raw p ∨
      current.withoutFragment = p.withoutFragment ∧ (r.setAnchor current name m).raw p = .ok m := by
  refine raw_of_named (content_setAnchor r current p name m) fun other => ?_
  rw [anchor?_setAnchor]
  split_ifs with h
  · exact .inr ⟨h.1, rfl⟩
  · exact .inl rfl

/-! ## Look-ups -/

lemma run_bind {α β : Type} (x : Lookup α) (f : α → Lookup β) (r : Registry) :
    (x >>= f).run.run r =
      match x.run.run r with
      | (.ok a, r') => (f a).run.run r'
      | (.error e, r') => (.error e, r') := by
  rw [ExceptT.run_bind, StateT.run_bind]
  rcases x.run.run r with ⟨e | a, r'⟩ <;> rfl

@[simp] lemma run_pure {α : Type} (a : α) (r : Registry) :
    (pure a : Lookup α).run.run r = (.ok a, r) := rfl

@[simp] lemma run_throw {α : Type} (e : ResolveError) (r : Registry) :
    (throw e : Lookup α).run.run r = (.error e, r) := rfl

@[simp] lemma run_get (r : Registry) : (get : Lookup Registry).run.run r = (.ok r, r) := rfl

@[simp] lemma run_modifyGet {α : Type} (f : Registry → α × Registry) (r : Registry) :
    (modifyGet f : Lookup α).run.run r = (.ok (f r).1, (f r).2) := rfl

/-- The ways in which asking for a document can go: it is kept already; the source has none, or none
that is a schema; or what the source has is registered. -/
lemma document_cases (r : Registry) (address : Address) :
    (∃ n, OrderedMap.get? r.documents address.withoutFragment = some n ∧
      (document address).run.run r = (.ok n, r)) ∨
    OrderedMap.get? r.documents address.withoutFragment = none ∧
      ((r.request address.withoutFragment).1 = none ∧ (document address).run.run r =
        (.error (.notFound address.withoutFragment), (r.request address.withoutFragment).2) ∨
      ∃ bytes, (r.request address.withoutFragment).1 = some bytes ∧
        ((∃ e, Node.ofBytes bytes = .error e ∧ (document address).run.run r =
          (.error (.decode address.withoutFragment e), (r.request address.withoutFragment).2)) ∨
        ∃ n, Node.ofBytes bytes = .ok n ∧ (document address).run.run r =
          (.ok ((r.request address.withoutFragment).2.register address.withoutFragment n).1,
            ((r.request address.withoutFragment).2.register address.withoutFragment n).2))) := by
  unfold document
  rw [run_bind]
  dsimp only [run_get]
  cases hkept : OrderedMap.get? r.documents address.withoutFragment with
  | some n => exact .inl ⟨n, rfl, rfl⟩
  | none =>
    refine .inr ⟨rfl, ?_⟩
    dsimp only
    rw [run_bind, run_modifyGet]
    cases (r.request address.withoutFragment).1 with
    | none => exact .inl ⟨rfl, rfl⟩
    | some bytes =>
      refine .inr ⟨bytes, rfl, ?_⟩
      dsimp only
      cases Node.ofBytes bytes with
      | error e => exact .inl ⟨e, rfl, rfl⟩
      | ok n => exact .inr ⟨n, rfl, rfl⟩

/-- The ways in which a look-up can go: there is no document; the fragment is an anchor; it names
nothing in the document; or it names a place there, and the node at the place is adopted. -/
lemma lookup_cases (r : Registry) (address : Address) (fragment : String) :
    (∃ e r', (document address).run.run r = (.error e, r') ∧
      (lookup address fragment).run.run r = (.error e, r')) ∨
    ∃ doc r', (document address).run.run r = (.ok doc, r') ∧
      ((∃ n, r'.anchor? address fragment = some n ∧
        (lookup address fragment).run.run r = (.ok n, r')) ∨
      r'.anchor? address fragment = none ∧
        (placeIn doc fragment = none ∧ (lookup address fragment).run.run r =
          (.error (.notFound (address.withoutFragment.atFragment fragment)), r') ∨
        ∃ n, placeIn doc fragment = some n ∧
          (lookup address fragment).run.run r = (.ok (r'.adopt n).1, (r'.adopt n).2))) := by
  unfold lookup
  rw [run_bind]
  rcases (document address).run.run r with ⟨e | doc, r'⟩
  · exact .inl ⟨e, r', rfl, rfl⟩
  · refine .inr ⟨doc, r', rfl, ?_⟩
    dsimp only
    rw [run_bind]
    dsimp only [run_get]
    cases r'.anchor? address fragment with
    | some n => exact .inl ⟨n, rfl, rfl⟩
    | none =>
      refine .inr ⟨rfl, ?_⟩
      dsimp only
      cases placeIn doc fragment with
      | none => exact .inl ⟨rfl, rfl⟩
      | some n => exact .inr ⟨n, rfl, rfl⟩

lemma request_eq (r : Registry) (address : Address) :
    (r.request address).1 = r.source.bind fun source => source address := by
  unfold request
  cases r.source <;> rfl

lemma documents_request (r : Registry) (address : Address) :
    (r.request address).2.documents = r.documents := by
  unfold request
  cases r.source <;> rfl

lemma content_request (r : Registry) (address other : Address) :
    (r.request address).2.content other = r.content other := by
  unfold request content
  cases h : r.source with
  | none => simp only [h]
  | some source => rfl

lemma alike_request (r : Registry) (address : Address) : Alike r (r.request address).2 := by
  refine ⟨fun other => by rw [content_request], fun other name => ?_⟩
  unfold request
  cases r.source <;> rfl

/-- A document that the source has may as well be kept. -/
lemma alike_register {address : Address} {n : Node} (h : r.content address = .ok n) :
    Alike r (r.register address n).2 := by
  refine ⟨fun a => ?_, fun _ _ => rfl⟩
  by_cases ha : address.withoutFragment = a.withoutFragment
  · rw [content_congr ha.symm, content_register_self, content_congr ha.symm, h]
    simp only [Except.map, forget_register]
  · rw [content_register_of_ne r n ha]

/-- The document that is found is the one the registry holds, and it holds the same after. -/
theorem document_content (r : Registry) (address : Address) :
    ((document address).run.run r).1.map Node.forget = (r.content address).map Node.forget ∧
      Alike r ((document address).run.run r).2 := by
  have hrequest := alike_request r address.withoutFragment
  rcases document_cases r address with ⟨n, hkept, hrun⟩ | ⟨hnone, ⟨hsource, hrun⟩ |
    ⟨bytes, hsource, ⟨e, hbytes, hrun⟩ | ⟨n, hbytes, hrun⟩⟩⟩
  all_goals
    rw [hrun]
  · have hcontent : r.content address = .ok n := by
      unfold content
      rw [hkept]
    rw [hcontent]
    exact ⟨rfl, .refl r⟩
  all_goals
    rw [request_eq] at hsource
  · have hcontent : r.content address = .error (.notFound address.withoutFragment) := by
      unfold content
      rw [hnone, hsource]
    rw [hcontent]
    exact ⟨rfl, hrequest⟩
  · have hcontent : r.content address = .error (.decode address.withoutFragment e) := by
      unfold content
      simp only [hnone, hsource, hbytes]
    rw [hcontent]
    exact ⟨rfl, hrequest⟩
  · have hcontent : r.content address = .ok n := by
      unfold content
      simp only [hnone, hsource, hbytes]
    have hkeep : (r.request address.withoutFragment).2.content address.withoutFragment = .ok n := by
      rw [content_request, content_withoutFragment, hcontent]
    rw [hcontent]
    refine ⟨?_, hrequest.trans (alike_register hkeep)⟩
    simp only [Except.map, forget_register]

lemma placed_forget {r r' : Registry} {doc doc' : Node} {address : Address} {fragment : String}
    (hanchor : (r'.anchor? address fragment).map Node.forget =
      (r.anchor? address fragment).map Node.forget)
    (hdoc : doc'.forget = doc.forget) :
    (r'.placed address fragment doc').map Node.forget =
      (r.placed address fragment doc).map Node.forget := by
  have hplace : (placeIn doc' fragment).map Node.forget =
      (placeIn doc fragment).map Node.forget := by
    rw [← placeIn_forget, hdoc, placeIn_forget]
  unfold placed
  rcases option_map_forget hanchor with ⟨h, h'⟩ | ⟨n', n, h, h', hforget⟩
  · rw [h, h']
    rcases option_map_forget hplace with ⟨hp, hp'⟩ | ⟨n', n, hp, hp', hforget⟩
    · rw [hp, hp']
    · rw [hp, hp']
      simp only [Except.map, hforget]
  · rw [h, h']
    simp only [Except.map, hforget]

/-- Registries that are alike find the same places. -/
theorem Alike.found {r r' : Registry} (h : Alike r r') (address : Address) (fragment : String) :
    (r'.found address fragment).map Node.forget = (r.found address fragment).map Node.forget :=
  bind_forget (h.content address) fun _ _ hdoc =>
    placed_forget (congrArg _ (h.anchor? address fragment)) hdoc

lemma Alike.raw {r r' : Registry} (h : Alike r r') (place : Address) :
    (r'.raw place).map Node.forget = (r.raw place).map Node.forget := by
  cases hfragment : place.fragmentText with
  | error e => rw [raw_of_fragmentText_error hfragment, raw_of_fragmentText_error hfragment]
  | ok fragment =>
    rw [raw_of_fragmentText hfragment, raw_of_fragmentText hfragment]
    exact h.found place fragment

/-- **The place that is found is the one that `found` names, and the registry is like the one
before, whether a place is found or not.** -/
theorem lookup_found (r : Registry) (address : Address) (fragment : String) :
    ((lookup address fragment).run.run r).1.map Node.forget =
        (r.found address fragment).map Node.forget ∧
      Alike r ((lookup address fragment).run.run r).2 := by
  obtain ⟨hdoc, halike⟩ := document_content r address
  have hfound : ((((document address).run.run r).1.bind (r.placed address fragment)).map
      Node.forget) = (r.found address fragment).map Node.forget :=
    bind_forget hdoc fun _ _ h => placed_forget rfl h
  rw [← hfound]
  rcases lookup_cases r address fragment with ⟨e, r₁, hdocument, hrun⟩ | ⟨doc, r₁, hdocument,
    ⟨n, hanchor, hrun⟩ | ⟨hanchor, ⟨hplace, hrun⟩ | ⟨n, hplace, hrun⟩⟩⟩
  all_goals
    rw [hdocument] at halike
    rw [hrun, hdocument]
  · exact ⟨rfl, halike⟩
  all_goals
    rw [halike.anchor?] at hanchor
    simp only [Except.bind, placed, hanchor]
  · exact ⟨trivial, halike⟩
  · rw [hplace]
    exact ⟨rfl, halike⟩
  · rw [hplace]
    refine ⟨?_, halike.trans (alike_adopt r₁ n)⟩
    simp only [Except.map, forget_adopt]

/-! ## What a registry offers -/

/-- Whether a property holds of every node that a registry has at an address or under a name. -/
structure Offers (P : Node → Prop) (r : Registry) : Prop where
  content : ∀ a n, r.content a = .ok n → P n
  anchor? : ∀ a name n, r.anchor? a name = some n → P n

namespace Offers

variable {P : Node → Prop} (h : r.Offers P)
include h

lemma register {address : Address} {n : Node} (hn : P (r.register address n).1) :
    (r.register address n).2.Offers P where
  content a m hm := by
    by_cases ha : address.withoutFragment = a.withoutFragment
    · rw [content_congr ha.symm, content_register_self] at hm
      exact Except.ok.inj hm ▸ hn
    · exact h.content a m (content_register_of_ne r n ha ▸ hm)
  anchor? := h.anchor?

lemma setAnchor (address : Address) (name : String) {n : Node} (hn : P n) :
    (r.setAnchor address name n).Offers P where
  content a m hm := h.content a m hm
  anchor? a other m hm := by
    rw [anchor?_setAnchor] at hm
    split at hm
    · exact Option.some.inj hm ▸ hn
    · exact h.anchor? a other m hm

lemma setAnchors (address : Address) {n : Node} (hn : P n) :
    (r.setAnchors address n).Offers P where
  content a m hm := h.content a m (content_setAnchors r address a n ▸ hm)
  anchor? a other m hm := by
    rw [anchor?_setAnchors] at hm
    split at hm
    · exact Option.some.inj hm ▸ hn
    · exact h.anchor? a other m hm

end Offers

end Registry

end SchemaCatalog
