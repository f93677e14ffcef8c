import SchemaCatalog.Proofs.Api.Runs
import SchemaCatalog.Proofs.Resolution.Discipline
import SchemaCatalog.Proofs.Resolution.Documents
import SchemaCatalog.Proofs.Schema.Likewise

/-!
# Documents with one address

A corpus has its documents by name, a registry by address, and there an address has no fragment.
So two names may come to one address, such as `a#1.json` and `a#2.json`, and then the registry has
the document whose name is last (`Corpus.lastAt?`).  Documents without references show what comes of
it, since they are resolved to themselves: under each name there is the last document at its
address, whatever the name (`Corpus.resolve_referenceFree`).  That is the document of the name
itself if no other has the address, or at least no other schema has it, and not otherwise
(`Corpus.shadowed`).

The proof follows a run from document to document.  A tree without references is expanded to itself
without a look at any target, and the expansion names places in the document of the tree alone
(`Resolution.ensures_expandNode_of_referenceFree`).  So whatever the anchors in a document are, the
other documents are found as they were registered, and the document itself is not looked for again
(`Resolver.Verbatim`).
-/

namespace SchemaCatalog

open Resolution

lemma Address.fragmentText_withoutFragment (a : Address) :
    a.withoutFragment.fragmentText = .ok "" := by
  unfold fragmentText
  rw [fragment_withoutFragment]
  rfl

namespace Registry

/-- Registries that differ in identities, base addresses and requests at most, and in what is named
in one document. -/
structure AlikeBut (current : Address) (r r' : Registry) : Prop where
  content : ∀ a, (r'.content a).map Node.forget = (r.content a).map Node.forget
  anchor? : ∀ a, a.withoutFragment ≠ current.withoutFragment →
    ∀ name, r'.anchor? a name = r.anchor? a name

variable {r r' r'' : Registry} {current : Address}

lemma Alike.alikeBut (h : r.Alike r') (current : Address) : r.AlikeBut current r' :=
  ⟨h.content, fun a _ => h.anchor? a⟩

lemma AlikeBut.trans (h : r.AlikeBut current r') (h' : r'.AlikeBut current r'') :
    r.AlikeBut current r'' where
  content a := (h'.content a).trans (h.content a)
  anchor? a ha name := (h'.anchor? a ha name).trans (h.anchor? a ha name)

@[simp] lemma alikeBut_withoutFragment :
    r.AlikeBut current.withoutFragment r' ↔ r.AlikeBut current r' := by
  constructor
  all_goals
    rintro ⟨hcontent, hanchor⟩
    exact ⟨hcontent, by simpa using hanchor⟩

lemma alikeBut_setAnchors (r : Registry) (current : Address) (n : Node) :
    r.AlikeBut current (r.setAnchors current n) where
  content a := by rw [content_setAnchors]
  anchor? a ha name := by rw [anchor?_setAnchors, if_neg fun h => ha h.1.symm]

lemma raw_withoutFragment {a : Address} (unnamed : r.anchor? a "" = none) :
    r.raw a.withoutFragment = r.content a := by
  have hplaced : r.placed a "" = .ok := by
    funext doc
    unfold placed
    rw [unnamed]
    obtain ⟨identity, truth, base, keywords⟩ := doc
    rfl
  rw [raw_of_fragmentText a.fragmentText_withoutFragment,
    found_congr_address a.withoutFragment_idem]
  unfold found
  rw [hplaced]
  cases r.content a <;> rfl

end Registry

namespace Resolution

/-- The discipline of a resolver that changes nothing but what is named in one document. -/
def withinDocument (current : Address) (start : Resolver) : Discipline where
  inv s := ∃ r, s = start.withRegistry r ∧ start.registry.AlikeBut current r
  later _ _ := True
  refl _ := trivial
  trans _ _ := trivial

/-- A tree without references is expanded to itself, and nothing changes but what is named in the
document of the tree. -/
theorem ensures_expandNode_of_referenceFree {expand : Address → Resolution Node} {current : Address}
    {n : Node} (free : n.hasReferences = false) (s : Resolver) :
    Ensures (expandNode expand current n) s
      (fun m s' => (withinDocument current s).inv s' ∧ m.forget = n.forget) fun _ _ => False := by
  have hstart : (withinDocument current s).inv s :=
    ⟨s.registry, rfl, (Registry.Alike.refl _).alikeBut current⟩
  have hfree : (withinDocument current s).logic.ensures (expandNode expand current n) s
      (fun m _ => n.Copies m) fun _ => False := by
    refine Logic.expandNode_of_referenceFree free ?_ ?_ s
    · rintro _ m ⟨r, rfl, hr⟩
      rw [ensures_fresh]
      exact ⟨⟨(r.renew m).2, rfl, hr.trans ((r.alike_renew m).alikeBut current)⟩, trivial, rfl, rfl,
        rfl⟩
    · rintro m _ _ ⟨r, rfl, hr⟩
      rw [ensures_setAnchors]
      exact ⟨⟨r.setAnchors current m, rfl, hr.trans (r.alikeBut_setAnchors current m)⟩, trivial,
        trivial⟩
  exact (hfree hstart).mono (fun m s' ⟨hinv, _, hm⟩ => ⟨hinv, hm.forget_eq⟩)
    fun e s' ⟨_, _, h⟩ => h

end Resolution

/-! ## Runs over documents without references -/

/-- What a resolver has after some documents without references were resolved, if `r` is the
registry it had before: there are no open targets, the documents of `r` are there, those at the
addresses `own` that are kept are kept as they are, and those that are not have not been named. -/
structure Resolver.Verbatim (r : Registry) (own : List Address) (s : Resolver) : Prop where
  active : s.active = []
  cut : s.cut = none
  content : ∀ a, (s.registry.content a).map Node.forget = (r.content a).map Node.forget
  kept : ∀ a ∈ own, ∀ m, OrderedMap.get? s.expansions a.withoutFragment = some m →
    (r.content a).map Node.forget = .ok m.forget
  unnamed : ∀ a ∈ own, OrderedMap.get? s.expansions a.withoutFragment = none →
    s.registry.anchor? a "" = none

namespace Resolver

variable {r r' : Registry} {own : List Address} {s : Resolver} {a : Address}

/-- A document that is resolved to itself is kept as it is. -/
lemma Verbatim.keep (h : s.Verbatim r own) (hr : s.registry.AlikeBut a r') {m : Node}
    (hm : (r.content a).map Node.forget = .ok m.forget) :
    ((s.withRegistry r').keep a.withoutFragment "" m).Verbatim r own where
  active := h.active
  cut := h.cut
  content b := (hr.content b).trans (h.content b)
  kept b hb l hl := by
    rw [expansions_keep, expansions_withRegistry] at hl
    by_cases hab : a.withoutFragment = b.withoutFragment
    · rw [hab, OrderedMap.get?_insert_self] at hl
      obtain rfl := Option.some.inj hl
      rwa [Registry.content_congr hab.symm]
    · rw [OrderedMap.get?_insert_of_ne _ _ hab] at hl
      exact h.kept b hb l hl
  unnamed b hb hnone := by
    rw [expansions_keep, expansions_withRegistry] at hnone
    by_cases hab : a.withoutFragment = b.withoutFragment
    · rw [hab, OrderedMap.get?_insert_self] at hnone
      cases hnone
    · rw [OrderedMap.get?_insert_of_ne _ _ hab] at hnone
      exact (hr.anchor? b (Ne.symm hab) "").trans (h.unnamed b hb hnone)

lemma Verbatim.document (h : s.Verbatim r own) (limit : Nat) {n : Node} (ha : a ∈ own)
    (hn : (r.content a).map Node.forget = .ok n.forget) (free : n.hasReferences = false) :
    Ensures (Resolution.document limit a) s
      (fun m s' => s'.Verbatim r own ∧ m.forget = n.forget) fun _ _ => True := by
  cases limit with
  | zero => exact trivial
  | succ limit =>
    unfold Resolution.document
    apply expandTarget_ensures
    all_goals rw [a.place_withoutFragment]
    case kept =>
      intro m hm
      have hkept := h.kept a ha m hm
      rw [hn] at hkept
      exact ⟨h, (Except.ok.inj hkept).symm⟩
    case missing => exact fun _ _ _ _ _ => trivial
    case cycle =>
      intro _ _ _ _ _ _ _ depth hdepth
      rw [h.active] at hdepth
      cases hdepth
    case opened =>
      intro hnone l raw r' halike hl hraw _ fragment hfragment
      rw [a.fragmentText_withoutFragment] at hfragment
      obtain rfl := Except.ok.inj hfragment
      have hrawn : raw.forget = n.forget := by
        have hcontent := h.content a
        rw [← Registry.raw_withoutFragment (h.unnamed a ha hnone), hl, hn] at hcontent
        exact hraw.trans (Except.ok.inj hcontent)
      refine (ensures_expandNode_of_referenceFree
        (Node.hasReferences_of_forget hrawn.symm free) _).mono ?_ fun _ _ _ => trivial
      rintro m _ ⟨⟨r'', rfl, hr''⟩, hm⟩
      rw [Registry.alikeBut_withoutFragment, Registry.alikeBut_withoutFragment] at hr''
      have hmn := hm.trans hrawn
      have hkeep := h.keep ((halike.alikeBut a).trans hr'') (hmn ▸ hn)
      rw [leave_enter]
      exact ⟨fun _ => ⟨hkeep, hmn⟩, fun hopen => absurd rfl hopen⟩

/-- Documents without references are resolved to themselves, one after the other. -/
lemma Verbatim.resolveEach (h : s.Verbatim r own) {limit : Nat} {ds : List Document}
    (hds : ∀ d ∈ ds, d.address ∈ own ∧
      ∃ n : Node, (r.content d.address).map Node.forget = .ok n.forget ∧ n.hasReferences = false)
    {resolved : List (Document × Node)} {s' : Resolver}
    (hrun : (Run.resolveEach limit ds).run.run s = (.ok resolved, s')) :
    List.Forall₂ (fun d p => p.1 = d ∧ (r.content d.address).map Node.forget = .ok p.2.forget)
      ds resolved := by
  induction ds generalizing s resolved with
  | nil =>
    obtain ⟨rfl, -⟩ := Run.run_pure_eq_ok.1 hrun
    exact .nil
  | cons d ds ih =>
    obtain ⟨⟨ha, n, hn, free⟩, hds⟩ := List.forall_mem_cons.1 hds
    obtain ⟨m, s₁, rest, hm, hrest, rfl⟩ := Run.resolveEach_cons_eq_ok.1 hrun
    obtain ⟨h₁, hmn⟩ := (h.document limit ha hn free).of_ok hm
    exact .cons ⟨rfl, hmn ▸ hn⟩ (ih h₁ hds hrest)

end Resolver

/-! ## Corpora -/

/-- Under an address is the last document that was registered there. -/
lemma Registry.content_registerAll (r : Registry) {docs : List (Document × Node)} {a : Address}
    {p : Document × Node} (h : docs.reverse.find? (fun p =>
      p.1.address.withoutFragment = a.withoutFragment) = some p) :
    ((r.registerAll docs).content a).map Node.forget = .ok p.2.forget := by
  induction docs using List.reverseRecOn with
  | nil => cases h
  | append_singleton docs q ih =>
    have hregister : r.registerAll (docs ++ [q]) =
        ((r.registerAll docs).register q.1.address q.2).2 := by
      unfold registerAll
      rw [List.foldl_append]
      rfl
    rw [List.reverse_append, List.reverse_singleton, List.singleton_append, List.find?_cons] at h
    rw [hregister]
    by_cases ha : q.1.address.withoutFragment = a.withoutFragment
    · rw [decide_eq_true ha] at h
      obtain rfl := Option.some.inj h
      rw [content_congr ha.symm, content_register_self]
      exact congrArg Except.ok (forget_register _ _ _)
    · rw [decide_eq_false ha] at h
      rw [content_register_of_ne _ _ ha]
      exact ih h

namespace Corpus

variable {c : Corpus} {r : Registry}

/-- The last document at an address, in order of names and fragments aside. -/
def lastAt? (c : Corpus) (a : Address) : Option Document :=
  c.documents.reverse.find? fun d => d.address.withoutFragment = a.withoutFragment

/-- Whether no document has a reference. -/
def ReferenceFree (c : Corpus) : Prop :=
  ∀ d ∈ c.documents, ∀ n, Node.ofBytes d.content = .ok n → n.hasReferences = false

/-- Whether documents with one address, fragments aside, have equal schemas. -/
def Unshadowed (c : Corpus) : Prop :=
  ∀ d ∈ c.documents, ∀ e ∈ c.documents, d.address.withoutFragment = e.address.withoutFragment →
    ∀ m n, Node.ofBytes d.content = .ok m → Node.ofBytes e.content = .ok n → m.same n = true

lemma referenceFree_iff : c.ReferenceFree ↔ (c.documents.all fun d =>
    (Node.ofBytes d.content).toOption.all fun n => !n.hasReferences) = true := by
  unfold ReferenceFree
  rw [List.all_eq_true]
  refine forall₂_congr fun d _ => ?_
  cases Node.ofBytes d.content <;> simp [Except.toOption]

instance : Decidable c.ReferenceFree := decidable_of_iff _ referenceFree_iff.symm

lemma exists_lastAt {docs : List (Document × Node)}
    (hdocs : c.documents.mapM Document.decode = .ok docs) {d : Document} (hd : d ∈ c.documents) :
    ∃ last n, c.lastAt? d.address = some last ∧ Node.ofBytes last.content = .ok n ∧
      ((r.registerAll docs).content d.address).map Node.forget = .ok n.forget := by
  have hnames := Document.map_fst_of_mapM_decode hdocs
  have hlast : c.lastAt? d.address = (docs.reverse.find? fun p =>
      p.1.address.withoutFragment = d.address.withoutFragment).map Prod.fst := by
    unfold lastAt?
    rw [← hnames, ← List.map_reverse, List.find?_map]
    rfl
  cases hp : docs.reverse.find? fun p =>
      p.1.address.withoutFragment = d.address.withoutFragment with
  | none =>
    rw [← hnames] at hd
    obtain ⟨p, hpd, rfl⟩ := List.mem_map.1 hd
    exact absurd (List.find?_eq_none.1 hp p (List.mem_reverse.2 hpd)) (by simp)
  | some p =>
    have hpd := List.mem_reverse.1 (List.mem_of_find?_eq_some hp)
    obtain ⟨d', -, rfl, hbytes⟩ :=
      Keyword.exists_rel_of_mem (Document.forall₂_of_mapM_decode hdocs).flip hpd
    exact ⟨p.1, p.2, by rw [hlast, hp]; rfl, hbytes, Registry.content_registerAll r hp⟩

lemma mem_of_lastAt? {a : Address} {last : Document} (h : c.lastAt? a = some last) :
    last ∈ c.documents ∧ last.address.withoutFragment = a.withoutFragment := by
  refine ⟨List.mem_reverse.1 (List.mem_of_find?_eq_some h), ?_⟩
  simpa using List.find?_some h

lemma same_iff_of_forget {bytes bytes' : ByteArray} {m m' n : Node}
    (hm : Node.ofBytes bytes = .ok m) (hforget : m'.forget = m.forget)
    (hn : Node.ofBytes bytes' = .ok n) : m'.same n = true ↔ m.same n = true := by
  have hsm := Node.single_of_ofBytes hm
  have hsn := Node.single_of_ofBytes hn
  have hsm' := hsm.of_forget hforget.symm
  have trans := @Node.equivalenceOn_same.trans
  exact ⟨trans hsm.comparable hsm'.comparable hsn.comparable (Node.same_of_forget hsm hforget.symm),
    trans hsm'.comparable hsm.comparable hsn.comparable (Node.same_of_forget hsm' hforget)⟩

section Run

variable {limit : Nat} {resolved : List (Document × Node)} {s : Resolver}
  (free : c.ReferenceFree)
  (unnamed : ∀ d ∈ c.documents, r.anchor? d.address "" = none)
  (hrun : (c.resolve limit).run.run (.ofRegistry r) = (.ok resolved, s))
include free unnamed hrun

/-- Documents without references are resolved to the last ones at their addresses. -/
lemma forall₂_lastAt : List.Forall₂ (fun d p => p.1 = d ∧ ∃ last n, c.lastAt? d.address = some last ∧
    Node.ofBytes last.content = .ok n ∧ p.2.forget = n.forget) c.documents resolved := by
  obtain ⟨docs, hdocs, hrun⟩ := run_resolve_eq_ok.1 hrun
  have hstart : (Resolver.ofRegistry (r.registerAll docs)).Verbatim (r.registerAll docs)
      (c.documents.map Document.address) := by
    refine ⟨rfl, rfl, fun _ => rfl, fun _ _ _ h => (by cases h), fun a ha _ => ?_⟩
    obtain ⟨d, hd, rfl⟩ := List.mem_map.1 ha
    rw [← unnamed d hd]
    change OrderedMap.get? (r.registerAll docs).anchors _ = OrderedMap.get? r.anchors _
    rw [(r.anchors_source_registerAll docs).1]
  have hresolved := hstart.resolveEach (fun d hd => ?known) hrun
  case known =>
    obtain ⟨last, n, hlast, hn, hcontent⟩ := c.exists_lastAt (r := r) hdocs hd
    exact ⟨List.mem_map_of_mem hd, n, hcontent, free last (mem_of_lastAt? hlast).1 n hn⟩
  refine forall₂_imp_of_mem hresolved fun d hd p _ ⟨hpd, hp⟩ => ⟨hpd, ?_⟩
  obtain ⟨last, n, hlast, hn, hcontent⟩ := c.exists_lastAt (r := r) hdocs hd
  exact ⟨last, n, hlast, hn, Except.ok.inj (hp.symm.trans hcontent)⟩

/-- **Under every name there is the last document at its address.**  If no document of a corpus has
a reference and none has a name in the registry yet, then what a document is resolved to is the
last document with its address, fragments aside.  So every document is resolved to itself exactly
if all documents with one address are equal. -/
theorem resolve_referenceFree : resolved.map Prod.fst = c.documents ∧
    (∀ p ∈ resolved, ∃ last n, c.lastAt? p.1.address = some last ∧
      Node.ofBytes last.content = .ok n ∧ p.2.forget = n.forget) ∧
    ((∀ p ∈ resolved, ∀ n, Node.ofBytes p.1.content = .ok n → p.2.same n = true) ↔
      c.Unshadowed) := by
  have hresolved := forall₂_lastAt free unnamed hrun
  have hnames : resolved.map Prod.fst = c.documents := by
    rw [← List.forall₂_eq_eq_eq, List.forall₂_map_left_iff]
    exact hresolved.flip.imp fun _ _ h => h.1
  have hlast : ∀ p ∈ resolved, ∃ last n, c.lastAt? p.1.address = some last ∧
      Node.ofBytes last.content = .ok n ∧ p.2.forget = n.forget := by
    intro p hp
    obtain ⟨d, -, rfl, h⟩ := Keyword.exists_rel_of_mem hresolved.flip hp
    exact h
  refine ⟨hnames, hlast, fun hown d hd e he haddress m n hm hn => ?_, fun hequal p hp n hn => ?_⟩
  · rw [← hnames] at hd he
    obtain ⟨p, hp, rfl⟩ := List.mem_map.1 hd
    obtain ⟨q, hq, rfl⟩ := List.mem_map.1 he
    obtain ⟨last, l, hlastp, hl, hpl⟩ := hlast p hp
    obtain ⟨last', l', hlastq, hl', hql'⟩ := hlast q hq
    have hsame : c.lastAt? p.1.address = c.lastAt? q.1.address := by
      unfold lastAt?
      rw [haddress]
    obtain rfl : last = last' := by
      rw [hsame, hlastq] at hlastp
      exact (Option.some.inj hlastp).symm
    obtain rfl : l = l' := Except.ok.inj (hl.symm.trans hl')
    have hlm := (same_iff_of_forget hl hpl hm).1 (hown p hp m hm)
    have hln := (same_iff_of_forget hl hql' hn).1 (hown q hq n hn)
    have comparable {bytes : ByteArray} {k : Node} (h : Node.ofBytes bytes = .ok k) :=
      (Node.single_of_ofBytes h).comparable
    exact Node.equivalenceOn_same.trans (comparable hm) (comparable hl) (comparable hn)
      (Node.equivalenceOn_same.symm (comparable hl) (comparable hm) hlm) hln
  · obtain ⟨last, l, hlast, hl, hpl⟩ := hlast p hp
    obtain ⟨hmem, haddress⟩ := mem_of_lastAt? hlast
    refine (same_iff_of_forget hl hpl hn).2 (hequal last hmem p.1 ?_ haddress l n hl hn)
    rw [← hnames]
    exact List.mem_map_of_mem hp

end Run

/-! ### Two small corpora -/

/-- The corpus at `file:///schema/` of two documents that are put in under the given names. -/
def twoDocuments (name name' : String) : Except LoadError Corpus := do
  let base : Address := { scheme := "file", host := some "", path := .segments ["schema"] }
  let c ← (empty base).insert name "\x7b\"type\": \"string\"\x7d".toUTF8
  c.insert name' "\x7b\"type\": \"object\"\x7d".toUTF8

/-- Under two addresses either document is resolved to itself. -/
theorem resolve_twoAddresses : ∃ c resolved s, twoDocuments "a.json" "b.json" = .ok c ∧
    (c.ReferenceFree ∧ (∀ d ∈ c.documents, Registry.anchor? {} d.address "" = none) ∧
      (c.resolve 3).run.run (.ofRegistry {}) = (.ok resolved, s)) ∧
    resolved.map Prod.fst = c.documents ∧
    ∀ p ∈ resolved, ∀ n, Node.ofBytes p.1.content = .ok n → p.2.same n = true := by
  have hevaluated : (twoDocuments "a.json" "b.json").toOption.any (fun c =>
      decide (c.ReferenceFree ∧ (c.documents.map fun d => d.address.withoutFragment).Nodup) &&
        ((c.resolve 3).run.run (.ofRegistry {})).1.toOption.any fun _ => true) = true := by
    decide +kernel
  obtain ⟨c, hc, hevaluated⟩ := exists_of_any_toOption hevaluated
  obtain ⟨hdocuments, hresolves⟩ := Bool.and_eq_true_iff.1 hevaluated
  obtain ⟨free, hdistinct⟩ := of_decide_eq_true hdocuments
  obtain ⟨resolved, hresolved, -⟩ := exists_of_any_toOption hresolves
  have unnamed : ∀ d ∈ c.documents, Registry.anchor? {} d.address "" = none := fun _ _ => rfl
  have hrun : (c.resolve 3).run.run (.ofRegistry {}) = (.ok resolved, _) := Prod.ext hresolved rfl
  have hunshadowed : c.Unshadowed := by
    intro d hd e he haddress m n hm hn
    obtain rfl := List.inj_on_of_nodup_map hdistinct hd he haddress
    obtain rfl : m = n := Except.ok.inj (hm.symm.trans hn)
    exact Node.same_refl m
  obtain ⟨hnames, -, hown⟩ := resolve_referenceFree free unnamed hrun
  exact ⟨c, resolved, _, hc, ⟨free, unnamed, hrun⟩, hnames, hown.2 hunshadowed⟩

/-- **A document may shadow another one.**  Of two documents without references whose names differ
behind the number sign, one is not resolved to itself. -/
theorem shadowed : ∃ c resolved s, twoDocuments "a#1.json" "a#2.json" = .ok c ∧ c.ReferenceFree ∧
    (c.resolve 3).run.run (.ofRegistry {}) = (.ok resolved, s) ∧
    ∃ p ∈ resolved, ∃ n, Node.ofBytes p.1.content = .ok n ∧ p.2.same n = false := by
  have hevaluated : (twoDocuments "a#1.json" "a#2.json").toOption.any (fun c =>
      decide c.ReferenceFree &&
        ((c.resolve 3).run.run (.ofRegistry {})).1.toOption.any fun resolved =>
          resolved.any fun p => (Node.ofBytes p.1.content).toOption.any fun n =>
            !p.2.same n) = true := by
    decide +kernel
  obtain ⟨c, hc, hevaluated⟩ := exists_of_any_toOption hevaluated
  obtain ⟨free, hshadowed⟩ := Bool.and_eq_true_iff.1 hevaluated
  obtain ⟨resolved, hresolved, hshadowed⟩ := exists_of_any_toOption hshadowed
  obtain ⟨p, hp, hshadowed⟩ := List.any_eq_true.1 hshadowed
  obtain ⟨n, hn, hother⟩ := exists_of_any_toOption hshadowed
  exact ⟨c, resolved, _, hc, of_decide_eq_true free, Prod.ext hresolved rfl, p, hp, n, hn,
    by simpa using hother⟩

end Corpus

end SchemaCatalog
