import SchemaCatalog.Proofs.Api.Runs
import SchemaCatalog.Proofs.Resolution.Soundness

/-!
# Which corpora resolve

Whether a document resolves is a matter of the documents alone.  It does exactly if it is `Settled`:
if it is a member of a finite set of places that is closed under references, with a tree at each of
them that has no faults.  One way, an expansion of a target is a witness that it is settled; the
other way, a run in such a set cannot fail, and its size gives the limit.

`resolves_iff_settled` says so of a corpus.  Nothing in `Settled` speaks of an order, neither of
that in which documents are resolved nor of that in which the members of a document stand.
-/

namespace SchemaCatalog

namespace Registry

/-- Whether a set of places is closed under references and without faults, but for places that
count as `opened`. -/
def Settles (r : Registry) (opened : List Address) (T : Finset Address) : Prop :=
  ∀ q ∈ T, q ∈ opened ∨ r.ConfinedAt T (fun _ => False) q

/-- Whether what is referred to from a place, directly or not, are finitely many places with trees
without faults, but for places that count as `opened`. -/
def Settled (r : Registry) (opened : List Address) (p : Address) : Prop :=
  ∃ T : Finset Address, p ∈ T ∧ r.Settles opened T

variable {r : Registry} {opened : List Address} {T T' : Finset Address} {p : Address}

lemma Settles.union (h : r.Settles opened T) (h' : r.Settles opened T') :
    r.Settles opened (T ∪ T') := by
  intro q hq
  rcases Finset.mem_union.1 hq with hq | hq
  · exact (h q hq).imp_right fun h => h.mono Finset.subset_union_left
  · exact (h' q hq).imp_right fun h => h.mono Finset.subset_union_right

lemma Settles.confined (h : r.Settles [] T) : r.Confined T fun _ => False :=
  fun q hq => (h q hq).resolve_left List.not_mem_nil

/-- Finitely many settled places are members of one such set. -/
lemma exists_settles {ps : List Address} (h : ∀ p ∈ ps, r.Settled opened p) :
    ∃ T : Finset Address, (∀ p ∈ ps, p ∈ T) ∧ r.Settles opened T := by
  induction ps with
  | nil => exact ⟨∅, fun p hp => absurd hp List.not_mem_nil, fun q hq => absurd hq (by simp)⟩
  | cons p ps ih =>
    obtain ⟨⟨T, hp, hT⟩, hps⟩ := List.forall_mem_cons.1 h
    obtain ⟨T', hmem, hT'⟩ := ih hps
    refine ⟨T ∪ T', List.forall_mem_cons.2 ⟨?_, fun q hq => ?_⟩, hT.union hT'⟩
    · exact Finset.mem_union_left T' hp
    · exact Finset.mem_union_right T (hmem q hq)

lemma settled_of_mem (h : p ∈ opened) : r.Settled opened p := by
  refine ⟨{p}, Finset.mem_singleton_self p, fun q hq => .inl ?_⟩
  rwa [Finset.mem_singleton.1 hq]

/-- A place is settled if its tree has no faults and its references name settled places, where the
place itself may count as opened. -/
lemma settled_of_nested {n : Node} (hn : r.raw p = .ok n)
    (h : ∀ m ∈ n.nodes, m.references = [] ∨ ∃ reference t, m.references = [reference] ∧
      p.target reference = .ok t ∧ r.Settled (p :: opened) t.place) : r.Settled opened p := by
  have htargets : ∀ q ∈ n.targets p, r.Settled (p :: opened) q := by
    intro q hq
    obtain ⟨m, hm, reference, hreference, t, ht, rfl⟩ := Node.mem_targets.1 hq
    rcases h m hm with hnone | ⟨_, t', hone, ht', hsettled⟩
    · rw [hnone] at hreference
      exact absurd hreference List.not_mem_nil
    · rw [hone, List.mem_singleton] at hreference
      subst hreference
      obtain rfl : t' = t := Except.ok.inj (ht'.symm.trans ht)
      exact hsettled
  obtain ⟨T, hmem, hT⟩ := exists_settles htargets
  have hconfined : n.Confined (insert p T) (fun _ => False) p := by
    constructor
    · intro m hm reference hone t ht
      refine Finset.mem_insert_of_mem (hmem _ ?_)
      exact Node.targets_subset hm (Node.place_mem_targets hone ht)
    · intro m hm reference hone e he
      rcases h m hm with hnone | ⟨_, t, hone', ht, -⟩
      · rw [hnone] at hone
        cases hone
      · obtain rfl := List.singleton_injective (hone.symm.trans hone')
        rw [he] at ht
        cases ht
    · intro m hm hmore
      rcases h m hm with hnone | ⟨_, _, hone, -⟩
      · rw [hnone] at hmore
        exact absurd hmore (Nat.not_lt_zero 1)
      · rw [hone] at hmore
        exact absurd hmore (Nat.lt_irrefl 1)
  have hp : r.ConfinedAt (insert p T) (fun _ => False) p := .of_ok hn hconfined
  refine ⟨insert p T, Finset.mem_insert_self p T, fun q hq => ?_⟩
  rcases Finset.mem_insert.1 hq with rfl | hq
  · exact .inr hp
  rcases hT q hq with hopened | hq
  · rcases List.mem_cons.1 hopened with rfl | hopened
    · exact .inr hp
    · exact .inl hopened
  · exact .inr (hq.mono (Finset.subset_insert p T))

theorem Expansion.settled {m : Node} (h : r.Expansion opened p m) : r.Settled opened p := by
  induction h with
  | cut inside _ => exact settled_of_mem inside
  | @expand opened p n m P raw _ replaced ih =>
    refine settled_of_nested raw fun c hc => ?_
    rw [← Node.references_forget]
    have hc' : c.forget ∈ n.forget.nodes := by
      rw [Node.nodes_forget]
      exact List.mem_map_of_mem hc
    rcases replaced.references c.forget hc' with hnone | ⟨reference, t, l, hone, ht, hP⟩
    · exact .inl hnone
    · rw [Address.target_withoutFragment] at ht
      exact .inr ⟨reference, t, hone, ht, ih t.place l hP⟩

end Registry

/-! ## Documents -/

open Resolution Resolver

section Session

variable {r : Registry} {T : Finset Address} {limit : Nat} {ds : List Document}
  {docs : List (Document × Node)} {s s' : Resolver}

/-- Documents that have resolved are settled. -/
lemma settled_of_resolveEach (fresh : r.anchors = []) (tidy : r.TidyAnchors)
    (distinct : r.Unambiguous) (calls : List (Nat × Address))
    (h : (Run.resolveEach limit ds).run.run (afterDocuments r calls) = (.ok docs, s)) :
    ∀ d ∈ ds, r.Settled [] d.address.withoutFragment := by
  induction ds generalizing calls docs with
  | nil => exact fun d hd => absurd hd List.not_mem_nil
  | cons d ds ih =>
    obtain ⟨m, s₁, rest, hm, hrest, -⟩ := Run.resolveEach_cons_eq_ok.1 h
    have hexpansion := (document_expansion fresh tidy distinct calls limit d.address).of_ok hm
    obtain rfl : s₁ = afterDocuments r (calls ++ [(limit, d.address)]) := by
      unfold afterDocuments at hm ⊢
      rw [List.foldl_append, List.foldl_cons, List.foldl_nil, hm]
    exact List.forall_mem_cons.2 ⟨hexpansion.1.settled, ih _ hrest⟩

lemma exists_resolveEach (hs : Bounded T (fun _ => False) limit s)
    (hds : ∀ d ∈ ds, d.address.withoutFragment ∈ T) :
    ∃ docs s', (Run.resolveEach limit ds).run.run s = (.ok docs, s') := by
  induction ds generalizing s with
  | nil => exact ⟨[], s, rfl⟩
  | cons d ds ih =>
    obtain ⟨hd, hds⟩ := List.forall_mem_cons.1 hds
    rw [← d.address.place_withoutFragment] at hd
    have hrun : Ensures (Resolution.document limit d.address) s _ _ :=
      expandTarget_confined hd s hs
    rcases hm : outcome (Resolution.document limit d.address) s with ⟨e | m, s₁⟩
    · exact (hrun.of_error hm).2.2.elim
    · obtain ⟨rest, s', hrest⟩ := ih (hrun.of_ok hm).1 hds
      exact ⟨(d, m) :: rest, s', Run.resolveEach_cons_eq_ok.2 ⟨m, s₁, rest, hm, hrest, rfl⟩⟩

end Session

namespace Corpus

/-- Whether a corpus resolves over a registry, under some limit. -/
def Resolves (c : Corpus) (r : Registry) : Prop :=
  ∃ limit docs s, (c.resolve limit).run.run (.ofRegistry r) = (.ok docs, s)

variable {c : Corpus} {r : Registry} {docs : List (Document × Node)}

lemma Resolves.exists_decode (h : c.Resolves r) :
    ∃ docs, c.documents.mapM Document.decode = .ok docs := by
  obtain ⟨limit, resolved, s, h⟩ := h
  obtain ⟨docs, hdocs, -⟩ := run_resolve_eq_ok.1 h
  exact ⟨docs, hdocs⟩

/-- Settled documents resolve, whatever the anchors in them. -/
theorem resolves_of_settled (hdocs : c.documents.mapM Document.decode = .ok docs)
    (h : ∀ d ∈ c.documents, (r.registerAll docs).Settled [] d.address.withoutFragment) :
    c.Resolves r := by
  have hall : ∀ p ∈ c.documents.map fun d => d.address.withoutFragment,
      (r.registerAll docs).Settled [] p := List.forall_mem_map.2 h
  obtain ⟨T, hmem, hT⟩ := Registry.exists_settles hall
  have hstart : Bounded T (fun _ => False) (2 * T.card + 2) (.ofRegistry (r.registerAll docs)) :=
    bounded_of_reachable (.start _) hT.confined
  obtain ⟨resolved, s, hrun⟩ := exists_resolveEach hstart (List.forall_mem_map.1 hmem)
  exact ⟨_, resolved, s, run_resolve_eq_ok.2 ⟨docs, hdocs, hrun⟩⟩

/-- **A corpus resolves exactly if its documents are settled**, provided that they are tidy and
unambiguous together with what the source has. -/
theorem resolves_iff_settled (hdocs : c.documents.mapM Document.decode = .ok docs)
    (fresh : (r.registerAll docs).anchors = []) (tidy : (r.registerAll docs).TidyAnchors)
    (distinct : (r.registerAll docs).Unambiguous) :
    c.Resolves r ↔
      ∀ d ∈ c.documents, (r.registerAll docs).Settled [] d.address.withoutFragment := by
  refine ⟨?_, resolves_of_settled hdocs⟩
  rintro ⟨limit, resolved, s, hrun⟩
  obtain ⟨docs', hdocs', hrun⟩ := run_resolve_eq_ok.1 hrun
  obtain rfl : docs' = docs := Except.ok.inj (hdocs'.symm.trans hdocs)
  exact settled_of_resolveEach fresh tidy distinct [] hrun

end Corpus

end SchemaCatalog
