import SchemaCatalog.Proofs.Resolution.ReferenceFree

/-!
# Resolving again

A tree without references resolves to a copy of itself (`Node.ResolvesToItself`): the call succeeds
under any limit, for there is no target to open, and it asks for no document.  All it does to the
resolver is to name the anchors of the tree once more and to count identities
(`Resolver.Unmoved`).  The rounds in which keywords are expanded put each back in its place
(`Resolution.rounds_join`), and so the copy has the keywords in the order in which they are
declared.

What a resolution returns has no references, so it is resolved already, and to resolve it again
changes nothing (`Resolution.resolves_again`).
-/

namespace SchemaCatalog

/-- Whether nothing is different in a later resolver but the places that are named and the count of
identities: it has the same documents, asks the same source and has asked it for nothing more, and
it keeps the same expansions, open targets and cut. -/
def Resolver.Unmoved (s s' : Resolver) : Prop :=
  ∃ anchors next, s' = s.withRegistry { s.registry with anchors, nextIdentity := next }

/-- Whether a node resolves to a copy of itself wherever it stands, whatever the resolver has. -/
def Node.ResolvesToItself (n : Node) : Prop :=
  ∀ limit current s, ∃ m s', Resolution.outcome (Resolution.node limit n current) s = (.ok m, s') ∧
    n.Copies m ∧ s.Unmoved s'

namespace Resolution

/-- The discipline of resolvers in which nothing is different but names and identities. -/
def unmoved : Discipline where
  inv _ := True
  later := Resolver.Unmoved
  refl s := ⟨s.registry.anchors, s.registry.nextIdentity, rfl⟩
  trans := by
    rintro s _ _ ⟨_, _, rfl⟩ ⟨anchors, next, rfl⟩
    exact ⟨anchors, next, rfl⟩

lemma keeps_unmoved_of_referenceFree {n : Node} (free : n.hasReferences = false)
    (expand : Address → Resolution Node) (current : Address) (s : Resolver) :
    Keeps unmoved (expandNode expand current n) s (fun m _ => n.Copies m) fun _ => False := by
  refine Logic.expandNode_of_referenceFree (L := unmoved.logic) free (fun s' m _ => ?_)
    (fun m _ s' _ => ?_) s
  · exact ⟨trivial, ⟨s'.registry.anchors, s'.registry.nextIdentity + 1, rfl⟩, rfl, rfl, rfl⟩
  · obtain ⟨anchors, hanchors⟩ := s'.registry.exists_setAnchors_eq current m
    rw [ensures_setAnchors, hanchors]
    exact ⟨trivial, ⟨anchors, s'.registry.nextIdentity, rfl⟩, trivial⟩

/-- What has no reference resolves to itself. -/
theorem resolvesToItself_of_referenceFree {n : Node} (free : n.hasReferences = false) :
    n.ResolvesToItself := by
  intro limit current s
  obtain ⟨next, hadopt⟩ := s.registry.exists_adopt_eq n
  have hadopted : s.Unmoved (s.withRegistry (s.registry.adopt n).2) :=
    ⟨s.registry.anchors, next, by rw [hadopt]⟩
  have hcopies := s.registry.copies_adopt n
  have hfree := Node.hasReferences_of_forget hcopies.forget_eq.symm free
  have hexpands := keeps_unmoved_of_referenceFree hfree (expandTarget limit) current
    (s.withRegistry (s.registry.adopt n).2) trivial
  refine Ensures.exists_ok ?_
  rw [node, ensures_bind, ensures_onRegistry]
  refine hexpands.mono ?_ fun _ _ h => h.2.2
  rintro m s' ⟨-, hlater, hm⟩
  exact ⟨hcopies.trans hm, unmoved.trans hadopted hlater⟩

/-- **Resolution is idempotent.**  A node without references resolves to a copy of itself, and the
resolver is as it was but for names and identities.  Whatever a node or a document resolves to at
some point of some session is such a node. -/
theorem resolves_again :
    (∀ n : Node, n.hasReferences = false → n.ResolvesToItself) ∧
      ∀ s : Resolver, s.Reachable → ∀ limit m s',
        ((∃ n current, outcome (node limit n current) s = (.ok m, s')) ∨
          ∃ address, outcome (document limit address) s = (.ok m, s')) →
        m.hasReferences = false ∧ m.ResolvesToItself := by
  refine ⟨fun n => resolvesToItself_of_referenceFree, fun s hs limit m s' hrun => ?_⟩
  have hfree : m.hasReferences = false := by
    rcases hrun with ⟨n, current, hrun⟩ | ⟨address, hrun⟩
    · exact ((node_referenceFree limit n current s hs.referenceFree).of_ok hrun).2.2
    · exact ((document_referenceFree limit address s hs.referenceFree).of_ok hrun).2.2
  exact ⟨hfree, resolvesToItself_of_referenceFree hfree⟩

/-- The document that refers to itself resolves, and what it resolves to does so again, though no
target may be opened. -/
theorem resolves_again_in_ring :
    ∃ m s', outcome (document 3 (.inMemory "ring")) (.ofRegistry .threeDocuments) = (.ok m, s') ∧
      ∃ m' s'', outcome (node 0 m (.inMemory "ring")) s' = (.ok m', s'') ∧ m.Copies m' ∧
        s'.Unmoved s'' := by
  obtain ⟨m, s', h⟩ : ∃ m s',
      outcome (document 3 (.inMemory "ring")) (.ofRegistry .threeDocuments) = (.ok m, s') :=
    exists_of_isOk (by decide +kernel)
  obtain ⟨hself, hresolved⟩ := resolves_again
  obtain ⟨hfree, -⟩ := hresolved _ (.start .threeDocuments) 3 m s' (.inr ⟨.inMemory "ring", h⟩)
  exact ⟨m, s', h, hself m hfree 0 (.inMemory "ring") s'⟩

end Resolution

end SchemaCatalog
