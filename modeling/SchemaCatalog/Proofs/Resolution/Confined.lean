import SchemaCatalog.Proofs.Resolution.Graph

/-!
# Sets of places closed under references

A tree is `Confined` to a set of places if its references name places in the set, and a place is
if a confined tree stands there.  Where that fails there is a fault, and `fail` says which faults
are allowed: none, or all that do not depend on the limit of a run.  If every place in a finite set
is confined to it, the set is closed under references, and a run that starts inside stays inside.

A run changes its registry, and so these are properties that its steps keep: nodes are named by
their anchors, and an expansion takes the place of its target.
-/

namespace SchemaCatalog

/-- Whether the references in a tree, which stands in the document at `current`, name places in a
set, but for allowed faults. -/
structure Node.Confined (T : Finset Address) (fail : ResolveError → Prop) (current : Address)
    (n : Node) : Prop where
  target : ∀ m ∈ n.nodes, ∀ reference, m.references = [reference] →
    ∀ t, current.target reference = .ok t → t.place ∈ T
  malformed : ∀ m ∈ n.nodes, ∀ reference, m.references = [reference] →
    ∀ e, current.target reference = .error e → fail e
  several : ∀ m ∈ n.nodes, 1 < m.references.length →
    fail (.malformed (", ".intercalate m.references) .several)

/-- Whether a tree stands at a place whose references name places in a set, but for allowed
faults. -/
structure Registry.ConfinedAt (T : Finset Address) (fail : ResolveError → Prop) (r : Registry)
    (p : Address) : Prop where
  missing : ∀ e, r.raw p = .error e → fail e
  tree : ∀ n, r.raw p = .ok n → n.Confined T fail p

/-- Whether a set of places is closed under references, but for allowed faults. -/
def Registry.Confined (T : Finset Address) (fail : ResolveError → Prop) (r : Registry) : Prop :=
  ∀ p ∈ T, r.ConfinedAt T fail p

variable {T T' : Finset Address} {fail : ResolveError → Prop} {current p : Address}

namespace Node.Confined

variable {n m : Node}

lemma mono (h : n.Confined T fail current) (sub : T ⊆ T') : n.Confined T' fail current :=
  ⟨fun m hm reference hone t ht => sub (h.target m hm reference hone t ht), h.malformed, h.several⟩

/-- Identities and base addresses do not matter. -/
lemma of_forget (h : n.Confined T fail current) (hforget : m.forget = n.forget) :
    m.Confined T fail current := by
  have transfer : ∀ l ∈ m.nodes, ∃ l' ∈ n.nodes, l.references = l'.references := by
    intro l hl
    obtain ⟨l', hl', hforget'⟩ := exists_mem_nodes hforget hl
    exact ⟨l', hl', (references_congr hforget').symm⟩
  constructor
  · intro l hl reference hone
    obtain ⟨l', hl', hreferences⟩ := transfer l hl
    exact h.target l' hl' reference (hreferences ▸ hone)
  · intro l hl reference hone
    obtain ⟨l', hl', hreferences⟩ := transfer l hl
    exact h.malformed l' hl' reference (hreferences ▸ hone)
  · intro l hl hmore
    obtain ⟨l', hl', hreferences⟩ := transfer l hl
    rw [hreferences] at hmore ⊢
    exact h.several l' hl' hmore

/-- The place in the document does not matter. -/
lemma of_document {a b : Address} (h : n.Confined T fail a)
    (hdocument : a.withoutFragment = b.withoutFragment) : n.Confined T fail b := by
  have htarget (reference : String) : b.target reference = a.target reference := by
    rw [← b.target_withoutFragment, ← hdocument, a.target_withoutFragment]
  constructor
  · intro m hm reference hone t ht
    exact h.target m hm reference hone t (htarget reference ▸ ht)
  · intro m hm reference hone e he
    exact h.malformed m hm reference hone e (htarget reference ▸ he)
  · exact h.several

lemma of_mem (h : n.Confined T fail current) (hm : m ∈ n.nodes) : m.Confined T fail current where
  target l hl := h.target l (mem_nodes_trans hm hl)
  malformed l hl := h.malformed l (mem_nodes_trans hm hl)
  several l hl := h.several l (mem_nodes_trans hm hl)

lemma of_hasReferences (h : n.hasReferences = false) : n.Confined T fail current := by
  have hnone := hasReferences_eq_false_iff.1 h
  constructor
  · intro m hm reference hone
    rw [hnone m hm] at hone
    cases hone
  · intro m hm reference hone
    rw [hnone m hm] at hone
    cases hone
  · intro m hm hmore
    rw [hnone m hm] at hmore
    exact absurd hmore (Nat.not_lt_zero 1)

end Node.Confined

namespace Registry

variable {r r' : Registry} {m : Node}

namespace ConfinedAt

lemma of_ok (hm : r.raw p = .ok m) (h : m.Confined T fail p) : r.ConfinedAt T fail p := by
  constructor
  · intro e he
    rw [hm] at he
    cases he
  · intro n hn
    obtain rfl : m = n := Except.ok.inj (hm.symm.trans hn)
    exact h

lemma mono (h : r.ConfinedAt T fail p) (sub : T ⊆ T') : r.ConfinedAt T' fail p :=
  ⟨h.missing, fun n hn => (h.tree n hn).mono sub⟩

lemma alike (h : r.ConfinedAt T fail p) (halike : r.Alike r') : r'.ConfinedAt T fail p where
  missing e he := h.missing e (error_of_map_forget (halike.raw p) he)
  tree n hn := by
    obtain ⟨n', hn', hforget⟩ := ok_of_map_forget (halike.raw p) hn
    exact (h.tree n' hn').of_forget hforget

/-- A place stays confined if it holds what it held before or a confined tree. -/
lemma of_raw (h : r.ConfinedAt T fail p) (hm : m.Confined T fail current)
    (hraw : r'.raw p = r.raw p ∨
      current.withoutFragment = p.withoutFragment ∧ r'.raw p = .ok m) :
    r'.ConfinedAt T fail p := by
  rcases hraw with hold | ⟨hdocument, hnew⟩
  · exact ⟨fun e he => h.missing e (hold ▸ he), fun n hn => h.tree n (hold ▸ hn)⟩
  · exact .of_ok hnew (hm.of_document hdocument)

end ConfinedAt

namespace Confined

lemma alike (h : r.Confined T fail) (halike : r.Alike r') : r'.Confined T fail :=
  fun p hp => (h p hp).alike halike

lemma setAnchors (h : r.Confined T fail) (hm : m.Confined T fail current) :
    (r.setAnchors current m).Confined T fail :=
  fun p hp => (h p hp).of_raw hm (r.raw_setAnchors current p m)

lemma setAnchor (h : r.Confined T fail) {name : String} (hm : m.Confined T fail current) :
    (r.setAnchor current name m).Confined T fail :=
  fun p hp => (h p hp).of_raw hm (r.raw_setAnchor current p name m)

lemma raw (h : r.Confined T fail) (hp : p ∈ T) {n : Node} (hn : r.raw p = .ok n)
    (hforget : m.forget = n.forget) : m.Confined T fail p.withoutFragment :=
  (((h p hp).tree n hn).of_forget hforget).of_document p.withoutFragment_idem.symm

end Confined

end Registry

end SchemaCatalog
