import SchemaCatalog.Proofs.Registry.Content
import SchemaCatalog.Proofs.SameElements

/-!
# Copies of trees

A copy of a tree is the same tree but for the identities of its nodes: at every level it has the
same truth value, the same base address and the same keywords in the same order (`Node.Copies`).
A registry makes copies of what it adopts (`Registry.copies_adopt`).
-/

namespace SchemaCatalog

/-- The second tree is the first one but for identities.  The relation `R` between nested schemas
is any that the relation itself contains. -/
inductive Node.Copies : Node → Node → Prop where
  | mk {n m : Node} {R : Node → Node → Prop} (sub : ∀ a b, R a b → Copies a b)
      (truth : m.truth = n.truth) (base : m.base = n.base)
      (keywords : List.Forall₂ (Keyword.Related R) n.keywords m.keywords) : Copies n m

namespace Node

variable {n m : Node}

lemma copies_iff : n.Copies m ↔ m.truth = n.truth ∧ m.base = n.base ∧
    List.Forall₂ (Keyword.Related Copies) n.keywords m.keywords := by
  constructor
  · rintro ⟨sub, truth, base, keywords⟩
    exact ⟨truth, base, keywords.imp fun _ _ hk => hk.mono fun a _ b hab => sub a b hab⟩
  · rintro ⟨truth, base, keywords⟩
    exact .mk (fun _ _ h => h) truth base keywords

namespace Copies

protected lemma refl (n : Node) : n.Copies n := by
  induction n using induction_nested with
  | step n ih =>
    refine copies_iff.2 ⟨rfl, rfl, List.forall₂_same.2 fun k hk => ?_⟩
    exact Keyword.related_self (ih k hk)

protected lemma trans {l : Node} (h : l.Copies m) (h' : m.Copies n) : l.Copies n := by
  induction h generalizing n with
  | mk sub truth base keywords ih =>
    obtain ⟨truth', base', keywords'⟩ := copies_iff.1 h'
    refine copies_iff.2 ⟨truth'.trans truth, base'.trans base, ?_⟩
    refine forall₂_trans keywords keywords' fun j _ k _ l _ hjk hkl => ?_
    exact hjk.trans hkl fun a b c hab hbc => ih a b hab hbc

lemma forget_eq (h : n.Copies m) : m.forget = n.forget := by
  induction h with
  | mk sub truth base keywords ih =>
    refine (forget_eq_forget_iff.2 ⟨truth.symm, ?_⟩).symm
    exact keywords.imp fun _ _ hk => hk.mono fun a _ b hab => (ih a b hab).symm

end Copies

lemma copies_label (n : Node) (next : Nat) : n.Copies (n.label next).1 := by
  induction n using induction_nested generalizing next with
  | step n ih =>
    obtain ⟨identity, truth, base, keywords⟩ := n
    exact copies_iff.2 ⟨rfl, rfl, related_labelKeywords ih (next + 1)⟩

end Node

lemma Registry.copies_adopt (r : Registry) (n : Node) : n.Copies (r.adopt n).1 := by
  unfold adopt
  split
  · exact .refl n
  · exact n.copies_label r.nextIdentity

end SchemaCatalog
