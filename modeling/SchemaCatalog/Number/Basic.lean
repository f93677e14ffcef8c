import SchemaCatalog.Number.Binary64

/-!
# Numbers of a document

A number of a document is a whole number or a floating-point number, and which of the two it is
stays visible: `1` and `1.0` are different numbers. The reader makes whole numbers only of
literals that fit 64 bits with or without a sign, so the two ranges are named here; what asks
for a count or for a code of an error asks for a whole number within one of them.
-/

namespace SchemaCatalog

/-- A number as a document holds it. -/
inductive Number where
  | whole (n : Int)
  | float (x : Binary64)
  deriving DecidableEq, Repr, Inhabited

namespace Number

/-- Whether a whole number fits 64 bits without a sign. -/
def fitsUnsigned (n : Int) : Bool := 0 ≤ n && n < Nat.pow 2 64

/-- Whether a whole number fits 64 bits with a sign. -/
def fitsSigned (n : Int) : Bool := -Nat.pow 2 63 ≤ n && n < Nat.pow 2 63

/-- The number as a count: a whole number from zero that fits 64 bits. -/
def count? : Number → Option Nat
  | .whole n => if fitsUnsigned n then some n.toNat else none
  | .float _ => none

/-- The number as a signed code of 64 bits. -/
def code? : Number → Option Int
  | .whole n => if fitsSigned n then some n else none
  | .float _ => none

/-- Equality of value within one of the two kinds. -/
def same : Number → Number → Bool
  | .whole m, .whole n => m == n
  | .float x, .float y => x.same y
  | _, _ => false

@[simp] theorem same_refl (a : Number) : a.same a = true := by
  cases a <;> simp [same]

theorem same_comm (a b : Number) : a.same b = b.same a := by
  cases a <;> cases b <;> simp only [same]
  · exact BEq.comm
  · exact Binary64.same_comm _ _

theorem same_trans {a b c : Number} (hab : a.same b = true) (hbc : b.same c = true) :
    a.same c = true := by
  cases a <;> cases b <;> cases c <;> simp_all [same]
  exact Binary64.same_trans hab hbc

end Number

end SchemaCatalog
