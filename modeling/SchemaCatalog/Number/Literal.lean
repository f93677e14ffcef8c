import SchemaCatalog.Number.Basic

/-!
# Reading decimal literals

A literal is a sign, digits, and perhaps a fraction and an exponent. Without the last two, and
within 64 bits, it is a whole number, with one exception: minus zero is a floating-point number.
Every other literal is read in two roundings. Its digits are gathered into a significand of 64
bits, integer digits beyond that width only raising the power of ten and fraction digits beyond
it being dropped; the significand is rounded to a floating-point number; and that number is
multiplied or divided by the rounded power of ten. Powers beyond `10 ^ 308` have no rounded
form: such a product is out of range and such a quotient is taken in steps of `10 ^ 308`.

So a literal need not read as the floating-point number nearest to it, and the digits of the
result must be computed as stated. `Literal.number?` is `none` exactly where the literal
overflows.
-/

namespace SchemaCatalog

/-- The parts of a decimal literal; digits are numbers below ten, the leading one first. -/
structure Literal where
  /-- Whether the literal starts with a minus sign. -/
  negative : Bool
  integer : List Nat
  /-- The digits after the point, if there is a point. -/
  fraction : Option (List Nat)
  exponent : Option Int
  deriving DecidableEq, Repr

namespace Literal

/-- The least number beyond the width of a significand. -/
def significandBound : Nat := Nat.pow 2 64

/-- Append digits to a significand while the result fits its width; the second part counts the
digits taken. -/
def gather : Nat → List Nat → Nat × Nat
  | sig, [] => (sig, 0)
  | sig, d :: ds =>
    if sig * 10 + d < significandBound then
      let (s, n) := gather (sig * 10 + d) ds
      (s, n + 1)
    else (sig, 0)

/-- The number written by a list of digits. -/
def ofDigits (ds : List Nat) : Nat := ds.foldl (fun n d => n * 10 + d) 0

/-- The quotient by `10 ^ 308`, taken the given number of times or until nothing is left. -/
def divideSteps : Nat → Binary64 → Option Binary64
  | 0, x => some x
  | n + 1, x =>
    if x.isZero then some x else do divideSteps n (← x.div (← Binary64.powerOfTen 308))

/-- The quotient by a power of ten, in steps of `10 ^ 308` where the power is larger. -/
def divideByPower (x : Binary64) (k : Nat) : Option Binary64 := do
  let steps := (k - 1) / 308
  let y ← divideSteps steps x
  if y.isZero then some y else y.div (← Binary64.powerOfTen (k - 308 * steps))

/-- A significand times a power of ten, rounded once for each of the two operations. -/
def scale (sig : Nat) (exponent : Int) : Option Binary64 := do
  let x ← Binary64.ofNat sig
  if x.isZero then some x
  else if exponent < 0 then divideByPower x exponent.natAbs
  else if 308 < exponent then none
  else x.mul (← Binary64.powerOfTen exponent.toNat)

/-- The floating-point number of a literal, `none` if it is out of range. -/
def float? (l : Literal) : Option Binary64 := do
  let (sig, taken) := gather 0 l.integer
  let raised := l.integer.length - taken
  let (sig, lowered) := gather sig (l.fraction.getD [])
  let x ← scale sig ((raised : Int) - lowered + l.exponent.getD 0)
  return if l.negative then x.neg else x

/-- The whole number of a literal that has neither fraction nor exponent and fits 64 bits. -/
def whole? (l : Literal) : Option Int :=
  match l.fraction, l.exponent with
  | none, none =>
    let n := ofDigits l.integer
    if l.negative then
      if n = 0 then none else if n ≤ Nat.pow 2 63 then some (-n) else none
    else if n < significandBound then some n else none
  | _, _ => none

/-- The number of a literal, `none` if it is out of range. -/
def number? (l : Literal) : Option Number :=
  match l.whole? with
  | some n => some (.whole n)
  | none => l.float?.map .float

end Literal

end SchemaCatalog
