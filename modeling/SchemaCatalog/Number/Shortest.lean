import SchemaCatalog.Number.Basic

/-!
# The shortest decimal that reads back

A finite floating-point number is the nearest one to every real within half a gap of it, the
ends of that interval included when its mantissa is even. `Binary64.shortest` writes it with the
fewest significant digits that name a decimal in the interval, and of two such decimals the
nearer one. The search goes over decimal grids from coarse to fine: on the grid of `n`
significant digits the two neighbours of the number are tried, which is enough, because a grid
that meets the interval at all meets it in one of these two.

`Number.text` is the written form. With `E` the exponent of the first digit, numbers with
`-5 ≤ E < 16` are written positionally and always show a digit behind the point; all others have
one digit before the point and a signed exponent.
-/

namespace SchemaCatalog

/-- A decimal: the number written by its digits, the last of them not zero, times a power of
ten. -/
structure Decimal where
  /-- The digits as one number. -/
  significand : Nat
  exponent : Int
  deriving DecidableEq, Repr, Inhabited

namespace Decimal

/-- Remove up to the given number of trailing zeros. -/
def strip : Nat → Decimal → Decimal
  | 0, d => d
  | n + 1, d =>
    if d.significand % 10 = 0 then strip n ⟨d.significand / 10, d.exponent + 1⟩ else d

end Decimal

namespace Binary64

/-- The reals that round to a positive number, as numerators over one common denominator. -/
structure Interval where
  low : Nat
  mid : Nat
  high : Nat
  /-- The common denominator. -/
  den : Nat
  /-- Whether the ends belong to the interval. -/
  closed : Bool

/-- The rounding interval of the magnitude of a number. Below a power of two the gap is half as
wide, unless the exponent is the least already. -/
def interval (x : Binary64) : Interval :=
  let m := x.mantissa
  let below := if m = Nat.pow 2 52 ∧ leastExponent < x.exponent then 1 else 2
  let (scale, den) :=
    if 2 ≤ x.exponent then (Nat.pow 2 (x.exponent - 2).toNat, 1)
    else (1, Nat.pow 2 (2 - x.exponent).toNat)
  ⟨(4 * m - below) * scale, 4 * m * scale, (4 * m + 2) * scale, den, m % 2 = 0⟩

/-- Whether the decimal `s · 10 ^ k` lies in an interval. -/
def Interval.contains (i : Interval) (s : Nat) (k : Int) : Bool :=
  let v := if 0 ≤ k then s * Nat.pow 10 k.toNat * i.den else s * i.den
  let unit := if 0 ≤ k then 1 else Nat.pow 10 (-k).toNat
  if i.closed then i.low * unit ≤ v && v ≤ i.high * unit
  else i.low * unit < v && v < i.high * unit

/-- The neighbour of the number on the grid of multiples of `10 ^ k` that lies in the interval,
the nearer one if both do, the even one if they are equally near. -/
def Interval.onGrid (i : Interval) (k : Int) : Option Nat :=
  let num := if 0 ≤ k then i.mid else i.mid * Nat.pow 10 (-k).toNat
  let den := if 0 ≤ k then i.den * Nat.pow 10 k.toNat else i.den
  let q := num / den
  match i.contains q k, i.contains (q + 1) k with
  | true, true => some (divNearest num den)
  | true, false => some q
  | false, true => some (q + 1)
  | false, false => none

/-- The exponent of the first decimal digit of a positive quotient, searched upwards from a
bound below it. -/
def firstDigitFrom (num den : Nat) : Nat → Int → Int
  | 0, e => e
  | fuel + 1, e =>
    let next := e + 1
    let atLeast :=
      if 0 ≤ next then den * Nat.pow 10 next.toNat ≤ num
      else den ≤ num * Nat.pow 10 (-next).toNat
    if atLeast then firstDigitFrom num den fuel next else e

/-- The exponent of the first decimal digit: between the power of two of the number, scaled by a
lower bound of the ratio of the logarithms, and two more. -/
def firstDigit (num den : Nat) : Int :=
  let l : Int := (num.log2 : Int) - den.log2 - 1
  firstDigitFrom num den 4 (Int.fdiv (l * 30103) 100000 - 1)

/-- The first grid of at most `n` further digits that meets the interval. -/
def Interval.search (i : Interval) : Nat → Int → Option Decimal
  | 0, _ => none
  | n + 1, k =>
    match i.onGrid k with
    | some s => some ⟨s, k⟩
    | none => i.search n (k - 1)

/-- The shortest decimal that reads back as the magnitude of a number, the nearest such one. -/
def shortest (x : Binary64) : Decimal :=
  if x.isZero then ⟨0, 0⟩
  else
    let i := x.interval
    match i.search 17 (firstDigit i.mid i.den) with
    | some d => d.strip 20
    | none => ⟨0, 0⟩

/-- The digits of a decimal and the exponent of the first of them. -/
def digits (x : Binary64) : List Char × Int :=
  let d := x.shortest
  let cs := Nat.toDigits 10 d.significand
  (cs, d.exponent + cs.length - 1)

/-- The written form of a floating-point number. -/
def text (x : Binary64) : String :=
  let (cs, e) := x.digits
  let body :=
    if e < -5 ∨ 16 ≤ e then
      let mantissa := match cs with
        | [c] => [c]
        | c :: cs => c :: '.' :: cs
        | [] => []
      let sign := if e < 0 then '-' else '+'
      mantissa ++ 'e' :: sign :: Nat.toDigits 10 e.natAbs
    else if e < 0 then
      '0' :: '.' :: List.replicate (e.natAbs - 1) '0' ++ cs
    else
      let whole := cs.take (e.toNat + 1)
      let rest := cs.drop (e.toNat + 1)
      whole ++ List.replicate (e.toNat + 1 - whole.length) '0' ++
        '.' :: (if rest.isEmpty then ['0'] else rest)
  String.ofList (if x.negative then '-' :: body else body)

end Binary64

namespace Number

/-- The written form of a number. -/
def text : Number → String
  | .whole n => toString n
  | .float x => x.text

end Number

end SchemaCatalog
