/-!
# Finite binary floating-point numbers, exactly

A `Binary64` is a sign, a whole mantissa and a power of two, held in the one form in which the
mantissa fills 53 bits unless the exponent is already the least. The arithmetic here is done on
natural numbers and rounded once, to the nearest representable value with ties to an even
mantissa, so every result can be computed and reasoned about without a machine float.

`ofRatio` rounds a quotient; `ofNat`, `mul` and `div` are that rounding of an exact result.
`ofRatio` answers `none` where the rounded value lies beyond the largest finite number.
-/

namespace SchemaCatalog

/-- The finite number `± mantissa · 2 ^ exponent`. Zero keeps its sign. -/
structure Binary64 where
  /-- Whether the number carries a minus sign. -/
  negative : Bool
  /-- A whole number below `2 ^ 53`. -/
  mantissa : Nat
  /-- The power of two, from `-1074` to `971`. -/
  exponent : Int
  deriving DecidableEq, Repr, Inhabited

namespace Binary64

/-- The least exponent, shared by all numbers too small for a full mantissa. -/
def leastExponent : Int := -1074

/-- The exponent of the largest finite numbers. -/
def greatestExponent : Int := 971

/-- Zero with the given sign. -/
def zero (negative : Bool) : Binary64 := ⟨negative, 0, leastExponent⟩

/-- Whether the number is one of the two zeros. -/
def isZero (x : Binary64) : Bool := x.mantissa == 0

/-- The same number with the other sign. -/
def neg (x : Binary64) : Binary64 := { x with negative := !x.negative }

/-- Equality of value: the two zeros are one value, and any other value has one form. -/
def same (x y : Binary64) : Bool := x == y || (x.isZero && y.isZero)

/-- The quotient rounded to the nearest whole number, a half to the even neighbour. -/
def divNearest (num den : Nat) : Nat :=
  let q := num / den
  let r := num % den
  if 2 * r < den then q
  else if den < 2 * r then q + 1
  else if q % 2 = 0 then q else q + 1

/-- The quotient `num / den` over `2 ^ e`, rounded. -/
def scaleNearest (num den : Nat) (e : Int) : Nat :=
  if 0 ≤ e then divNearest num (den * Nat.pow 2 e.toNat)
  else divNearest (num * Nat.pow 2 (-e).toNat) den

/-- The exponent at which `num / den` fills 53 bits, and the least exponent where that is
larger. -/
def exponentFor (num den : Nat) : Int :=
  let l : Int := (num.log2 : Int) - den.log2
  let below :=
    if 0 ≤ l then num < den * Nat.pow 2 l.toNat else num * Nat.pow 2 (-l).toNat < den
  max leastExponent (if below then l - 53 else l - 52)

/-- The quotient of two natural numbers, the second positive, rounded once. -/
def ofRatio (negative : Bool) (num den : Nat) : Option Binary64 :=
  if num = 0 then some (zero negative)
  else
    let e := exponentFor num den
    let m := scaleNearest num den e
    let (m, e) := if m = Nat.pow 2 53 then (Nat.pow 2 52, e + 1) else (m, e)
    if greatestExponent < e then none else some ⟨negative, m, e⟩

/-- A natural number, rounded. -/
def ofNat (n : Nat) : Option Binary64 := ofRatio false n 1

/-- The magnitude as a quotient of two natural numbers. -/
def ratio (x : Binary64) : Nat × Nat :=
  if 0 ≤ x.exponent then (x.mantissa * Nat.pow 2 x.exponent.toNat, 1)
  else (x.mantissa, Nat.pow 2 (-x.exponent).toNat)

/-- The product, rounded once. -/
def mul (x y : Binary64) : Option Binary64 :=
  let (a, b) := x.ratio
  let (c, d) := y.ratio
  ofRatio (x.negative != y.negative) (a * c) (b * d)

/-- The quotient by a number other than zero, rounded once. -/
def div (x y : Binary64) : Option Binary64 :=
  let (a, b) := x.ratio
  let (c, d) := y.ratio
  ofRatio (x.negative != y.negative) (a * d) (b * c)

/-- Ten to the given power, rounded. -/
def powerOfTen (k : Nat) : Option Binary64 := ofNat (Nat.pow 10 k)

@[simp] theorem same_refl (x : Binary64) : x.same x = true := by simp [same]

theorem same_comm (x y : Binary64) : x.same y = y.same x := by
  simp only [same, Bool.and_comm x.isZero]
  congr 1
  exact Bool.eq_iff_iff.2 ⟨by simp +contextual, by simp +contextual⟩

/-- Equality of value is transitive: a chain through a zero stays among the zeros. -/
theorem same_trans {x y z : Binary64} (hxy : x.same y = true) (hyz : y.same z = true) :
    x.same z = true := by
  simp only [same, Bool.or_eq_true, Bool.and_eq_true, beq_iff_eq] at *
  rcases hxy with rfl | hxy
  · exact hyz
  · rcases hyz with rfl | hyz
    · exact .inr hxy
    · exact .inr ⟨hxy.1, hyz.2⟩

end Binary64

end SchemaCatalog
