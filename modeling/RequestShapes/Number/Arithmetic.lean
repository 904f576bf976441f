import RequestShapes.Number.Binary64

/-!
# Sums and products of doubles

Every finite double is a multiple of the least positive one. Sums and products
are exact integers in that unit and its square, and are rounded once.
-/

namespace RequestShapes.Binary64

/-- The least positive double is two to this power, downwards. -/
def unitExponent : Nat := 1074

/-- A finite double as a multiple of the least positive one. -/
def units (x : Binary64) : Int :=
  let (significand, exponent) := decode x.magnitude
  let count : Nat := significand * Nat.pow 2 (exponent + unitExponent).toNat
  if x.isNegative then -count else count

/-- The double nearest to a count of units, each so many powers of two below
one. A zero has the given sign. -/
def ofUnits (negativeZero : Bool) (count : Int) (exponent : Nat) : Binary64 :=
  if count = 0 then ofMagnitude negativeZero 0
  else ofMagnitude (count < 0) (magnitudeOfRatio count.natAbs (Nat.pow 2 exponent))

/-- The sum of two doubles. Opposite infinities have none. -/
def add (x y : Binary64) : Binary64 :=
  if x.isNaN || y.isNaN then nan
  else if x.isInfinite then if y.isInfinite && x ≠ y then nan else x
  else if y.isInfinite then y
  else ofUnits (x.isNegative && y.isNegative) (x.units + y.units) unitExponent

/-- The product of two doubles. A zero and an infinity have none. -/
def mul (x y : Binary64) : Binary64 :=
  let negative := x.isNegative ≠ y.isNegative
  if x.isNaN || y.isNaN then nan
  else if x.isInfinite || y.isInfinite then
    if x.isZero || y.isZero then nan else infinity negative
  else ofUnits negative (x.units * y.units) (2 * unitExponent)

/-- The double nearest to a natural number. -/
def ofNat (n : Nat) : Binary64 :=
  ofDecimal false n 0

example : add (ofDecimal false 1 (-1)) (ofDecimal false 2 (-1)) = ⟨0x3fd3333333333334⟩ := by
  decide +kernel
example : mul (ofDecimal false 1 (-2)) (ofNat 60) = ofDecimal false 6 (-1) := by decide +kernel
example : add (ofDecimal false 1 0) (ofDecimal true 1 0) = ofDecimal false 0 0 := by
  decide +kernel

end RequestShapes.Binary64
