/-!
# Double precision numbers

A double is kept as its 64 bits, so two doubles are equal exactly when no
answer can tell them apart, signed zeros included. Decimal text is read by
exact arithmetic: the nearest double wins, a tie goes to the even significand,
and what is too large becomes an infinity.
-/

namespace RequestShapes

/-- A double precision number, kept as its bits: sign, eleven exponent bits,
fifty-two fraction bits. -/
structure Binary64 where
  bits : UInt64
deriving DecidableEq, Inhabited

namespace Binary64

/-- The bits of positive infinity. -/
def infinityBits : Nat := 0x7ff0000000000000

/-- The value of the sign bit. -/
def signBit : Nat := 0x8000000000000000

/-- The one written form of a value that is not a number. -/
def nan : Binary64 := ⟨0x7ff8000000000000⟩

/-- A magnitude given by its bits, with a sign. -/
def ofMagnitude (negative : Bool) (bits : Nat) : Binary64 :=
  ⟨UInt64.ofNat (if negative then bits + signBit else bits)⟩

/-- An infinity of the given sign. -/
def infinity (negative : Bool) : Binary64 :=
  ofMagnitude negative infinityBits

/-- The bits without the sign. -/
def magnitude (x : Binary64) : Nat :=
  x.bits.toNat % signBit

/-- Whether the sign bit is set. -/
def isNegative (x : Binary64) : Bool :=
  x.bits.toNat ≥ signBit

/-- Whether the value is not a number. -/
def isNaN (x : Binary64) : Bool :=
  x.magnitude > infinityBits

/-- Whether the value is an infinity. -/
def isInfinite (x : Binary64) : Bool :=
  x.magnitude = infinityBits

/-- Whether the value is one of the two zeros. -/
def isZero (x : Binary64) : Bool :=
  x.magnitude = 0

/-- The number with the opposite sign. -/
def negate (x : Binary64) : Binary64 :=
  ofMagnitude (!x.isNegative) x.magnitude

/-- The significand and the binary exponent of a finite magnitude: the value
is `significand * 2 ^ exponent`. Numbers below the normal range share the
least exponent. -/
def decode (magnitude : Nat) : Nat × Int :=
  let exponent : Nat := magnitude / Nat.pow 2 52
  let fraction := magnitude % Nat.pow 2 52
  if exponent = 0 then (fraction, -1074) else (fraction + Nat.pow 2 52, (exponent : Int) - 1075)

/-- A quotient rounded to the nearest integer, a tie going to the even one. -/
def divNearestEven (numerator denominator : Nat) : Nat :=
  let quotient := numerator / denominator
  let doubled := 2 * (numerator % denominator)
  if doubled < denominator then quotient
  else if doubled = denominator then quotient + quotient % 2
  else quotient + 1

/-- The numerator and denominator after dividing a ratio by a power of two. -/
def shiftRatio (numerator denominator : Nat) (exponent : Int) : Nat × Nat :=
  if exponent < 0 then (numerator * Nat.pow 2 exponent.natAbs, denominator)
  else (numerator, denominator * Nat.pow 2 exponent.natAbs)

/-- The magnitude bits of the double nearest to a positive ratio. The exponent
is chosen so that the significand has fifty-three bits, or fewer at the least
exponent. Writing exponent and significand as one sum carries a significand
that rounds up to the next power of two into the exponent, and past the
largest exponent into infinity. -/
def magnitudeOfRatio (numerator denominator : Nat) : Nat :=
  let estimate : Int := (numerator.log2 : Int) - denominator.log2 - 53
  let (scaled, unit) := shiftRatio numerator denominator estimate
  let exact := if scaled ≥ unit * Nat.pow 2 53 then estimate + 1 else estimate
  let exponent := max exact (-1074)
  let (scaled, unit) := shiftRatio numerator denominator exponent
  min ((exponent + 1074).toNat * Nat.pow 2 52 + divNearestEven scaled unit) infinityBits

/-- How many decimal digits a natural number has; none for zero. -/
def decimalWidth (n : Nat) : Nat :=
  if n = 0 then 0 else (Nat.toDigits 10 n).length

/-- The double nearest to `significand * 10 ^ exponent`. Magnitudes beyond any
finite double, or below half of the least one, are settled by their width, so
no needless power of ten is computed. -/
def ofDecimal (negative : Bool) (significand : Nat) (exponent : Int) : Binary64 :=
  let top : Int := decimalWidth significand + exponent
  if significand = 0 then ofMagnitude negative 0
  else if top > 310 then infinity negative
  else if top < -330 then ofMagnitude negative 0
  else if exponent < 0 then
    ofMagnitude negative (magnitudeOfRatio significand (Nat.pow 10 exponent.natAbs))
  else ofMagnitude negative (magnitudeOfRatio (significand * Nat.pow 10 exponent.natAbs) 1)

example : ofDecimal false 1 0 = ⟨0x3ff0000000000000⟩ := by decide +kernel
example : ofDecimal true 0 5 = ⟨0x8000000000000000⟩ := by decide +kernel
example : ofDecimal false 1 (-1) = ⟨0x3fb999999999999a⟩ := by decide +kernel
example : ofDecimal false 5 (-324) = ⟨1⟩ := by decide +kernel
example : ofDecimal false 17976931348623159 292 = infinity false := by decide +kernel

end Binary64

end RequestShapes
