import RequestShapes.Number.Binary64

/-!
# Shortest decimal text

A finite double is written with the fewest digits that read back as the same
double and, among those, the digits nearest to its value. Numbers whose first
digit stands near the point are written positionally and keep a digit on both
sides of it, all others with an exponent; a style says what is near and how the
exponent is written.
-/

namespace RequestShapes

/-- A decimal `0.d₁d₂… * 10 ^ point`, given by its digits and its point. -/
structure Decimal where
  digits : List Char
  point : Int
deriving DecidableEq, Inhabited

namespace Decimal

/-- The decimal `significand * 10 ^ exponent`, without closing zeros. -/
def ofScaled (significand : Nat) (exponent : Int) : Decimal :=
  let digits := Nat.toDigits 10 significand
  ⟨(digits.reverse.dropWhile (· = '0')).reverse, digits.length + exponent⟩

end Decimal

namespace Binary64

/-- Compare `a / b` with `10 ^ exponent`: whether the power is at most the
ratio. -/
def tenPowerLe (exponent : Int) (a b : Nat) : Bool :=
  if exponent < 0 then b ≤ a * Nat.pow 10 exponent.natAbs else b * Nat.pow 10 exponent.natAbs ≤ a

/-- The exponent of the first decimal digit of a positive ratio, found from a
binary estimate that is too small by at most two. -/
def leadingExponent (a b : Nat) : Int :=
  let estimate : Int := (((a.log2 : Int) - b.log2 - 1) * 30103).fdiv 100000
  if tenPowerLe (estimate + 2) a b then estimate + 2
  else if tenPowerLe (estimate + 1) a b then estimate + 1
  else estimate

/-- A positive value on a binary grid together with the interval of reals that
round to it, all over one denominator. The ends belong to it exactly when the
significand is even. -/
structure Interval where
  low : Nat
  value : Nat
  high : Nat
  denominator : Nat
  closed : Bool

/-- The rounding interval of a positive finite magnitude. Its lower half is
narrower where the exponent changes. -/
def interval (magnitude : Nat) : Interval :=
  let (significand, exponent) := decode magnitude
  let gap := if magnitude % Nat.pow 2 52 = 0 ∧ magnitude > Nat.pow 2 52 then 1 else 2
  let (scale, denominator) := shiftRatio 1 1 (2 - exponent)
  ⟨(4 * significand - gap) * scale, 4 * significand * scale, (4 * significand + 2) * scale,
    denominator, significand % 2 = 0⟩

/-- Whether the ratio `a / b` rounds to the value of an interval. -/
def Interval.holds (range : Interval) (a b : Nat) : Bool :=
  let value := a * range.denominator
  let low := range.low * b
  let high := range.high * b
  if range.closed then low ≤ value && value ≤ high else low < value && value < high

/-- The decimal with the given number of digits that rounds to the value of an
interval and is nearest to it, if there is one. Only the two neighbours of the
value on that decimal grid can be. -/
def Interval.decimal? (range : Interval) (leading : Int) (count : Nat) : Option Decimal :=
  let exponent := leading - count + 1
  let up := if exponent < 0 then Nat.pow 10 exponent.natAbs else 1
  let down := if exponent < 0 then 1 else Nat.pow 10 exponent.natAbs
  let below := range.value * up / (range.denominator * down)
  let above := below + 1
  let gapBelow := range.value * up - below * down * range.denominator
  let gapAbove := above * down * range.denominator - range.value * up
  match range.holds (below * down) up, range.holds (above * down) up with
  | true, true =>
      some (Decimal.ofScaled
        (if gapBelow < gapAbove ∨ gapBelow = gapAbove ∧ below % 2 = 0 then below else above)
        exponent)
  | true, false => some (Decimal.ofScaled below exponent)
  | false, true => some (Decimal.ofScaled above exponent)
  | false, false => none

/-- The decimal of the fewest digits that reads back as a positive finite
magnitude. Seventeen digits always do. -/
def shortestDecimal (magnitude : Nat) : Decimal :=
  let range := interval magnitude
  let leading := leadingExponent range.value range.denominator
  ((List.range 17).findSome? fun n => range.decimal? leading (n + 1)).getD ⟨['0'], 1⟩

/-- How decimals are written. -/
structure DecimalStyle where
  /-- The least point of a decimal that is written positionally. -/
  least : Int
  /-- The greatest point of a decimal that is written positionally. -/
  greatest : Int
  /-- The text of an exponent. -/
  exponentText : Int → List Char

/-- An exponent with its sign and at least two digits. -/
def signedExponent (exponent : Int) : List Char :=
  let digits := Nat.toDigits 10 exponent.natAbs
  (if exponent < 0 then '-' else '+') :: (if digits.length < 2 then '0' :: digits else digits)

/-- Decimals are positional from the fourth place after the point to the
sixteenth before it; an exponent has a sign and two digits. -/
def DecimalStyle.signed : DecimalStyle :=
  ⟨-3, 16, signedExponent⟩

/-- The text of a decimal. -/
def DecimalStyle.text (style : DecimalStyle) (d : Decimal) : List Char :=
  let count := d.digits.length
  if style.least ≤ d.point ∧ d.point ≤ style.greatest then
    if d.point ≤ 0 then '0' :: '.' :: (List.replicate d.point.natAbs '0' ++ d.digits)
    else if count ≤ d.point.natAbs then
      d.digits ++ List.replicate (d.point.natAbs - count) '0' ++ ['.', '0']
    else d.digits.take d.point.natAbs ++ '.' :: d.digits.drop d.point.natAbs
  else
    let fraction := d.digits.drop 1
    d.digits.take 1 ++ (if fraction.isEmpty then [] else '.' :: fraction) ++
      'e' :: style.exponentText (d.point - 1)

/-- The shortest text of a finite double. -/
def finiteText (style : DecimalStyle) (x : Binary64) : List Char :=
  let digits := if x.isZero then ['0', '.', '0'] else style.text (shortestDecimal x.magnitude)
  if x.isNegative then '-' :: digits else digits

end Binary64

end RequestShapes
