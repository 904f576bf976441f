import RequestShapes.Json.Basic
import RequestShapes.Number.Integer

/-!
# Decimal numbers

A number is written with a sign, whole digits, and perhaps a fraction and an
exponent. It is an integer if it has neither of the two and a double otherwise.
-/

namespace RequestShapes

open Text

/-- The parts of a written number. -/
structure Numeral where
  negative : Bool
  whole : List Char
  /-- The digits after the point, which may be none. -/
  fraction : Option (List Char)
  exponent : Option Int

/-- The double that is nearest to a written number. -/
def Numeral.float (numeral : Numeral) : Binary64 :=
  let places := numeral.fraction.getD []
  .ofDecimal numeral.negative (digitsValue (numeral.whole ++ places))
    (numeral.exponent.getD 0 - places.length)

/-- The value of a written number. -/
def Numeral.value (numeral : Numeral) : Except TooManyDigits Json :=
  if numeral.fraction.isNone && numeral.exponent.isNone then
    (readInteger numeral.negative numeral.whole).map .int
  else .ok (.float numeral.float)

/-- Take a sign off a text. -/
def takeSign : List Char → Bool × List Char
  | '-' :: rest => (true, rest)
  | '+' :: rest => (false, rest)
  | text => (false, text)

/-- The exponent at the start of a text: a mark, an optional sign, digits. -/
def takeExponent? (isDigit : Char → Bool) : List Char → Option (Int × List Char)
  | [] => none
  | mark :: text =>
      let (negative, digits) := takeSign text
      if (mark = 'e' ∨ mark = 'E') ∧ !(digits.takeWhile isDigit).isEmpty then
        let value : Int := digitsValue (digits.takeWhile isDigit)
        some (if negative then -value else value, digits.dropWhile isDigit)
      else none

end RequestShapes
