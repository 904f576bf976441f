import RequestShapes.Text.Numeral

/-!
# Integers in decimal

Integers have no bound of their own, but their decimal text may have at most
`digitLimit` digits, leading zeros counted and the sign not. Longer text is
refused both in reading and in writing.
-/

namespace RequestShapes

open Text

/-- How many decimal digits the text of an integer may have. -/
def digitLimit : Nat := 4300

/-- An integer text of too many digits. The count is known when the text was
read, not when it was to be written. -/
structure TooManyDigits where
  count : Option Nat
deriving DecidableEq, Repr

/-- The wording of the refusal. -/
def TooManyDigits.message (refusal : TooManyDigits) : String :=
  let limit := s!"Exceeds the limit ({digitLimit} digits) for integer string conversion"
  let advice := "; use sys.set_int_max_str_digits() to increase the limit"
  match refusal.count with
  | some count => s!"{limit}: value has {count} digits{advice}"
  | none => limit ++ advice

/-- The integer written by decimal digits of any script, with its sign. -/
def readInteger (negative : Bool) (digits : List Char) : Except TooManyDigits Int :=
  if digits.length > digitLimit then .error ⟨some digits.length⟩
  else .ok (if negative then -(digitsValue digits : Int) else digitsValue digits)

/-- The decimal text of an integer. -/
def integerText (n : Int) : List Char :=
  let digits := Nat.toDigits 10 n.natAbs
  if n < 0 then '-' :: digits else digits

/-- Whether the text of an integer stays within the limit. -/
def integerFits (n : Int) : Bool :=
  n.natAbs < Nat.pow 10 digitLimit

end RequestShapes
