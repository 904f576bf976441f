import RequestShapes.Json.Number
import RequestShapes.Text.Blank
import RequestShapes.Text.CodeUnit

/-!
# Numbers in free form

A number may stand between blanks, with a sign in front and with digits of any
script. An integer may be written in another base and then begin with the mark
of its base. A double may also be one of the words for infinities and for what
is not a number.
-/

namespace RequestShapes

open Text

/-- Whether a character may stand around a number. The separators of ASCII may
not. -/
def isNumberMargin (c : Char) : Bool :=
  isBlank c && !('\x1c' ≤ c && c ≤ '\x1f')

/-- A text without what may stand around a number. -/
def trimNumber (text : List Char) : List Char :=
  ((text.dropWhile isNumberMargin).reverse.dropWhile isNumberMargin).reverse

/-- The letter that marks a base after a zero. -/
def baseMark? : Nat → Option Char
  | 2 => some 'b'
  | 8 => some 'o'
  | 16 => some 'x'
  | _ => none

/-- The digits of an integer after the mark of its base, if it has one. -/
def afterBaseMark (base : Nat) : List Char → List Char
  | '0' :: c :: digits =>
      if baseMark? base = some c.toLower then digits else '0' :: c :: digits
  | digits => digits

/-- The value of a digit in a base. -/
def digitInBase? (base : Nat) (c : Char) : Option Nat :=
  (if isDigit c then some (digitValue c) else hexValue? c).filter (· < base)

/-- The integer that a text is written as in a base. In base ten it may not
have too many digits. -/
def integerInBase? (base : Nat) (text : List Char) : Option Int :=
  let (negative, rest) := takeSign (trimNumber text)
  match (afterBaseMark base rest).mapM (digitInBase? base) with
  | none | some [] => none
  | some digits =>
      if base = 10 ∧ digits.length > digitLimit then none
      else
        let value : Nat := digits.foldl (fun value digit => base * value + digit) 0
        some (if negative then -value else value)

/-- The exponent of a double up to the end of a text. -/
def exponentToEnd? (text : List Char) : Option (Option Int) :=
  if text.isEmpty then some none
  else
    match takeExponent? isDigit text with
    | some (exponent, []) => some (some exponent)
    | _ => none

/-- The digits of a double without its sign: whole part and fraction, one of
which must not be empty, and perhaps an exponent. -/
def unsignedDecimal? (negative : Bool) (text : List Char) : Option Numeral := do
  let whole := text.takeWhile isDigit
  let (fraction, rest) :=
    match text.dropWhile isDigit with
    | '.' :: places => (some (places.takeWhile isDigit), places.dropWhile isDigit)
    | rest => (none, rest)
  let exponent ← exponentToEnd? rest
  if whole.isEmpty && (fraction.getD []).isEmpty then none
  else some ⟨negative, whole, fraction, exponent⟩

/-- The double that a text is written as. -/
def doubleInFreeForm? (text : List Char) : Option Binary64 :=
  let (negative, rest) := takeSign (trimNumber text)
  let word := String.ofList (rest.map Char.toLower)
  if word = "inf" ∨ word = "infinity" then some (.infinity negative)
  else if word = "nan" then some .nan
  else (unsignedDecimal? negative rest).map Numeral.float

example : integerInBase? 16 " -0X1f ".toList = some (-31) := by decide +kernel
example : integerInBase? 8 "08".toList = none := by decide +kernel
example : doubleInFreeForm? "10e-1".toList = some (.ofDecimal false 1 0) := by decide +kernel

end RequestShapes
