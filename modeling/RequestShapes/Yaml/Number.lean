import RequestShapes.Number.Arithmetic
import RequestShapes.Number.FreeForm
import RequestShapes.Yaml.Token

/-!
# Numbers in a settings text

A plain word is a number if it is written as one: an integer in base two,
eight, ten, sixteen or sixty, a double in base ten or sixty and always with a
point. Underscores may part the digits and do not count. A text that is tagged
as a number may be written more freely.
-/

namespace RequestShapes.Yaml

open Text

/-- Whether a character is an ASCII digit or an underscore. -/
def isDigitOrGap (c : Char) : Bool :=
  c.isDigit || c = '_'

/-- The parts of a text between colons. -/
def colonParts : List Char → List (List Char)
  | [] => [[]]
  | ':' :: text => [] :: colonParts text
  | c :: text =>
      match colonParts text with
      | [] => [[c]]
      | part :: parts => (c :: part) :: parts

/-- Whether a part after a colon is a digit in base sixty. -/
def isSixtieth : List Char → Bool
  | [c] => c.isDigit
  | [c, d] => '0' ≤ c && c ≤ '5' && d.isDigit
  | _ => false

/-- Whether a text is written in base sixty: digits, and behind colons digits of
that base. -/
def isSixtieths (text : List Char) : Bool :=
  match colonParts text with
  | (c :: first) :: part :: parts =>
      c.isDigit && first.all isDigitOrGap && (part :: parts).all isSixtieth
  | _ => false

/-- Whether a word without its sign is written as an integer. -/
def isMagnitudeWord (text : List Char) : Bool :=
  match text with
  | [] => false
  | '0' :: 'b' :: digits => !digits.isEmpty && digits.all (· ∈ ['0', '1', '_'])
  | '0' :: 'x' :: digits =>
      !digits.isEmpty && digits.all fun c => (hexValue? c).isSome || c = '_'
  | '0' :: digits => digits.all fun c => '0' ≤ c && c ≤ '7' || c = '_'
  | c :: rest => c.isDigit && (rest.all isDigitOrGap || isSixtieths text)

/-- Whether a word is written as an integer. -/
def isIntegerWord (text : List Char) : Bool :=
  isMagnitudeWord (takeSign text).2

/-- Whether a text is the exponent of a word, which needs a sign, or empty. -/
def isExponentWord : List Char → Bool
  | [] => true
  | mark :: sign :: digits =>
      (mark = 'e' || mark = 'E') && (sign = '+' || sign = '-') && !digits.isEmpty &&
        digits.all Char.isDigit
  | _ => false

/-- Whether a text begins with a point, digits and perhaps an exponent. -/
def isFractionWord (text : List Char) : Bool :=
  text.head? = some '.' && isExponentWord ((text.drop 1).dropWhile isDigitOrGap)

/-- Whether a word is written as a double. Without a whole part it has no sign,
and in base sixty it has no exponent. -/
def isDoubleWord (text : List Char) : Bool :=
  let magnitude := (takeSign text).2
  let hasSign := magnitude.length < text.length
  match magnitude with
  | '.' :: rest =>
      rest ∈ ["inf".toList, "Inf".toList, "INF".toList] ||
        !hasSign && (rest ∈ ["nan".toList, "NaN".toList, "NAN".toList] ||
          rest.head?.any Char.isDigit && isFractionWord magnitude)
  | c :: _ =>
      c.isDigit && isFractionWord (magnitude.dropWhile isDigitOrGap) ||
        isSixtieths (magnitude.takeWhile (· ≠ '.')) &&
          ((magnitude.dropWhile (· ≠ '.')).head? = some '.' &&
            (magnitude.dropWhile (· ≠ '.')).tail.all isDigitOrGap)
  | [] => false

/-- A number, which must be written as one. -/
def orOutOfRange {α : Type} : Option α → Except Fault α
  | some a => .ok a
  | none => .error .outOfRange

/-- The integer of a text without its sign. A zero in front asks for base eight
unless a mark follows it, and a colon for base sixty. -/
def magnitudeOfText (text : List Char) : Except Fault Int :=
  match text with
  | [] => .error .noDigits
  | ['0'] => .ok 0
  | '0' :: 'b' :: digits => orOutOfRange (integerInBase? 2 digits)
  | '0' :: 'x' :: digits => orOutOfRange (integerInBase? 16 digits)
  | '0' :: _ => orOutOfRange (integerInBase? 8 text)
  | _ => do
      let parts ← orOutOfRange ((colonParts text).mapM (integerInBase? 10))
      .ok (parts.foldl (fun value part => 60 * value + part) 0)

/-- The integer of a text that is meant as one. -/
def integerOfText (text : List Char) : Except Fault Int :=
  let digits := text.filter (· ≠ '_')
  if digits.isEmpty then .error .noDigits
  else
    let (negative, magnitude) := takeSign digits
    (magnitudeOfText magnitude).map fun value => if negative then -value else value

/-- The sum of doubles in base sixty, the last one first. Their weights must be
finite doubles. -/
def sumOfSixtieths (sum : Binary64) (weight : Nat) : List Binary64 → Except Fault Binary64
  | [] => .ok sum
  | part :: parts =>
      let factor := Binary64.ofNat weight
      if factor.isInfinite then .error .tooLarge
      else sumOfSixtieths (sum.add (part.mul factor)) (60 * weight) parts

/-- The double of a text without its sign, in lower case. -/
def unsignedDoubleOfText (text : List Char) : Except Fault Binary64 :=
  if text = ".inf".toList then .ok (.infinity false)
  else if text = ".nan".toList then .ok .nan
  else if ':' ∈ text then do
    let parts ← orOutOfRange ((colonParts text).mapM doubleInFreeForm?)
    sumOfSixtieths (.ofMagnitude false 0) 1 parts.reverse
  else orOutOfRange (doubleInFreeForm? text)

/-- The double of a text that is meant as one. -/
def doubleOfText (text : List Char) : Except Fault Binary64 :=
  let digits := text.filter (· ≠ '_')
  if digits.isEmpty then .error .noDigits
  else
    let (negative, magnitude) := takeSign (digits.map Char.toLower)
    (unsignedDoubleOfText magnitude).map fun value =>
      if negative && !value.isNaN then value.negate else value

end RequestShapes.Yaml
