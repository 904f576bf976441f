import RequestShapes.Text.Blank
import RequestShapes.Text.Numeral
import RequestShapes.Text.CodeUnit
import RequestShapes.Text.Search

/-!
# Text formats

A text that is written like a date, an address or an identifier is given that
format. Each format says what is left of a text after the longest beginning in
that format; a text has the format if nothing is left but one line feed.
-/

namespace RequestShapes

/-- The formats of a text. -/
inductive Format where
  | dateTime
  | date
  | email
  | uuid
  | uri
deriving DecidableEq, Repr

namespace Format

open Text

/-- The name under which a schema mentions a format. -/
def name : Format → String
  | dateTime => "date-time"
  | date => "date"
  | email => "email"
  | uuid => "uuid"
  | uri => "uri"

/-- The formats in the order in which they are tried. -/
def all : List Format := [dateTime, date, email, uuid, uri]

/-- The format of a name. -/
def ofName? (text : String) : Option Format :=
  all.find? fun format => format.name = text

/-- What follows exactly so many characters of a class. -/
def exactly? (count : Nat) (holds : Char → Bool) (text : List Char) : Option (List Char) :=
  match count, text with
  | 0, text => some text
  | _ + 1, [] => none
  | count + 1, c :: rest => if holds c then exactly? count holds rest else none

/-- What follows the longest run of a class, which must not be empty. -/
def run? (holds : Char → Bool) (text : List Char) : Option (List Char) :=
  if (text.takeWhile holds).isEmpty then none else some (text.dropWhile holds)

/-- What follows a year, a month and a day. -/
def afterDate? (text : List Char) : Option (List Char) := do
  let rest ← exactly? 4 isDigit text
  let rest ← after? ['-'] rest
  let rest ← exactly? 2 isDigit rest
  let rest ← after? ['-'] rest
  exactly? 2 isDigit rest

/-- What follows hours and minutes. -/
def afterClock? (text : List Char) : Option (List Char) := do
  let rest ← exactly? 2 isDigit text
  let rest ← after? [':'] rest
  exactly? 2 isDigit rest

/-- What follows a fraction of a second, if there is one. -/
def afterFraction (text : List Char) : List Char :=
  ((after? ['.'] text).bind (run? isDigit)).getD text

/-- What follows a time zone, if there is one. -/
def afterZone (text : List Char) : List Char :=
  ((after? ['Z'] text).or
    (((after? ['+'] text).or (after? ['-'] text)).bind afterClock?)).getD text

/-- What follows a date and a time. -/
def afterDateTime? (text : List Char) : Option (List Char) := do
  let rest ← afterDate? text
  let rest ← after? ['T'] rest
  let rest ← afterClock? rest
  let rest ← after? [':'] rest
  let rest ← exactly? 2 isDigit rest
  some (afterZone (afterFraction rest))

/-- Whether a character may stand before the at sign. -/
def isMailboxChar (c : Char) : Bool :=
  c.isAlphanum || c = '.' || c = '_' || c = '%' || c = '+' || c = '-'

/-- Whether a character may stand in a host name. -/
def isHostChar (c : Char) : Bool :=
  c.isAlphanum || c = '.' || c = '-'

/-- Whether a host name closes with a point and at least two letters, with
something before the point. It is given last character first. -/
def closesWithLabel (reversed : List Char) : Bool :=
  2 ≤ (reversed.takeWhile Char.isAlpha).length &&
    match reversed.dropWhile Char.isAlpha with
    | '.' :: _ :: _ => true
    | _ => false

/-- What follows a mail address. -/
def afterEmail? (text : List Char) : Option (List Char) := do
  let rest ← run? isMailboxChar text
  let rest ← after? ['@'] rest
  if closesWithLabel (rest.takeWhile isHostChar).reverse then
    some (rest.dropWhile isHostChar)
  else none

/-- Whether a character is a hexadecimal digit. -/
def isHexDigit (c : Char) : Bool :=
  (hexValue? c).isSome

/-- What follows a universally unique identifier in its hyphenated form. -/
def afterUuid? (text : List Char) : Option (List Char) := do
  let rest ← exactly? 8 isHexDigit text
  let rest ← after? ['-'] rest
  let rest ← exactly? 4 isHexDigit rest
  let rest ← after? ['-'] rest
  let rest ← exactly? 4 isHexDigit rest
  let rest ← after? ['-'] rest
  let rest ← exactly? 4 isHexDigit rest
  let rest ← after? ['-'] rest
  exactly? 12 isHexDigit rest

/-- What follows a URI of one of three schemes, which runs to the next blank. -/
def afterUri? (text : List Char) : Option (List Char) := do
  let rest ← ((after? "https://".toList text).or (after? "http://".toList text)).or
    (after? "ftp://".toList text)
  run? (fun c => !isBlank c) rest

/-- What follows the longest beginning of a text in a format. -/
def rest? : Format → List Char → Option (List Char)
  | dateTime => afterDateTime?
  | date => afterDate?
  | email => afterEmail?
  | uuid => afterUuid?
  | uri => afterUri?

/-- Whether a text is written in a format, with at most a line feed after it. -/
def fits (format : Format) (text : String) : Bool :=
  match format.rest? text.toList with
  | some [] => true
  | some ['\n'] => true
  | _ => false

/-- The format of a text, if it has one. -/
def detect? (text : String) : Option Format :=
  all.find? fun format => format.fits text

end Format

end RequestShapes
