import RequestShapes.Json.Number
import RequestShapes.Text.CodeUnit
import RequestShapes.Text.Search

/-!
# Reading JSON text

The strict grammar with three additions: the names of the doubles that are not
finite, integers of any size up to the digit limit, and a repeated member name,
which keeps its first position and takes its last value. Reading goes from left
to right and stops at the first fault.
-/

namespace RequestShapes.Json

open Text

/-- Why a text is no JSON value. -/
inductive ReadFault where
  | malformed
  | tooManyDigits (refusal : TooManyDigits)
deriving DecidableEq, Repr

/-- The four blanks that JSON allows between its tokens. -/
def isSpace (c : Char) : Bool :=
  c = ' ' || c = '\t' || c = '\n' || c = '\r'

/-- The text without leading blanks. -/
def skipSpace (text : List Char) : List Char :=
  text.dropWhile isSpace

/-- The character named by a single letter after a backslash. -/
def namedEscape? : Char → Option Char
  | '"' => some '"'
  | '\\' => some '\\'
  | '/' => some '/'
  | 'b' => some '\x08'
  | 'f' => some '\x0c'
  | 'n' => some '\n'
  | 'r' => some '\r'
  | 't' => some '\t'
  | _ => none

/-- The low surrogate that an escape right here names, with the rest after it. -/
def lowSurrogate? (text : List Char) : Option (Nat × List Char) := do
  let digits ← after? ['\\', 'u'] text
  let (unit, rest) ← readHex 0 4 digits
  if isLowSurrogate unit then some (unit, rest) else none

/-- The characters of a quoted text after its opening quote. Raw control
characters are refused. Fuel counts characters. -/
def readQuoted : Nat → List Char → Option (List Char × List Char)
  | 0, _ => none
  | _ + 1, [] => none
  | _ + 1, '"' :: rest => some ([], rest)
  | fuel + 1, '\\' :: 'u' :: rest => do
      let (unit, rest) ← readHex 0 4 rest
      match (if isHighSurrogate unit then lowSurrogate? rest else none) with
      | some (low, rest) =>
          let (characters, rest) ← readQuoted fuel rest
          some (joinSurrogates unit low :: characters, rest)
      | none =>
          let (characters, rest) ← readQuoted fuel rest
          some (charOfUnit unit :: characters, rest)
  | fuel + 1, '\\' :: c :: rest => do
      let named ← namedEscape? c
      let (characters, rest) ← readQuoted fuel rest
      some (named :: characters, rest)
  | fuel + 1, c :: rest =>
      if c < ' ' then none
      else do
        let (characters, rest) ← readQuoted fuel rest
        some (c :: characters, rest)

/-- A quoted text after its opening quote. -/
def readString (text : List Char) : Except ReadFault (String × List Char) :=
  match readQuoted (text.length + 1) text with
  | some (characters, rest) => .ok (String.ofList characters, rest)
  | none => .error .malformed

/-- A nonempty run of ASCII digits and what follows it. -/
def digits? (text : List Char) : Option (List Char × List Char) :=
  match text.takeWhile Char.isDigit with
  | [] => none
  | digits => some (digits, text.dropWhile Char.isDigit)

/-- The digits after a point. -/
def fraction? : List Char → Option (List Char × List Char)
  | '.' :: rest => digits? rest
  | _ => none

/-- The whole part of a number: a zero, or digits that begin with none. -/
def whole? : List Char → Option (List Char × List Char)
  | '0' :: rest => some (['0'], rest)
  | text => digits? text

/-- A number after its sign. -/
def readNumber (negative : Bool) (text : List Char) : Except ReadFault (Json × List Char) :=
  match whole? text with
  | none => .error .malformed
  | some (whole, rest) =>
      let fraction := fraction? rest
      let rest := (fraction.map (·.2)).getD rest
      let exponent := takeExponent? Char.isDigit rest
      let rest := (exponent.map (·.2)).getD rest
      match (Numeral.mk negative whole (fraction.map (·.1)) (exponent.map (·.1))).value with
      | .ok value => .ok (value, rest)
      | .error refusal => .error (.tooManyDigits refusal)

/-- A word of the grammar with its value. -/
def wordValues : List (List Char × Json) :=
  [("null".toList, .null), ("true".toList, .bool true), ("false".toList, .bool false),
   ("NaN".toList, .float .nan), ("Infinity".toList, .float (.infinity false)),
   ("-Infinity".toList, .float (.infinity true))]

/-- A word at the start of a text. -/
def word? (text : List Char) : Option (Json × List Char) :=
  wordValues.findSome? fun (word, value) => (after? word text).map fun rest => (value, rest)

mutual

/-- A value, which begins right here. Fuel counts nested readings. -/
def readValue : Nat → List Char → Except ReadFault (Json × List Char)
  | 0, _ => .error .malformed
  | fuel + 1, text =>
      match text with
      | '"' :: rest => do
          let (value, rest) ← readString rest
          .ok (.str value, rest)
      | '[' :: rest =>
          match skipSpace rest with
          | ']' :: rest => .ok (.arr [], rest)
          | rest => do
              let (items, rest) ← readItems fuel rest
              .ok (.arr items, rest)
      | '{' :: rest =>
          match skipSpace rest with
          | '}' :: rest => .ok (.obj [], rest)
          | rest => do
              let (members, rest) ← readMembers fuel rest
              .ok (.obj (Table.ofEntries members), rest)
      | text =>
          match word? text with
          | some (value, rest) => .ok (value, rest)
          | none =>
              match text with
              | '-' :: rest => readNumber true rest
              | text => readNumber false text

/-- The items of an array up to its closing bracket. -/
def readItems : Nat → List Char → Except ReadFault (List Json × List Char)
  | 0, _ => .error .malformed
  | fuel + 1, text => do
      let (item, rest) ← readValue fuel text
      match skipSpace rest with
      | ']' :: rest => .ok ([item], rest)
      | ',' :: rest => do
          let (items, rest) ← readItems fuel (skipSpace rest)
          .ok (item :: items, rest)
      | _ => .error .malformed

/-- The members of an object up to its closing brace. -/
def readMembers : Nat → List Char → Except ReadFault (List (String × Json) × List Char)
  | 0, _ => .error .malformed
  | fuel + 1, text =>
      match text with
      | '"' :: rest => do
          let (name, rest) ← readString rest
          match skipSpace rest with
          | ':' :: rest => do
              let (value, rest) ← readValue fuel (skipSpace rest)
              match skipSpace rest with
              | '}' :: rest => .ok ([(name, value)], rest)
              | ',' :: rest => do
                  let (members, rest) ← readMembers fuel (skipSpace rest)
                  .ok ((name, value) :: members, rest)
              | _ => .error .malformed
          | _ => .error .malformed
      | _ => .error .malformed

end

/-- The value of a whole text. Every nested reading but the first consumes a
character within two steps, so twice the length is fuel enough. -/
def ofText (text : List Char) : Except ReadFault Json := do
  let (value, rest) ← readValue (2 * text.length + 2) (skipSpace text)
  if (skipSpace rest).isEmpty then .ok value else .error .malformed

/-- The value of a JSON document. -/
def parse (document : String) : Except ReadFault Json :=
  ofText document.toList

end RequestShapes.Json
