import RequestShapes.Json.Basic
import RequestShapes.Number.Integer
import RequestShapes.Number.Shortest
import RequestShapes.Text.CodeUnit
import RequestShapes.Text.Word

/-!
# Values in messages

The text by which a message shows a value. Texts stand in single quotes, or in
double quotes if they hold single ones and no double ones; visible characters
stand for themselves and all others are escaped.
-/

namespace RequestShapes.Json

open Text

/-- The quote around a text. -/
def quoteFor (text : List Char) : Char :=
  if text.contains '\'' && !text.contains '"' then '"' else '\''

/-- An escape by code point, as short as the code point allows. -/
def codeEscape (c : Char) : List Char :=
  if c.toNat < 0x100 then '\\' :: 'x' :: hexText 2 c.toNat
  else if c.toNat < 0x10000 then '\\' :: 'u' :: hexText 4 c.toNat
  else '\\' :: 'U' :: hexText 8 c.toNat

/-- A character of a quoted text in a message. -/
def shownChar (quote c : Char) : List Char :=
  if c = quote ∨ c = '\\' then ['\\', c]
  else if c = '\n' then ['\\', 'n']
  else if c = '\r' then ['\\', 'r']
  else if c = '\t' then ['\\', 't']
  else if isVisible c then [c]
  else codeEscape c

/-- A text in quotes. -/
def shownText (text : String) : List Char :=
  let quote := quoteFor text.toList
  quote :: (text.toList.flatMap (shownChar quote) ++ [quote])

/-- A double in a message. -/
def shownFloat (x : Binary64) : List Char :=
  if x.isNaN then "nan".toList
  else if x.isInfinite then (if x.isNegative then "-inf" else "inf").toList
  else x.finiteText .signed

mutual

/-- A value in a message. -/
def shown : Json → List Char
  | .null => "None".toList
  | .bool value => (if value then "True" else "False").toList
  | .int value => integerText value
  | .float value => shownFloat value
  | .str value => shownText value
  | .arr items => '[' :: ([',', ' '].intercalate (shownItems items) ++ [']'])
  | .obj members => '\x7b' :: ([',', ' '].intercalate (shownMembers members) ++ ['\x7d'])

/-- Items in a message. -/
def shownItems : List Json → List (List Char)
  | [] => []
  | item :: items => shown item :: shownItems items

/-- Members in a message. -/
def shownMembers : List (String × Json) → List (List Char)
  | [] => []
  | (name, value) :: members =>
      (shownText name ++ ':' :: ' ' :: shown value) :: shownMembers members

end

end RequestShapes.Json
