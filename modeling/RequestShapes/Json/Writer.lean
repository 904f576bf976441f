import RequestShapes.Json.Basic
import RequestShapes.Number.Integer
import RequestShapes.Number.Shortest
import RequestShapes.Text.CodeUnit

/-!
# JSON text in ASCII

The compact text of a JSON value: one line, a blank after every comma and
colon, and every character outside the visible ASCII ones escaped.
-/

namespace RequestShapes.Json

open Text

/-- A unit written as an escape of four hexadecimal digits. -/
def unitEscape (unit : Nat) : List Char :=
  '\\' :: 'u' :: hexText 4 unit

/-- A character of a quoted text. -/
def quotedChar (c : Char) : List Char :=
  if c = '"' then ['\\', '"']
  else if c = '\\' then ['\\', '\\']
  else if c = '\n' then ['\\', 'n']
  else if c = '\r' then ['\\', 'r']
  else if c = '\t' then ['\\', 't']
  else if c = '\x08' then ['\\', 'b']
  else if c = '\x0c' then ['\\', 'f']
  else if ' ' ≤ c ∧ c ≤ '~' then [c]
  else (unitsOfChar c).flatMap unitEscape

/-- A text between double quotes. -/
def quotedText (text : String) : List Char :=
  '"' :: (text.toList.flatMap quotedChar ++ ['"'])

/-- A double, with the names of the values that are not finite. -/
def floatText (x : Binary64) : List Char :=
  if x.isNaN then "NaN".toList
  else if x.isInfinite then (if x.isNegative then "-Infinity" else "Infinity").toList
  else x.finiteText .signed

/-- Texts put one after the other with a comma and a blank between them. -/
def commaSeparated (texts : List (List Char)) : List Char :=
  [',', ' '].intercalate texts

mutual

/-- The text of a value. -/
def text : Json → List Char
  | .null => "null".toList
  | .bool value => (if value then "true" else "false").toList
  | .int value => integerText value
  | .float value => floatText value
  | .str value => quotedText value
  | .arr items => '[' :: (commaSeparated (itemTexts items) ++ [']'])
  | .obj members => '{' :: (commaSeparated (memberTexts members) ++ ['}'])

/-- The texts of items. -/
def itemTexts : List Json → List (List Char)
  | [] => []
  | item :: items => text item :: itemTexts items

/-- The texts of members: name, colon, blank, value. -/
def memberTexts : List (String × Json) → List (List Char)
  | [] => []
  | (name, value) :: members =>
      (quotedText name ++ ':' :: ' ' :: text value) :: memberTexts members

end

mutual

/-- Whether every integer of a value is within the limit of decimal text. -/
def writable : Json → Bool
  | .int value => integerFits value
  | .arr items => itemsWritable items
  | .obj members => membersWritable members
  | _ => true

/-- Whether every integer of the items is within the limit. -/
def itemsWritable : List Json → Bool
  | [] => true
  | item :: items => writable item && itemsWritable items

/-- Whether every integer of the members is within the limit. -/
def membersWritable : List (String × Json) → Bool
  | [] => true
  | (_, value) :: members => writable value && membersWritable members

end

end RequestShapes.Json
