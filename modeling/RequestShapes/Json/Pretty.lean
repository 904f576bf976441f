import RequestShapes.Json.Basic
import RequestShapes.Number.Integer
import RequestShapes.Number.Shortest
import RequestShapes.Text.CodeUnit

/-!
# JSON text for reading

Every item and every member stands on a line of its own, two spaces deeper than
its bracket; empty brackets stay closed. Characters beyond ASCII stand for
themselves, and doubles that are not finite are written as null.
-/

namespace RequestShapes.Json.Pretty

open Text

/-- A character of a quoted text. Only quotes, backslashes and the controls of
ASCII are escaped. -/
def quotedChar (c : Char) : List Char :=
  match c with
  | '"' => ['\\', '"']
  | '\\' => ['\\', '\\']
  | '\n' => ['\\', 'n']
  | '\r' => ['\\', 'r']
  | '\t' => ['\\', 't']
  | '\x08' => ['\\', 'b']
  | '\x0c' => ['\\', 'f']
  | c => if c < ' ' then '\\' :: 'u' :: hexText 4 c.toNat else [c]

/-- A text between double quotes. -/
def quotedText (text : String) : List Char :=
  '"' :: (text.toList.flatMap quotedChar ++ ['"'])

/-- Decimals are positional from the fifth place after the point to the
sixteenth before it; an exponent has a sign only below zero. -/
def style : Binary64.DecimalStyle :=
  ⟨-4, 16, integerText⟩

/-- A double. -/
def floatText (x : Binary64) : List Char :=
  if x.isNaN || x.isInfinite then "null".toList else x.finiteText style

/-- The start of a line of some depth. -/
def newLine (depth : Nat) : List Char :=
  '\n' :: List.replicate (2 * depth) ' '

/-- Texts on lines of their own between brackets that stand at some depth. -/
def bracketed (opening closing : Char) (depth : Nat) (texts : List (List Char)) : List Char :=
  if texts.isEmpty then [opening, closing]
  else
    opening :: ([','].intercalate (texts.map fun text => newLine (depth + 1) ++ text) ++
      newLine depth ++ [closing])

mutual

/-- The text of a value whose brackets stand at some depth. -/
def textAt (depth : Nat) : Json → List Char
  | .null => "null".toList
  | .bool value => (if value then "true" else "false").toList
  | .int value => integerText value
  | .float value => floatText value
  | .str value => quotedText value
  | .arr items => bracketed '[' ']' depth (itemTexts (depth + 1) items)
  | .obj members => bracketed '\x7b' '\x7d' depth (memberTexts (depth + 1) members)

/-- The texts of items. -/
def itemTexts (depth : Nat) : List Json → List (List Char)
  | [] => []
  | item :: items => textAt depth item :: itemTexts depth items

/-- The texts of members: name, colon, blank, value. -/
def memberTexts (depth : Nat) : List (String × Json) → List (List Char)
  | [] => []
  | (name, value) :: members =>
      (quotedText name ++ ':' :: ' ' :: textAt depth value) :: memberTexts depth members

end

/-- The text of a value. -/
def text (value : Json) : List Char :=
  textAt 0 value

end RequestShapes.Json.Pretty
