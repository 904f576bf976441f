import RequestShapes.Json.Number
import RequestShapes.Text.Blank
import RequestShapes.Text.Search

/-!
# Entries of a block

A block of entries has one `key: value` to a line. Blank lines, comment lines
and lines without a colon say nothing. A value is a boolean or a number if it
is written like one, and a text otherwise.
-/

namespace RequestShapes.Request

open Text

/-- The number that a whole text is written like. Digits of every script
count. -/
def numeral? (text : List Char) : Option Numeral :=
  let (negative, unsigned) := takeSign text
  let whole := unsigned.takeWhile isDigit
  let (fraction, rest) := match unsigned.dropWhile isDigit with
    | '.' :: rest => (some (rest.takeWhile isDigit), rest.dropWhile isDigit)
    | rest => (none, rest)
  if whole.isEmpty ∧ (fraction.getD []).isEmpty then none
  else match rest with
    | [] => some ⟨negative, whole, fraction, none⟩
    | rest => match takeExponent? isDigit rest with
      | some (exponent, []) => some ⟨negative, whole, fraction, some exponent⟩
      | _ => none

/-- The value of a text. -/
def valueOf (text : List Char) : Except TooManyDigits Json :=
  if text = "true".toList then .ok (.bool true)
  else if text = "false".toList then .ok (.bool false)
  else match numeral? text with
    | some numeral => numeral.value
    | none => .ok (.str (String.ofList text))

/-- Whether a trimmed line is a comment. -/
def isComment (line : List Char) : Bool :=
  (after? ['/', '/'] line).isSome || (after? ['#'] line).isSome

/-- The key and the value text of a line, if it has a colon and is no comment.
-/
def splitEntry? (line : List Char) : Option (List Char × List Char) :=
  let line := trim line
  if isComment line then none
  else (cut? [':'] line).map fun (key, value) => (trim key, trim value)

/-- The entries of lines, in order. -/
def entriesOf : List (List Char) → Except TooManyDigits (List (String × Json))
  | [] => .ok []
  | line :: lines =>
      match splitEntry? line with
      | none => entriesOf lines
      | some (key, text) => do
          let value ← valueOf text
          .ok ((String.ofList key, value) :: (← entriesOf lines))

/-- The table of a block; nothing if no line says anything. -/
def entries? (block : List Char) : Except TooManyDigits (Option (Table Json)) := do
  match Table.ofEntries (← entriesOf (lines block)) with
  | [] => .ok none
  | table => .ok (some table)

end RequestShapes.Request
