import RequestShapes.Text.Numeral
import RequestShapes.Text.Search
import RequestShapes.Yaml.Token

/-!
# Dates in a settings text

A date is a year, a month and a day; a moment adds a time and perhaps a zone.
-/

namespace RequestShapes.Yaml

open Text

/-- A time of the day and the distance of its zone in minutes. -/
structure Clock where
  hour : Nat
  minute : Nat
  second : Nat
  zone : Nat
deriving DecidableEq, Repr

/-- A day, with a time if it is a moment. -/
structure Date where
  year : Nat
  month : Nat
  day : Nat
  clock : Option Clock
deriving DecidableEq, Repr

/-- Whether a year has a leap day. -/
def isLeapYear (year : Nat) : Bool :=
  year % 4 = 0 && (year % 100 ≠ 0 || year % 400 = 0)

/-- How many days a month has. -/
def daysOfMonth (year month : Nat) : Nat :=
  if month = 2 then if isLeapYear year then 29 else 28
  else if month ∈ [4, 6, 9, 11] then 30
  else 31

/-- Whether a time exists. Its zone is less than a day away. -/
def Clock.isValid (clock : Clock) : Bool :=
  clock.hour < 24 && clock.minute < 60 && clock.second < 60 && clock.zone < 24 * 60

/-- Whether a date exists. -/
def Date.isValid (date : Date) : Bool :=
  1 ≤ date.year && 1 ≤ date.month && date.month ≤ 12 && 1 ≤ date.day &&
    date.day ≤ daysOfMonth date.year date.month && date.clock.all Clock.isValid

/-- The number of so many ASCII digits at the start of a text, and the rest. It
takes as many as there are. -/
def digitsUpTo? (least most : Nat) (text : List Char) : Option (Nat × List Char) :=
  let digits := (text.takeWhile Char.isDigit).take most
  if digits.length < least then none else some (digitsValue digits, text.drop digits.length)

/-- The minutes of a time zone: none for a text that ends, and for a `Z`. -/
def zone? (text : List Char) : Option Nat :=
  match text, text.dropWhile fun c => c = ' ' || c = '\t' with
  | [], _ => some 0
  | _, ['Z'] => some 0
  | _, c :: rest =>
      if c = '+' ∨ c = '-' then do
        let (hours, rest) ← digitsUpTo? 1 2 rest
        match rest with
        | [] => some (60 * hours)
        | ':' :: rest =>
            match ← digitsUpTo? 2 2 rest with
            | (minutes, []) => some (60 * hours + minutes)
            | _ => none
        | _ => none
      else none
  | _, [] => none

/-- What follows a fraction of a second, if there is one. -/
def afterFraction : List Char → List Char
  | '.' :: text => text.dropWhile Char.isDigit
  | text => text

/-- The time of a moment. -/
def clock? (text : List Char) : Option Clock := do
  let (hour, rest) ← digitsUpTo? 1 2 text
  let (minute, rest) ← digitsUpTo? 2 2 (← after? [':'] rest)
  let (second, rest) ← digitsUpTo? 2 2 (← after? [':'] rest)
  some ⟨hour, minute, second, ← zone? (afterFraction rest)⟩

/-- What stands between a day and a time: a letter, or blanks. -/
def afterDay? : List Char → Option (List Char)
  | [] => none
  | c :: text =>
      if c = 'T' ∨ c = 't' then some text
      else if c = ' ' ∨ c = '\t' then some (text.dropWhile fun c => c = ' ' || c = '\t')
      else none

/-- A text without a line feed at its end. -/
def withoutLastBreak (text : List Char) : List Char :=
  if text.getLast? = some '\n' then text.dropLast else text

/-- The date that a text is written as, whether it exists or not. A line feed
may follow it. -/
def date? (text : List Char) : Option Date := do
  let (year, rest) ← digitsUpTo? 4 4 (withoutLastBreak text)
  let (month, rest) ← digitsUpTo? 1 2 (← after? ['-'] rest)
  let (day, rest) ← digitsUpTo? 1 2 (← after? ['-'] rest)
  if rest.isEmpty then some ⟨year, month, day, none⟩
  else some ⟨year, month, day, some (← clock? (← afterDay? rest))⟩

/-- Whether a word is written as a date. Only with a time, month and day may
have one digit. -/
def isDateWord (text : List Char) : Bool :=
  (date? text).any fun date => date.clock.isSome || text.length = 10

/-- The date of a text that is meant as one. It must exist. -/
def dateOfText (text : List Char) : Except Fault Date :=
  match date? text with
  | none => .error .noDate
  | some date => if date.isValid then .ok date else .error .outOfRange

end RequestShapes.Yaml
