import RequestShapes.Json.Number
import RequestShapes.Text.Blank
import RequestShapes.Text.CodeUnit
import RequestShapes.Text.Letter
import RequestShapes.Text.Mark
import RequestShapes.Text.Search

/-!
# Reading relaxed JSON

The JSON5 grammar: comments, unquoted names, single quotes, a comma after the
last element, hexadecimal integers, signs, and points without digits on one
side. Every text that does not fit yields nothing. Texts and names are collected
as code points, so that two escapes may name the halves of one character.
-/

namespace RequestShapes.Json.Relaxed

open Text

/-- How deeply a document may nest. -/
def depthLimit : Nat := 100

/-- Whether a character ends a line. -/
def isBreak (c : Char) : Bool :=
  c = '\n' || c = '\r' || c = '\u2028' || c = '\u2029'

/-- Whether a character is white space of the grammar. -/
def isSpace (c : Char) : Bool :=
  isBreak c || c = ' ' || c = '\t' || c = '\x0b' || c = '\x0c' || c = '\u00a0' ||
    c = '\ufeff' || c = '\u1680' || ('\u2000' ≤ c && c ≤ '\u200a') || c = '\u202f' ||
    c = '\u205f' || c = '\u3000'

/-- What follows the end of a comment of several lines. -/
def afterComment? : List Char → Option (List Char)
  | [] => none
  | '*' :: '/' :: rest => some rest
  | _ :: rest => afterComment? rest

theorem length_afterComment {text rest : List Char} (h : afterComment? text = some rest) :
    rest.length < text.length := by
  fun_induction afterComment? text with
  | case1 => simp at h
  | case2 rest' =>
      simp only [Option.some.injEq] at h
      subst h
      simp only [List.length_cons]
      omega
  | case3 c text _ ih =>
      have := ih h
      simp only [List.length_cons]
      omega

/-- The text without leading white space and comments. A comment that does not
end is no comment. -/
def skip (text : List Char) : List Char :=
  match text with
  | [] => []
  | c :: rest =>
      if isSpace c then skip rest
      else if c = '/' then
        match rest with
        | '/' :: line => skip (line.dropWhile fun c => !isBreak c)
        | '*' :: comment =>
            match _h : afterComment? comment with
            | some later => skip later
            | none => text
        | _ => text
      else text
termination_by text.length
decreasing_by
  · exact Nat.lt_succ_self rest.length
  · have := (List.dropWhile_sublist (fun c => !isBreak c) (l := line)).length_le
    simp only [List.length_cons]
    omega
  · have := length_afterComment _h
    simp only [List.length_cons]
    omega

/-- The code point that a backslash puts into a text, and the rest after it.
Nothing inside means that the backslash and what it escapes vanish. -/
def escape? : List Char → Option (Option Nat × List Char)
  | '\r' :: '\n' :: rest => some (none, rest)
  | 'x' :: rest => (readHex 0 2 rest).map fun (code, rest) => (some code, rest)
  | 'u' :: rest => (readHex 0 4 rest).map fun (code, rest) => (some code, rest)
  | '0' :: rest =>
      if (rest.takeWhile Char.isDigit).isEmpty then some (some 0, rest) else none
  | 'b' :: rest => some (some 0x8, rest)
  | 'f' :: rest => some (some 0xc, rest)
  | 'n' :: rest => some (some 0xa, rest)
  | 'r' :: rest => some (some 0xd, rest)
  | 't' :: rest => some (some 0x9, rest)
  | 'v' :: rest => some (some 0xb, rest)
  | c :: rest =>
      if isBreak c then some (none, rest)
      else if c.isDigit then none
      else some (some c.toNat, rest)
  | [] => none

/-- The code points of a quoted text up to its closing quote. Fuel counts
characters. -/
def readQuoted (quote : Char) : Nat → List Char → Option (List Nat × List Char)
  | 0, _ => none
  | _ + 1, [] => none
  | fuel + 1, c :: rest =>
      if c = quote then some ([], rest)
      else if c = '\\' then do
        let (escaped, rest) ← escape? rest
        let (codes, rest) ← readQuoted quote fuel rest
        some (escaped.toList ++ codes, rest)
      else if c = '\n' ∨ c = '\r' then none
      else do
        let (codes, rest) ← readQuoted quote fuel rest
        some (c.toNat :: codes, rest)

/-- A quoted text after its opening quote. -/
def readString (quote : Char) (text : List Char) : Option (String × List Char) :=
  (readQuoted quote (text.length + 1) text).map fun (codes, rest) =>
    (String.ofList (charsOfCodes codes), rest)

/-- Whether a character may begin an unquoted name. -/
def beginsName (c : Char) : Bool :=
  isLetter c || isLetterNumber c || c = '$' || c = '_'

/-- Whether a character may continue an unquoted name. -/
def continuesName (c : Char) : Bool :=
  beginsName c || isMark c || isDigit c || isConnector c || c = '\u200c' || c = '\u200d'

/-- The code point of a name at the start of a text, given or escaped. -/
def nameCode? (allowed : Char → Bool) : List Char → Option (Nat × List Char)
  | '\\' :: 'u' :: rest => readHex 0 4 rest
  | c :: rest => if allowed c then some (c.toNat, rest) else none
  | [] => none

/-- The longest continuation of a name. Fuel counts characters. -/
def readNameRest : Nat → List Char → List Nat × List Char
  | 0, text => ([], text)
  | fuel + 1, text =>
      match nameCode? continuesName text with
      | none => ([], text)
      | some (code, rest) =>
          let (codes, rest) := readNameRest fuel rest
          (code :: codes, rest)

/-- The name of a member: quoted or not. -/
def readName (text : List Char) : Option (String × List Char) :=
  match text with
  | '"' :: rest => readString '"' rest
  | '\'' :: rest => readString '\'' rest
  | text => do
      let (first, rest) ← nameCode? beginsName text
      let (codes, rest) := readNameRest rest.length rest
      some (String.ofList (charsOfCodes (first :: codes)), rest)

/-- The digits of a hexadecimal integer after its mark. -/
def readHexInteger (text : List Char) : Option (Nat × List Char) :=
  let isHex := fun c => (hexValue? c).isSome
  match text.takeWhile isHex with
  | [] => none
  | digits =>
      some (digits.foldl (fun n c => 16 * n + (hexValue? c).getD 0) 0, text.dropWhile isHex)

/-- The whole part of a decimal, which may be missing: a zero that no digit
follows, or digits that begin with none. -/
def takeWhole? (text : List Char) : Option (List Char × List Char) :=
  let digits := text.takeWhile Char.isDigit
  if digits.head? = some '0' ∧ digits.length > 1 then none
  else some (digits, text.dropWhile Char.isDigit)

/-- A decimal after its sign. One of whole part and fraction must have digits,
and an exponent must have some. -/
def readDecimal (negative : Bool) (text : List Char) : Option (Json × List Char) := do
  let (whole, rest) ← takeWhole? text
  let (fraction, rest) := match rest with
    | '.' :: rest => (some (rest.takeWhile Char.isDigit), rest.dropWhile Char.isDigit)
    | rest => (none, rest)
  if whole.isEmpty ∧ (fraction.getD []).isEmpty then none
  let (exponent, rest) ← match rest with
    | 'e' :: _ | 'E' :: _ =>
        (takeExponent? Char.isDigit rest).map fun (exponent, rest) => (some exponent, rest)
    | rest => some (none, rest)
  match (Numeral.mk negative whole fraction exponent).value with
  | .ok value => some (value, rest)
  | .error _ => none

/-- A number: one optional sign before an infinity, a value that is no number,
a hexadecimal integer or a decimal. -/
def readNumber (text : List Char) : Option (Json × List Char) :=
  let (negative, unsigned) := takeSign text
  match after? "Infinity".toList unsigned, after? "NaN".toList unsigned with
  | some rest, _ => some (.float (.infinity negative), rest)
  | none, some rest => some (.float .nan, rest)
  | none, none =>
      match ((after? ['0', 'x'] unsigned).or (after? ['0', 'X'] unsigned)).bind
          readHexInteger with
      | some (n, rest) => some (.int (if negative then -(n : Int) else n), rest)
      | none => readDecimal negative unsigned

/-- One of the three words of the grammar. What follows it must fit by itself.
-/
def readWord (text : List Char) : Option (Json × List Char) :=
  ((after? "null".toList text).map fun rest => (.null, rest)).or
    (((after? "true".toList text).map fun rest => (.bool true, rest)).or
      ((after? "false".toList text).map fun rest => (.bool false, rest)))

mutual

/-- A value, which begins right here. Fuel counts nested readings; `depth` is
how many containers may still open. -/
def readValue : Nat → Nat → List Char → Option (Json × List Char)
  | 0, _, _ => none
  | fuel + 1, depth, text =>
      match text with
      | '"' :: rest => (readString '"' rest).map fun (value, rest) => (.str value, rest)
      | '\'' :: rest => (readString '\'' rest).map fun (value, rest) => (.str value, rest)
      | '[' :: rest =>
          match depth, skip rest with
          | 0, _ => none
          | _ + 1, ']' :: rest => some (.arr [], rest)
          | depth + 1, rest =>
              (readItems fuel depth rest).map fun (items, rest) => (.arr items, rest)
      | '{' :: rest =>
          match depth, skip rest with
          | 0, _ => none
          | _ + 1, '}' :: rest => some (.obj [], rest)
          | depth + 1, rest =>
              (readMembers fuel depth rest).map fun (members, rest) =>
                (.obj (Table.ofEntries members), rest)
      | text => (readWord text).or (readNumber text)

/-- The items of an array up to its closing bracket. -/
def readItems : Nat → Nat → List Char → Option (List Json × List Char)
  | 0, _, _ => none
  | fuel + 1, depth, text => do
      let (item, rest) ← readValue fuel depth text
      match skip rest with
      | ']' :: rest => some ([item], rest)
      | ',' :: rest =>
          match skip rest with
          | ']' :: rest => some ([item], rest)
          | rest =>
              (readItems fuel depth rest).map fun (items, rest) => (item :: items, rest)
      | _ => none

/-- The members of an object up to its closing brace. -/
def readMembers : Nat → Nat → List Char → Option (List (String × Json) × List Char)
  | 0, _, _ => none
  | fuel + 1, depth, text => do
      let (name, rest) ← readName text
      match skip rest with
      | ':' :: rest => do
          let (value, rest) ← readValue fuel depth (skip rest)
          match skip rest with
          | '}' :: rest => some ([(name, value)], rest)
          | ',' :: rest =>
              match skip rest with
              | '}' :: rest => some ([(name, value)], rest)
              | rest =>
                  (readMembers fuel depth rest).map fun (members, rest) =>
                    ((name, value) :: members, rest)
          | _ => none
      | _ => none

end

/-- The value of a whole document, blanks around it left aside. Every nested
reading but the first consumes a character within two steps, so twice the
length is fuel enough. -/
def parse? (document : List Char) : Option Json := do
  let text := trim document
  let (value, rest) ← readValue (2 * text.length + 2) depthLimit (skip text)
  if (skip rest).isEmpty then some value else none

end RequestShapes.Json.Relaxed
