import RequestShapes.Text.CodeUnit
import RequestShapes.Yaml.Token

/-!
# Quoted text

Between single quotes only a doubled quote is special; between double quotes a
backslash escapes. A line end within quotes is folded into a space together
with the spaces around it, further line ends are kept, and a line that opens or
closes a document may not occur. The text is collected as code points, so that
two escapes may name the halves of one character.
-/

namespace RequestShapes.Yaml

open Text

/-- The character named by a single letter after a backslash. -/
def namedEscapes : List (Char × Char) :=
  [('0', '\x00'), ('a', '\x07'), ('b', '\x08'), ('t', '\t'), ('\t', '\t'), ('n', '\n'),
   ('v', '\x0b'), ('f', '\x0c'), ('r', '\r'), ('e', '\x1b'), (' ', ' '), ('"', '"'),
   ('\\', '\\'), ('/', '/'), ('N', '\u0085'), ('_', '\u00a0'), ('L', '\u2028'),
   ('P', '\u2029')]

/-- How many hexadecimal digits follow a letter after a backslash. -/
def escapeWidths : List (Char × Nat) :=
  [('x', 2), ('u', 4), ('U', 8)]

/-- A code point that an escape names. -/
def checkedCode (code : Nat) : Except Fault Nat :=
  if code < 0x110000 then .ok code
  else .error (if code < 0x80000000 then .outOfRange else .tooLarge)

/-- The code point that is escaped after a backslash that ends no line. -/
def readEscape : List Char → Except Fault (Nat × List Char)
  | [] => .error .malformed
  | c :: text =>
      match namedEscapes.lookup c, escapeWidths.lookup c with
      | some named, _ => .ok (named.toNat, text)
      | none, some width => do
          let (code, rest) ← orMalformed (readHex 0 width text)
          .ok (← checkedCode code, rest)
      | none, none => .error .malformed

/-- The line ends after a folded one, with the spaces between them left out. -/
def quotedBreaks (lineStart : Bool) : List Char → Except Fault (List Char × List Char)
  | [] => .ok ([], [])
  | c :: text =>
      if lineStart && atSeparator (c :: text) then .error .malformed
      else if isSpaceOrTab c then quotedBreaks false text
      else if isBreak c then do
        let (breaks, rest) ← quotedBreaks true text
        .ok (breakOf c :: breaks, rest)
      else .ok ([], c :: text)

/-- What a gap within quotes stands for: its spaces, or a folded line end. -/
def quotedGap (text : List Char) : Except Fault (List Char × List Char) :=
  match text.dropWhile isSpaceOrTab with
  | [] => .error .malformed
  | c :: next =>
      if isBreak c then do
        let (breaks, rest) ← quotedBreaks true next
        let folded :=
          if breakOf c ≠ '\n' then [breakOf c] else if breaks.isEmpty then [' '] else []
        .ok (folded ++ breaks, rest)
      else .ok (text.takeWhile isSpaceOrTab, c :: next)

/-- The code points after an opening quote, up to the closing one. Fuel counts
characters. -/
def quotedFrom (quote : Char) : Nat → List Char → Except Fault (List Nat × List Char)
  | 0, _ | _, [] => .error .malformed
  | fuel + 1, c :: text => do
      if c = quote then
        if quote = '\'' ∧ text.head? = some '\'' then
          let (more, rest) ← quotedFrom quote fuel (text.drop 1)
          .ok (quote.toNat :: more, rest)
        else .ok ([], text)
      else
        let (part, rest) ←
          if c = '\\' ∧ quote = '"' then
            if !text.isEmpty && atLineEnd text then
              (quotedBreaks true (text.drop 1)).map fun (breaks, rest) =>
                (breaks.map Char.toNat, rest)
            else (readEscape text).map fun (code, rest) => ([code], rest)
          else if isSpaceOrTab c || isBreak c then
            (quotedGap (c :: text)).map fun (gap, rest) => (gap.map Char.toNat, rest)
          else .ok ([c.toNat], text)
        let (more, rest) ← quotedFrom quote fuel rest
        .ok (part ++ more, rest)

/-- The text between quotes, after the opening one. -/
def quotedText (quote : Char) (text : List Char) : Except Fault (List Char × List Char) :=
  (quotedFrom quote (text.length + 1) text).map fun (codes, rest) => (charsOfCodes codes, rest)

end RequestShapes.Yaml
