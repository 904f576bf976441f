/-!
# Blank characters, trimming and lines

A blank is any white space of Unicode, the four separators of ASCII and the
next-line character included; zero-width characters are not blank. A text
falls into lines at every line end of Unicode, a carriage return and its line
feed counting as one.
-/

namespace RequestShapes.Text

/-- Whether a character is white space. -/
def isBlank (c : Char) : Bool :=
  c = ' ' || ('\t' ≤ c && c ≤ '\r') || ('\x1c' ≤ c && c ≤ '\x1f') || c = '\u0085' ||
    c = '\u00a0' || c = '\u1680' || ('\u2000' ≤ c && c ≤ '\u200a') || c = '\u2028' ||
    c = '\u2029' || c = '\u202f' || c = '\u205f' || c = '\u3000'

/-- The text without its leading blanks. -/
def dropBlank (text : List Char) : List Char :=
  text.dropWhile isBlank

/-- The text without its leading and closing blanks. -/
def trim (text : List Char) : List Char :=
  (dropBlank (dropBlank text).reverse).reverse

/-- Whether a character ends a line. -/
def isLineEnd (c : Char) : Bool :=
  ('\n' ≤ c && c ≤ '\r') || ('\x1c' ≤ c && c ≤ '\x1e') || c = '\u0085' || c = '\u2028' ||
    c = '\u2029'

/-- The lines of a text that continues a line whose characters so far are given
last one first. What follows the last line end is a line only if it is not
empty. -/
def linesFrom (line : List Char) : List Char → List (List Char)
  | [] => if line.isEmpty then [] else [line.reverse]
  | '\r' :: '\n' :: rest => line.reverse :: linesFrom [] rest
  | c :: rest =>
      if isLineEnd c then line.reverse :: linesFrom [] rest else linesFrom (c :: line) rest

/-- The lines of a text, without their ends. -/
def lines (text : List Char) : List (List Char) :=
  linesFrom [] text

end RequestShapes.Text
