import RequestShapes.Text.Range

/-!
# Characters of a settings text

A settings text is written in YAML 1.1, its carriage returns already turned
into line feeds. Its lines end at a line feed, at the next-line character and
at the line and paragraph separators of Unicode. A space may indent, a tab may
not.
-/

namespace RequestShapes.Yaml

open Text

/-- The characters that a text may hold: the tab, the line ends, and everything
else that is no control character and no surrogate. -/
def allowedRanges : Ranges :=
  [(0x9, 0xa), (0xd, 0xd), (0x20, 0x7e), (0x85, 0x85), (0xa0, 0xd7ff), (0xe000, 0xfffd),
   (0x10000, 0x10ffff)]

/-- Whether a text may hold a character. -/
def isAllowed (c : Char) : Bool :=
  allowedRanges.holds c

/-- Whether a character ends a line. -/
def isBreak (c : Char) : Bool :=
  c = '\n' || c = '\u0085' || c = '\u2028' || c = '\u2029'

/-- What a line end stands for: the separators for themselves, the other two
for a line feed. -/
def breakOf (c : Char) : Char :=
  if c = '\u0085' then '\n' else c

/-- Whether a character is a space or a tab. -/
def isSpaceOrTab (c : Char) : Bool :=
  c = ' ' || c = '\t'

/-- Whether nothing is left of the line. -/
def atLineEnd : List Char → Bool
  | [] => true
  | c :: _ => isBreak c

/-- Whether a space follows, or nothing of the line is left. -/
def atSpace : List Char → Bool
  | ' ' :: _ => true
  | text => atLineEnd text

/-- Whether a space or a tab follows, or nothing of the line is left. -/
def atGap : List Char → Bool
  | '\t' :: _ => true
  | text => atSpace text

/-- Whether the line that begins here opens or closes a document: three hyphens
or three points and a gap. -/
def atSeparator : List Char → Bool
  | '-' :: '-' :: '-' :: rest => atGap rest
  | '.' :: '.' :: '.' :: rest => atGap rest
  | _ => false

/-- Whether a character may stand in the name of an anchor or a tag handle. -/
def isNameChar (c : Char) : Bool :=
  c.isAlphanum || c = '-' || c = '_'

/-- What is left of a text after its leading spaces. -/
def dropSpaces (text : List Char) : List Char :=
  text.dropWhile (· = ' ')

/-- The line ends after a space gap and perhaps a comment; nothing if something
else follows. The line end itself is left out. -/
def restOfLine? (text : List Char) : Option (List Char) :=
  match dropSpaces text with
  | [] => some []
  | '#' :: comment =>
      match comment.dropWhile fun c => !isBreak c with
      | [] => some []
      | _ :: next => some next
  | c :: next => if isBreak c then some next else none

end RequestShapes.Yaml
