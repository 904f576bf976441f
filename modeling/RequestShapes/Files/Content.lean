import RequestShapes.Text.Utf8

/-!
# Texts in files

A file holds its text in UTF-8. In reading, the line ends of other systems are
turned into line feeds; a byte order mark stays.
-/

namespace RequestShapes.Files

open Text

/-- A text whose lines all end with a line feed. -/
def unifyLineEnds : List Char → List Char
  | [] => []
  | '\r' :: '\n' :: text => '\n' :: unifyLineEnds text
  | c :: text => (if c = '\r' then '\n' else c) :: unifyLineEnds text

/-- The text that a file holds. -/
def textOfBytes (bytes : ByteArray) : Except Utf8Fault (List Char) :=
  (decodeUtf8 bytes.toList).map unifyLineEnds

end RequestShapes.Files
