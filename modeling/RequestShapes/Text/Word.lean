import RequestShapes.Text.Letter
import RequestShapes.Text.Numeral
import RequestShapes.Text.Symbol
import RequestShapes.Text.Mark

/-!
# Word characters and visible characters

Two classes put together from the general ones: the characters a word is made
of, and the characters that may stand for themselves in a message.
-/

namespace RequestShapes.Text

/-- Whether a character belongs to a word: a letter, a number or the
underscore. Combining marks do not. -/
def isWord (c : Char) : Bool :=
  isLetter c || isNumeral c || c = '_'

/-- Whether a character leaves a visible trace or is the plain space. -/
def isVisible (c : Char) : Bool :=
  c = ' ' || isLetter c || isNumeral c || isMark c || isSymbol c

end RequestShapes.Text
