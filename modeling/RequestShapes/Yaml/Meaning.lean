import RequestShapes.Table
import RequestShapes.Yaml.Date
import RequestShapes.Yaml.Number

/-!
# Meanings of nodes

A tag says what a node is meant as. Without one, sequences and mappings are
meant as such, and a text as itself unless it is a plain word for something
else: for nothing, a truth value, a number or a date. Two words have a meaning
as keys: one merges another mapping, and one names the text of a mapping.
-/

namespace RequestShapes.Yaml

/-- What a node is meant as. -/
inductive Meaning where
  | null
  | bool
  | int
  | float
  | binary
  | timestamp
  | str
  | seq
  | map
  | set
  /-- A sequence of mappings with one entry each. -/
  | pairs
  /-- The key of what is merged into a mapping. -/
  | merge
  /-- The key of the text of a mapping. -/
  | value
  /-- Something that no value stands for. -/
  | unknown
deriving DecidableEq, Repr

namespace Meaning

/-- What the tags of the notation begin with. -/
def tagLead : String := "tag:yaml.org,2002:"

/-- The tags of the notation behind their common lead. -/
def tagWords : List (String × Meaning) :=
  [("null", null), ("bool", bool), ("int", int), ("float", float), ("binary", binary),
   ("timestamp", timestamp), ("str", str), ("seq", seq), ("map", map), ("set", set),
   ("omap", pairs), ("pairs", pairs), ("merge", merge), ("value", value)]

/-- The meaning of a tag in full. -/
def ofTag (tag : String) : Meaning :=
  match tagWords.find? fun (word, _) => tagLead ++ word = tag with
  | some (_, meaning) => meaning
  | none => unknown

/-- The words for true and false, in lower case. -/
def truthWords : List (String × Bool) :=
  [("yes", true), ("no", false), ("true", true), ("false", false), ("on", true), ("off", false)]

/-- The truth value of a word in any letter case. -/
def truth? (text : List Char) : Option Bool :=
  Table.get? truthWords (String.ofList (text.map Char.toLower))

/-- Whether a text is written in lower case, in upper case, or in lower case
with a capital in front. -/
def isCased (text : List Char) : Bool :=
  text.all Char.isLower || text.all Char.isUpper ||
    match text with
    | [] => true
    | c :: rest => c.isUpper && rest.all Char.isLower

/-- The words with a meaning of their own. Marks of the notation have none. -/
def fixedWords : List (String × Meaning) :=
  [("~", null), ("null", null), ("Null", null), ("NULL", null), ("<<", merge), ("=", value),
   ("!", unknown), ("&", unknown), ("*", unknown)]

/-- The meaning of a word that is not empty. -/
def ofBareWord (word : List Char) : Meaning :=
  match Table.get? fixedWords (String.ofList word) with
  | some meaning => meaning
  | none =>
      if (truth? word).isSome && isCased word then bool
      else if isDoubleWord word then float
      else if isIntegerWord word then int
      else if isDateWord word then timestamp
      else str

/-- The meaning of a word. An empty one means nothing, and a line feed may
follow any other. -/
def ofWord (text : List Char) : Meaning :=
  match text with
  | [] => null
  | ['\n'] => str
  | text => ofBareWord (withoutLastBreak text)

/-- The meaning of a text with a tag in full. A single exclamation mark makes a
word of any text. -/
def ofText (tag : Option String) (isPlain : Bool) (text : List Char) : Meaning :=
  match tag with
  | none => if isPlain then ofWord text else str
  | some tag => if tag = "!" then ofWord text else ofTag tag

/-- The meaning of a sequence or a mapping with a tag in full. -/
def ofCollection (untagged : Meaning) (tag : Option String) : Meaning :=
  match tag with
  | none => untagged
  | some tag => if tag = "!" then untagged else ofTag tag

end Meaning

end RequestShapes.Yaml
