import RequestShapes.Yaml.Character

/-!
# Tokens of a settings text

Tokens stand for the marks of the text and for the brackets that its layout
implies: where a block of deeper indentation begins and where it ends.
-/

namespace RequestShapes.Yaml

/-- Why a text has no value. -/
inductive Fault where
  /-- The text breaks the rules of the notation or uses an unknown tag. -/
  | malformed
  /-- A number is misspelt, or a number, a date or an escaped character lies
  beyond its range. -/
  | outOfRange
  /-- A number has too many digits in base sixty, or the code of an escaped
  character takes more than 31 bits. -/
  | tooLarge
  /-- A text that is tagged as a truth value names none. -/
  | noTruth
  /-- A text that is tagged as a number has no digits. -/
  | noDigits
  /-- A text that is tagged as a date is none. -/
  | noDate
  /-- A mapping is tagged as a date. -/
  | mappedDate
  /-- The text of a mapping leads back to the mapping. -/
  | endless
  /-- Collections are nested too deep. -/
  | tooDeep
deriving DecidableEq, Repr

/-- The wording of a fault. -/
def Fault.message : Fault → String
  | malformed => "The text is malformed"
  | outOfRange => "A number or a date is misspelt or out of range"
  | tooLarge => "A number is too large"
  | noTruth => "A truth value is unknown"
  | noDigits => "A number has no digits"
  | noDate => "A date is misspelt"
  | mappedDate => "A mapping is no date"
  | endless => "A mapping is its own text"
  | tooDeep => "Collections are nested too deep"

/-- A line with a percent sign in front. -/
inductive Directive where
  /-- The major version of the notation. -/
  | version (major : Nat)
  /-- What a tag handle stands for. -/
  | handle (name replacement : String)
  | other
deriving DecidableEq, Repr

/-- A tag as it is written: in full, or a handle and the rest. -/
structure Tag where
  handle : Option String
  suffix : String
deriving DecidableEq, Repr

/-- A token. -/
inductive Token where
  | directive (directive : Directive)
  | documentStart
  | documentEnd
  /-- An indented sequence begins. -/
  | sequenceStart
  /-- An indented mapping begins. -/
  | mappingStart
  /-- The innermost indented block ends. -/
  | blockEnd
  /-- An item of a sequence follows. -/
  | item
  /-- A key follows. -/
  | key
  /-- The value of the key follows. -/
  | value
  | listOpen
  | listClose
  | tableOpen
  | tableClose
  | comma
  | alias (name : String)
  | anchor (name : String)
  | tag (tag : Tag)
  /-- A text; a plain one has no quotes and no block mark. -/
  | scalar (plain : Bool) (text : List Char)
  /-- The text cannot be read any further. -/
  | broken (fault : Fault)
deriving DecidableEq, Repr

/-- A result that is malformed where an optional one is absent. -/
def orMalformed {α : Type} : Option α → Except Fault α
  | some a => .ok a
  | none => .error .malformed

end RequestShapes.Yaml
