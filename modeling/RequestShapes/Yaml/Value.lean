import RequestShapes.Text.Base64
import RequestShapes.Yaml.Meaning

/-!
# Values of a settings text

A text stands for nothing, a truth value, a number, bytes, a date or itself. A
collection is told by its kind alone: whoever needs its members looks them up
in the text.
-/

namespace RequestShapes.Yaml

/-- A value. -/
inductive Value where
  | null
  | bool (value : Bool)
  | int (value : Int)
  | float (value : Binary64)
  | str (value : String)
  | bytes (value : List UInt8)
  | date (value : Date)
  | list
  | table
  | set
deriving DecidableEq, Inhabited

namespace Value

/-- The word for the kind of a value. -/
def kind : Value → String
  | null => "NoneType"
  | bool _ => "bool"
  | int _ => "int"
  | float _ => "float"
  | str _ => "str"
  | bytes _ => "bytes"
  | date ⟨_, _, _, none⟩ => "date"
  | date ⟨_, _, _, some _⟩ => "datetime"
  | list => "list"
  | table => "dict"
  | set => "set"

/-- Whether a value may be a key. Collections may not. -/
def isKey : Value → Bool
  | list | table | set => false
  | _ => true

/-- The truth value of a text that is meant as one. -/
def ofTruthText (text : List Char) : Except Fault Value :=
  match Meaning.truth? text with
  | some value => .ok (.bool value)
  | none => .error .noTruth

/-- The bytes of a text that is meant as such, which must be ASCII. -/
def ofBinaryText (text : List Char) : Except Fault Value :=
  if text.all (·.toNat < 128) then (orMalformed (Text.decodeBase64? text)).map .bytes
  else .error .malformed

/-- The value of a text with a meaning. -/
def ofText (text : List Char) : Meaning → Except Fault Value
  | .null => .ok .null
  | .bool => ofTruthText text
  | .int => (integerOfText text).map .int
  | .float => (doubleOfText text).map .float
  | .binary => ofBinaryText text
  | .timestamp => (dateOfText text).map .date
  | .str => .ok (.str (String.ofList text))
  | _ => .error .malformed

end Value

end RequestShapes.Yaml
