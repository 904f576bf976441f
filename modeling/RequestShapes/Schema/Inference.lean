import RequestShapes.Schema.Format
import RequestShapes.Schema.Merge

/-!
# Inferring a schema from samples

Every JSON value has a schema that describes it alone, with nested values
inline. The schema of several samples is the merged one.
-/

namespace RequestShapes.Schema

/-- The name of the type of a value. -/
def typeName : Json → String
  | .null => "null"
  | .bool _ => "boolean"
  | .int _ => "integer"
  | .float _ => "number"
  | .str _ => "string"
  | .arr _ => "array"
  | .obj _ => "object"

/-- The schema of a text, which mentions its format. -/
def ofString (text : String) : Json :=
  match Format.detect? text with
  | some format => .obj [("type", .str "string"), ("format", .str format.name)]
  | none => ofType (.str "string")

mutual

/-- The schema of a single value. -/
def infer : Json → Except Fault Json
  | .obj members => do
      .ok (ofObject (← inferMembers members) (Table.names members))
  | .arr [] => .ok (ofArray .empty)
  | .arr items => do .ok (ofArray (← merge (← inferItems items)))
  | .str text => .ok (ofString text)
  | scalar => .ok (ofType (.str (typeName scalar)))

/-- The schemas of several values. -/
def inferItems : List Json → Except Fault (List Json)
  | [] => .ok []
  | item :: items => do
      let schema ← infer item
      .ok (schema :: (← inferItems items))

/-- The schemas of the values of members. -/
def inferMembers : List (String × Json) → Except Fault (List (String × Json))
  | [] => .ok []
  | (name, value) :: members => do
      let schema ← infer value
      .ok ((name, schema) :: (← inferMembers members))

end

/-- The schema that describes all samples. -/
def ofSamples (samples : List Json) : Except Fault Json := do
  merge (← inferItems samples)

end RequestShapes.Schema
