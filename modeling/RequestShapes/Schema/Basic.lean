import RequestShapes.Json.Basic

/-!
# Schemas

A schema is a JSON value, as a rule an object whose members say what it
accepts. These are the shapes that inference builds, and what can be wrong with
a schema that comes from elsewhere.
-/

namespace RequestShapes.Schema

/-- Why a value cannot be used as a schema. -/
inductive Fault where
  /-- A member that every schema of its type has is missing. -/
  | missing (name : String)
  /-- No object stands where a schema or its properties are expected. -/
  | noObject
  /-- A member holds a value of a kind that it cannot hold. -/
  | misfit
  /-- References go round without end. -/
  | endless
deriving DecidableEq, Repr

/-- The wording of a fault. -/
def Fault.message : Fault → String
  | missing name => "A schema lacks the member " ++ name
  | noObject => "A schema or its properties are no object"
  | misfit => "A schema member has the wrong kind"
  | endless => "References go round without end"

/-- The schema of a type alone. -/
def ofType (type : Json) : Json := .obj [("type", type)]

/-- The schema that accepts null alone. -/
def nullType : Json := ofType (.str "null")

/-- The schema of several alternatives. -/
def anyOf (alternatives : List Json) : Json := .obj [("anyOf", .arr alternatives)]

/-- The schema of an object. -/
def ofObject (properties : List (String × Json)) (required : List String) : Json :=
  .obj [("type", .str "object"), ("properties", .obj properties),
    ("required", .arr (required.map Json.str))]

/-- The schema of an array. -/
def ofArray (items : Json) : Json :=
  .obj [("type", .str "array"), ("items", items)]

end RequestShapes.Schema
