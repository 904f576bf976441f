import RequestShapes.Identifier
import RequestShapes.Schema.FreshName
import RequestShapes.Schema.Inference
import RequestShapes.Schema.Reference

/-!
# Drafts with shared definitions

In a draft every object shape is a definition, named after the property under
which it was found, and stands elsewhere as a reference. Equal shapes share one
definition; different shapes that ask for one name are numbered. Shapes inside
of a shape get their definitions first, so a definition refers to earlier ones
only.
-/

namespace RequestShapes.Schema

mutual

/-- Whether two values are equal when the order of members does not count. -/
def alike : Json → Json → Bool
  | .arr as, .arr bs => alikeItems as bs
  | .obj as, .obj bs => as.length = bs.length && alikeMembers as bs
  | a, b => a = b

/-- Whether items are alike one by one. -/
def alikeItems : List Json → List Json → Bool
  | [], [] => true
  | a :: as, b :: bs => alike a b && alikeItems as bs
  | _, _ => false

/-- Whether every member has a partner of its name that is alike. -/
def alikeMembers : List (String × Json) → List (String × Json) → Bool
  | [], _ => true
  | (name, a) :: as, bs =>
      (match Table.get? bs name with
        | some b => alike a b
        | none => false) && alikeMembers as bs

end

/-- Whether two definitions describe one shape, whatever their titles. -/
def sameShape (a b : Json) : Bool :=
  alike (a.erase "title") (b.erase "title")

/-- Store a shape under the first attempt at a name that is free or holds the
same shape already. -/
def register (definitions : Table Json) (shape : Json) (name : String) :
    String × Table Json :=
  let accepts candidate :=
    match Table.get? definitions candidate with
    | none => true
    | some present => sameShape present shape
  let final := firstNumbered accepts name definitions.length 1
  if Table.has definitions final then (final, definitions)
  else (final, Table.set definitions final (shape.set "title" (.str final)))

/-- The shape of an object with its properties, closed to other names. -/
def closedObject (properties : List (String × Json)) (required : Json) (title : String) : Json :=
  .obj [("type", .str "object"), ("additionalProperties", .bool false),
    ("properties", .obj properties), ("required", required), ("title", .str title)]

/-- The name of the shape found under a property. -/
def propertyShapeName (property : String) : String :=
  let name := Identifier.pascalCase property
  if name.isEmpty then "Property" else name

mutual

/-- Move the object shapes of an inline schema into definitions. -/
def share (definitions : Table Json) (schema : Json) (name : String) : Json × Table Json :=
  match _h : schema.get? "anyOf" with
  | some (.arr members) =>
      let (members, definitions) := shareItems definitions members name
      (anyOf members, definitions)
  | _ =>
      if schema.get? "type" = some (.str "array") then
        match _h : schema.get? "items" with
        | some items =>
            let (items, definitions) := share definitions items name
            (ofArray items, definitions)
        | none => (ofArray .empty, definitions)
      else if schema.get? "type" = some (.str "object") then
        match _h : schema.get? "properties" with
        | some (.obj members) =>
            let (properties, definitions) := shareMembers definitions members
            let required := (schema.get? "required").getD (.arr [])
            let (final, definitions) :=
              register definitions (closedObject properties required name) name
            (refTo final, definitions)
        | _ => (schema, definitions)
      else (schema, definitions)
termination_by sizeOf schema
decreasing_by
  · have hlt := Json.sizeOf_get?_lt _h
    simp only [Json.arr.sizeOf_spec] at hlt
    omega
  · exact Json.sizeOf_get?_lt _h
  · have hlt := Json.sizeOf_get?_lt _h
    simp only [Json.obj.sizeOf_spec] at hlt
    omega

/-- Move the object shapes of alternatives, which all ask for one name. -/
def shareItems (definitions : Table Json) (schemas : List Json) (name : String) :
    List Json × Table Json :=
  match schemas with
  | [] => ([], definitions)
  | schema :: schemas =>
      let (schema, definitions) := share definitions schema name
      let (schemas, definitions) := shareItems definitions schemas name
      (schema :: schemas, definitions)
termination_by sizeOf schemas

/-- Move the object shapes of properties. -/
def shareMembers (definitions : Table Json) (members : List (String × Json)) :
    List (String × Json) × Table Json :=
  match members with
  | [] => ([], definitions)
  | (property, schema) :: members =>
      let (schema, definitions) := share definitions schema (propertyShapeName property)
      let (members, definitions) := shareMembers definitions members
      ((property, schema) :: members, definitions)
termination_by sizeOf members

end

/-- The dialect that a draft declares. -/
def dialect : String := "http://json-schema.org/draft-06/schema#"

/-- The draft of an inline schema: the members of its root, then the
definitions. -/
def draftOf (schema : Json) (name : String) : Json :=
  let rootName := Identifier.pascalCase name
  let (root, definitions) :=
    share [] schema (if rootName.isEmpty then "Root" else rootName)
  (Json.obj (Table.update [("$schema", .str dialect)] root.members)).set "definitions"
    (.obj definitions)

/-- The draft that describes all samples. -/
def draft (name : String) (samples : List Json) : Except Fault Json := do
  .ok (draftOf (← ofSamples samples) name)

end RequestShapes.Schema
