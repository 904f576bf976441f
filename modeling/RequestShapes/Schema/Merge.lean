import RequestShapes.Json.Scalar
import RequestShapes.Schema.Basic
import RequestShapes.Text.Search

/-!
# Merging schemas

Several schemas of one position become one schema that describes all of them.
Alternatives and type lists are taken apart, schemas of one type are merged
with one another, integers and numbers collapse if nothing else occurs, and
null comes back last. The types keep the order in which they first occurred.
-/

namespace RequestShapes.Schema

/-- The schemas of single types that a schema is made of. -/
def alternatives (schema : Json) : Except Fault (List Json) :=
  match schema with
  | .obj members =>
      match Table.get? members "anyOf", Table.get? members "type" with
      | some value, _ => value.listed?.elim (.error .misfit) .ok
      | none, some (.arr types) => .ok (types.map fun type => schema.set "type" type)
      | none, _ => .ok [schema]
  | .arr _ | .str _ => .error .noObject
  | _ => .error .misfit

/-- Schemas sorted by type, and whether null was among them. -/
structure Sorted where
  groups : List (Json × List Json)
  nullable : Bool

/-- Add a schema to the group of its type; a new type opens a group at the end. -/
def addToGroup : List (Json × List Json) → Json → Json → List (Json × List Json)
  | [], type, schema => [(type, [schema])]
  | (key, group) :: groups, type, schema =>
      if key.sameKey type then (key, group ++ [schema]) :: groups
      else (key, group) :: addToGroup groups type schema

/-- Sort one more schema. Vacant schemas say nothing and are left out; null is
kept apart. -/
def Sorted.add (sorted : Sorted) (schema : Json) : Except Fault Sorted :=
  if schema.isVacant then .ok sorted
  else if !schema.isObject then .error .noObject
  else match schema.get? "type" with
    | none => .error (.missing "type")
    | some (.str "null") => .ok { sorted with nullable := true }
    | some type =>
        if type.isContainer then .error .misfit
        else .ok { sorted with groups := addToGroup sorted.groups type schema }

/-- Sort schemas in order. -/
def sortByType (schemas : List Json) : Except Fault Sorted :=
  schemas.foldlM Sorted.add ⟨[], false⟩

/-- Integers and numbers together are numbers, if no other type occurs. -/
def collapseNumbers (groups : List (Json × List Json)) : List (Json × List Json) :=
  match groups.map Prod.fst with
  | [.str "integer", .str "number"] | [.str "number", .str "integer"] =>
      [(.str "number", [ofType (.str "number")])]
  | _ => groups

/-- Add the properties of a schema to those gathered so far, each under its
name. -/
def gather (gathered : Table (List Json)) (properties : List (String × Json)) :
    Table (List Json) :=
  properties.foldl (fun gathered (name, property) =>
    Table.set gathered name (((Table.get? gathered name).getD []) ++ [property])) gathered

/-- The properties of object schemas. -/
def properties (schema : Json) : Except Fault (List (String × Json)) :=
  match schema.get? "properties" with
  | some (.obj members) => .ok members
  | some _ => .error .noObject
  | none => .error (.missing "properties")

/-- Whether a schema requires a name. A text requires what occurs in it. -/
def requires (schema : Json) (name : String) : Except Fault Bool :=
  match schema.get? "required" with
  | none => .ok false
  | some (.arr names) => .ok (names.contains (.str name))
  | some (.obj members) => .ok (Table.has members name)
  | some (.str text) => .ok (Text.cut? name.toList text.toList).isSome
  | some _ => .error .misfit

/-- Whether every schema requires a name; the first that does not settles it. -/
def allRequire : List Json → String → Except Fault Bool
  | [], _ => .ok true
  | schema :: schemas, name => do
      if ← requires schema name then allRequire schemas name else .ok false

/-- The format that all schemas of texts agree on. -/
def commonFormat? (schemas : List Json) : Except Fault (Option Json) :=
  let formats := schemas.map fun schema => (schema.get? "format").getD .null
  if formats.any Json.isContainer then .error .misfit
  else match formats with
    | [] | .null :: _ => .ok none
    | format :: rest => .ok (if rest.all (Json.sameKey format) then some format else none)

/-- Merge schemas of one type, given a way to merge the schemas of a property
or of items. -/
def mergeGroup (merge : List Json → Except Fault Json) (type : Json) (schemas : List Json) :
    Except Fault Json :=
  match type with
  | .str "object" => do
      let gathered ← schemas.foldlM (fun gathered schema => do
        .ok (gather gathered (← properties schema))) []
      let required ← (Table.names gathered).filterM (allRequire schemas)
      let merged ← gathered.mapM fun (name, group) => do .ok (name, ← merge group)
      .ok (ofObject merged required)
  | .str "array" => do
      .ok (ofArray (← merge (schemas.filterMap fun schema => Json.filled? (schema.get? "items"))))
  | .str "string" => do
      match ← commonFormat? schemas with
      | some format => .ok (.obj [("type", .str "string"), ("format", format)])
      | none => .ok (ofType (.str "string"))
  | type => .ok (ofType type)

/-- Put merged schemas of distinct types together. -/
def combine (merged : List Json) (nullable : Bool) : Json :=
  match merged with
  | [] => if nullable then nullType else .empty
  | [schema] =>
      if !nullable then schema
      else match schema.get? "type" with
        | some (.str "object") | some (.str "array") => anyOf [schema, nullType]
        | some type => schema.set "type" (.arr [type, .str "null"])
        | none => schema
  | schemas => anyOf (schemas ++ if nullable then [nullType] else [])

/-- Merge schemas whose nesting is less than the given depth. A single schema
stays as it is. -/
def mergeWithin : Nat → List Json → Except Fault Json
  | _, [] => .ok .empty
  | _, [schema] => .ok schema
  | 0, _ => .error .endless
  | depth + 1, schemas => do
      let single ← schemas.mapM alternatives
      let sorted ← sortByType single.flatten
      let merged ← (collapseNumbers sorted.groups).mapM fun (type, group) =>
        mergeGroup (mergeWithin depth) type group
      .ok (combine merged sorted.nullable)

/-- One schema for all the given schemas. What is merged inside of them is
nested less deeply, so their depth bounds the merging. -/
def merge (schemas : List Json) : Except Fault Json :=
  mergeWithin (Json.depthItems schemas + 1) schemas

end RequestShapes.Schema
