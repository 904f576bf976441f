import RequestShapes.Json.Basic

/-!
# Request documents

What a request document says: its address, and the samples from which schemas
are made. A sample that is absent is null; a table that is absent is none.
-/

namespace RequestShapes.Request

/-- A saved example response. -/
structure Response where
  status : Nat
  status_pos : 0 < status
  body : Json
  headers : Option (Table Json)
deriving DecidableEq

/-- A request document. -/
structure Document where
  path : String
  name : String
  /-- The method in lower case, or `unknown`. -/
  method : String
  url : String
  body : Json
  headers : Option (Table Json)
  query : Option (Table Json)
  /-- The parameters of the path. -/
  params : Option (Table Json)
  responses : List Response
deriving DecidableEq

/-- A table as a value, null if absent. -/
def tableValue : Option (Table Json) → Json
  | none => .null
  | some table => .obj table

/-- A response as a value. -/
def Response.toJson (response : Response) : Json :=
  .obj [("status_code", .int response.status), ("body", response.body),
    ("headers", tableValue response.headers)]

/-- A document as a value, in the order of its fields. -/
def Document.toJson (document : Document) : Json :=
  .obj [("path", .str document.path), ("name", .str document.name),
    ("method", .str document.method), ("url", .str document.url), ("body", document.body),
    ("headers", tableValue document.headers), ("query", tableValue document.query),
    ("params", tableValue document.params),
    ("responses", .arr (document.responses.map Response.toJson))]

/-- The table that a value stands for: null is none, and only an object is a
table. -/
def table? : Json → Option (Option (Table Json))
  | .null => some none
  | .obj members => some (some members)
  | _ => none

end RequestShapes.Request
