import RequestShapes.Endpoint.Component
import RequestShapes.Endpoint.Marker
import RequestShapes.Request.Document
import RequestShapes.Settings

/-!
# Modules of endpoints

An endpoint gets one module with the declarations of all its components and
the aliases of their types. No component declares a name that another one of
the same endpoint has or asks for.
-/

namespace RequestShapes.Endpoint

open Request

/-- A module before it is written. -/
structure Module where
  filename : String
  segments : List String
  typeExports : List String
  importLine : String
deriving DecidableEq

/-- The text of a module: import line, declarations, aliases, the latter
without repetitions. -/
def Module.render (module : Module) : String :=
  resolveMarkers (module.importLine ++ "\n\n" ++ "\n\n".intercalate module.segments) ++
    "\n\n" ++ "\n".intercalate module.typeExports.eraseDups ++ "\n"

/-- The name that everything of an endpoint begins with. -/
def baseName (settings : Settings) (document : Document) : String :=
  Identifier.pascalCase document.method ++
    match settings.naming with
    | .name => Identifier.pascalCase document.name
    | .path => Identifier.ofUrl document.url

/-- The samples of a document with the endings of their names, absent ones
included. -/
def samples (document : Document) : List (String × Json) :=
  [("Body", document.body), ("Header", tableValue document.headers),
    ("Query", tableValue document.query), ("Params", tableValue document.params)] ++
  document.responses.flatMap fun response =>
    let status := String.ofList (integerText response.status)
    [(status, response.body), (status ++ "Header", tableValue response.headers)]

/-- The samples that are there, under their full names. -/
def namedSamples (base : String) (document : Document) : List (String × Json) :=
  (samples document).filterMap fun (ending, sample) =>
    if sample = .null then none else some (base ++ ending, sample)

/-- Declare samples one after the other. Names that are taken are reserved,
except the one that the sample itself has. -/
def declareFrom (synthesizer : Synthesizer) (taken : List String) :
    List (String × Json) → Except Fault (List Component)
  | [] => .ok []
  | (name, sample) :: rest => do
      let typeName := Identifier.pascalCase name
      let component ← synthesizer.component name sample (taken.filter (· ≠ typeName))
      .ok (component :: (← declareFrom synthesizer (taken ++ component.typeNames) rest))

/-- The components of a document. The names of all of them are taken from the
start. -/
def components (synthesizer : Synthesizer) (base : String) (document : Document) :
    Except Fault (List Component) :=
  let named := namedSamples base document
  declareFrom synthesizer (named.map fun (name, _) => Identifier.pascalCase name) named

/-- The module of a document; nothing if it documents nothing. -/
def Module.build (settings : Settings) (document : Document) : Except Fault (Option Module) := do
  let base := baseName settings document
  let components ← components .standard base document
  let segments := components.flatMap Component.segments
  if segments.isEmpty then return none
  return some
    { filename := base ++ settings.extension
      segments := segments
      typeExports := components.flatMap Component.typeExports
      importLine := settings.importLine }

end RequestShapes.Endpoint
