import RequestShapes.Schema.Draft
import RequestShapes.Schema.Lifting
import RequestShapes.Zod.Source

/-!
# Components of an endpoint

A component is one sample value of a request, such as its body. It yields the
declarations of its nested shapes and of itself, the nested ones first. Cross
references stand in the declarations as markers.
-/

namespace RequestShapes.Endpoint

/-- Why a component cannot be declared. -/
inductive Fault where
  /-- The sample holds an integer that has no decimal text. -/
  | tooManyDigits (refusal : TooManyDigits)
  /-- The inferred schema cannot be restructured. -/
  | schema (fault : Schema.Fault)
  /-- The restructured schema denotes no expression. -/
  | render (fault : Zod.Fault)
deriving DecidableEq

/-- The wording of a fault. -/
def Fault.message : Fault → String
  | tooManyDigits refusal => refusal.message
  | schema fault => fault.message
  | render fault => fault.message

/-- The declarations of one component. -/
structure Component where
  segments : List String
  typeExports : List String
  typeNames : List String
deriving DecidableEq, Inhabited

/-- The two steps of synthesis that may be replaced: from a sample to a draft,
and from a schema and a constant to a module source. -/
structure Synthesizer where
  draft : String → Json → Except Schema.Fault Json
  source : Json → String → Except Zod.Fault String

/-- Drafts are inferred and sources are Zod modules. -/
def Synthesizer.standard : Synthesizer where
  draft name sample := Schema.draft name [sample]
  source schema name := Zod.moduleSource schema name {}

/-- Whether a sample says nothing: null, an empty array or an empty object. -/
def isBlankSample : Json → Bool
  | .null | .arr [] | .obj [] => true
  | _ => false

/-- The alias of the type of a constant. -/
def typeExport (typeName constant : String) : String :=
  "export type " ++ typeName ++ " = z.infer<typeof " ++ constant ++ ">;"

/-- The name of a definition with its marked node, for every definition and
then for the root. -/
def markedNodes (constants : Table String) (definitions : Table Json) (rootConstant : String)
    (root : Json) : List (String × Json) :=
  (definitions.map fun (name, node) =>
    ((Table.get? constants name).getD "", Schema.mark constants node)) ++
    [(rootConstant, Schema.mark constants root)]

/-- Declare a sample under a type name. No nested shape takes a reserved name.
-/
def Synthesizer.component (synthesizer : Synthesizer) (name : String) (sample : Json)
    (reserved : List String) : Except Fault Component := do
  if isBlankSample sample then return ⟨[], [], []⟩
  unless sample.writable do throw (.tooManyDigits ⟨none⟩)
  let baseName := Identifier.pascalCase name
  let draft ← (synthesizer.draft baseName sample).mapError .schema
  let inlined ← (Schema.inlineRoot draft).mapError .schema
  let schema ← (Schema.lift inlined baseName reserved).mapError .schema
  let definitions := Schema.definitionsOf schema
  let constants := Schema.constantsOf definitions
  let rootConstant := Identifier.schemaConstant baseName
  let nodes := markedNodes constants definitions rootConstant (schema.erase "definitions")
  let segments ← nodes.mapM fun (constant, node) =>
    ((synthesizer.source node constant).map Zod.segmentOf).mapError Fault.render
  let typeNames := (Table.names definitions).map Identifier.pascalCase ++ [baseName]
  return ⟨segments, List.zipWith typeExport typeNames (nodes.map Prod.fst), typeNames⟩

end RequestShapes.Endpoint
