import RequestShapes.Endpoint.Module
import RequestShapes.Files.Tree
import RequestShapes.Notice

/-!
# Generation of modules

For every document that documents something, a module is written into the
output directory. A module whose text is inconsistent is written with a
warning. What cannot be written ends the generation; what was written before
stays.
-/

namespace RequestShapes

open Files (Path Tree)

/-- Why a generation ends early. -/
inductive GenerationFault where
  | file (fault : Files.Fault)
  | endpoint (fault : Endpoint.Fault)
deriving DecidableEq

/-- The wording of a fault. -/
def GenerationFault.message : GenerationFault → String
  | file fault => fault.message
  | endpoint fault => fault.message

/-- How far a generation has come. -/
structure Generation where
  tree : Tree
  notices : List Notice := []
  /-- How many modules were written. -/
  endpoints : Nat := 0
  /-- How many declarations they hold. -/
  declarations : Nat := 0
  fault : Option GenerationFault := none

namespace Generation

/-- The generation that ends here. -/
def fail (generation : Generation) (fault : GenerationFault) : Generation :=
  { generation with fault := some fault }

/-- The generation with one more module written. -/
def write (verbose : Bool) (output : Path) (generation : Generation)
    (module : Endpoint.Module) : Generation :=
  let content := module.render
  let path := output ++ Path.ofString module.filename
  let warnings := (Endpoint.problems content).map (Notice.inconsistent module.filename)
  let warned := { generation with notices := generation.notices ++ warnings }
  match generation.tree.write path content.toUTF8 with
  | .error fault => warned.fail (.file fault)
  | .ok tree =>
      { warned with
        tree := tree
        notices := warned.notices ++ (if verbose then [.created path] else [])
        endpoints := generation.endpoints + 1
        declarations := generation.declarations + module.segments.length }

/-- The generation with the module of one more document, unless it has ended. -/
def add (settings : Settings) (verbose : Bool) (output : Path) (generation : Generation)
    (document : Request.Document) : Generation :=
  if generation.fault.isSome then generation
  else
    match Endpoint.Module.build settings document with
    | .error fault => generation.fail (.endpoint fault)
    | .ok none => generation
    | .ok (some module) => generation.write verbose output module

/-- The generation of modules for documents into a directory, which is made and,
unless it is to be kept, emptied first. -/
def run (settings : Settings) (verbose : Bool) (output : Path) (documents : List Request.Document)
    (tree : Tree) : Generation :=
  match tree.prepare output settings.keep with
  | .error fault => { tree, fault := some (.file fault) }
  | .ok tree => documents.foldl (add settings verbose output) { tree }

end Generation

end RequestShapes
