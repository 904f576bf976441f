import RequestShapes.Command.Basic
import RequestShapes.Generation
import RequestShapes.Json.Pretty

/-!
# Running commands

A command reads a tree of files and leaves a tree of files. Settings are read
first and the collection is searched next; only when there is a document to
work on is anything written. Files that yield no document are reported and
passed over.
-/

namespace RequestShapes.Command

open Files (Path Tree)

/-- Why a command breaks off. -/
inductive Fault where
  | settings (fault : Settings.Fault)
  | file (fault : Files.Fault)
  | encoding (fault : Text.Utf8Fault)
  | document (fault : Request.Fault)
  | generation (fault : GenerationFault)
deriving DecidableEq

/-- The wording of a fault. -/
def Fault.message : Fault → String
  | settings fault => fault.message "the settings"
  | file fault => fault.message
  | encoding fault => fault.message
  | document fault => fault.message
  | generation fault => fault.message

/-- How a command ends. -/
inductive Ending where
  | finished
  /-- There was nothing to work on where there should have been. -/
  | refused
  /-- The command could not be carried out as it was given. -/
  | misused (fault : UsageFault)
  /-- The command broke off. -/
  | failed (fault : Fault)
deriving DecidableEq

/-- The exit code of an ending. -/
def Ending.exitCode : Ending → Nat
  | finished => 0
  | refused => 1
  | misused _ => 2
  | failed _ => 1

/-- What a command leaves. -/
structure Outcome where
  tree : Tree
  notices : List Notice
  ending : Ending

/-- How a command ends that cannot read its settings. A text that holds no
settings is a wrong use of the command. -/
def Ending.ofSettings (path : Path) (fault : Settings.Fault) : Ending :=
  match fault with
  | .unreadable .malformed | .unfit | .noTable _ => .misused (.settings path fault)
  | fault => .failed (.settings fault)

/-- The bytes of a file that the command names. To name none is a wrong use of
the command. -/
def namedFile (tree : Tree) (path : Path) : Except Ending ByteArray :=
  match tree.read path with
  | .ok bytes => .ok bytes
  | .error .unnameable => .error (.failed (.file .unnameable))
  | .error _ => .error (.misused (.noFile path))

/-- The settings in a file, the defaults if none is named. -/
def settingsOf (tree : Tree) : Option Path → Except Ending Settings
  | none => .ok {}
  | some path => do
      match Files.textOfBytes (← namedFile tree path) with
      | .error fault => .error (.failed (.encoding fault))
      | .ok text => (Settings.read text).mapError (Ending.ofSettings path)

/-- What options override. They can ask for keeping, but not against it. -/
def GenerateOptions.overrides (options : GenerateOptions) : Settings.Overrides where
  naming := options.naming
  keep := if options.keep then some true else none

/-- What is said about a file that was loaded. -/
def loadNotices (verbose : Bool) (path : Path) :
    Except Request.Fault Request.Document → List Notice
  | .ok _ => if verbose then [.parsed path] else []
  | .error fault => [.skipped path fault]

/-- Generate modules for the documents at some paths. -/
def generateFrom (tree : Tree) (settings : Settings) (verbose : Bool)
    (input output : Path) (paths : List Path) : Outcome :=
  let loaded := paths.map fun path => (path, Request.Document.load tree path)
  let found := if verbose then [Notice.found paths.length input] else []
  let reading := loaded.flatMap fun (path, document) => loadNotices verbose path document
  let documents := loaded.filterMap fun (_, document) => document.toOption
  let generation := Generation.run settings verbose output documents tree
  let notices := found ++ reading ++ generation.notices
  match generation.fault with
  | some fault => ⟨generation.tree, notices, .failed (.generation fault)⟩
  | none =>
      let summary := Notice.documented generation.endpoints generation.declarations
      ⟨generation.tree, notices ++ [summary], .finished⟩

/-- Generate the modules of a collection. -/
def generateModules (tree : Tree) (options : GenerateOptions) : Outcome :=
  match settingsOf tree options.settings with
  | .error ending => ⟨tree, [], ending⟩
  | .ok settings =>
      let settings := settings.override options.overrides
      let input := tree.resolve options.input
      let output := tree.resolve options.output
      if !(input.isNameable && output.isNameable) then ⟨tree, [], .failed (.file .unnameable)⟩
      else match tree.at? input, Request.documentPaths tree input with
        | .error fault, _ | _, .error fault => ⟨tree, [], .failed (.file fault)⟩
        | .ok none, _ => ⟨tree, [.noCollection input], .refused⟩
        | .ok (some _), .ok [] => ⟨tree, [.noDocuments], .finished⟩
        | .ok (some _), .ok paths =>
            generateFrom tree settings options.verbose input output paths

/-- Show the document in a file. -/
def showDocument (tree : Tree) (path : Path) : Outcome :=
  match namedFile tree path, Request.Document.load tree path with
  | .error ending, _ => ⟨tree, [], ending⟩
  | .ok _, .error fault => ⟨tree, [], .failed (.document fault)⟩
  | .ok _, .ok document =>
      let text := Json.Pretty.text document.toJson
      ⟨tree, [.shown (String.ofList text)], .finished⟩

/-- How to use the commands. -/
def usage : String :=
  "Usage: generate -i DIR -o DIR [--keep] [--naming path|name] [--config FILE] [-v]\n" ++
    "       inspect FILE"

/-- Run the command that some arguments give. -/
def run (tree : Tree) (arguments : List String) : Outcome :=
  match parse arguments with
  | .error fault => ⟨tree, [], .misused fault⟩
  | .ok .help => ⟨tree, [.shown usage], .finished⟩
  | .ok (.generate options) => generateModules tree options
  | .ok (.inspect path) => showDocument tree path

end RequestShapes.Command
