import RequestShapes.Command.Arguments
import RequestShapes.Files.Path
import RequestShapes.Settings

/-!
# Commands

What a user may ask for: the modules of a collection, or a look at one
document.
-/

namespace RequestShapes

open Files (Path)

namespace Command

/-- How modules are to be generated. -/
structure GenerateOptions where
  input : Path
  output : Path
  keep : Bool
  naming : Option Naming
  settings : Option Path
  verbose : Bool
deriving DecidableEq

/-- Why a command cannot be carried out as it is given. -/
inductive UsageFault where
  | noCommand
  | unknownCommand (name : String)
  | argument (fault : ArgumentFault)
  | missingOption (option : String)
  | missingArgument
  | extraArgument (operand : String)
  | unknownNaming (word : String)
  /-- No file is where one is named. -/
  | noFile (path : Path)
  /-- The settings file is unusable. -/
  | settings (path : Path) (fault : Settings.Fault)
deriving DecidableEq

/-- The wording of a fault. -/
def UsageFault.message : UsageFault → String
  | noCommand => "Missing command."
  | unknownCommand name => "No such command '" ++ name ++ "'."
  | argument fault => fault.message
  | missingOption option => "Missing option '" ++ option ++ "'."
  | missingArgument => "Missing argument."
  | extraArgument operand => "Got unexpected extra argument (" ++ operand ++ ")"
  | unknownNaming word => "'" ++ word ++ "' is neither 'path' nor 'name'."
  | noFile path => "File '" ++ path.toString ++ "' does not exist."
  | settings path fault => "Invalid value for --config: " ++ fault.message path.toString

end Command

/-- A command. -/
inductive Command where
  | generate (options : Command.GenerateOptions)
  | inspect (path : Path)
  | help
deriving DecidableEq

namespace Command

/-- The option that asks for help. -/
def helpForm : OptionForm := { long := "--help" }

/-- The options of the command that generates modules. -/
def generateForms : List OptionForm :=
  [{ long := "--in", short := some 'i', takesValue := true },
   { long := "--out", short := some 'o', takesValue := true },
   { long := "--keep" },
   { long := "--naming", takesValue := true },
   { long := "--config", takesValue := true },
   { long := "--verbose", short := some 'v' },
   helpForm]

/-- The value of an option that must be given. -/
def required (arguments : Arguments) (option : String) : Except UsageFault String :=
  match arguments.value? option with
  | some value => .ok value
  | none => .error (.missingOption option)

/-- The naming that the arguments ask for. -/
def namingOf (arguments : Arguments) : Except UsageFault (Option Naming) :=
  match arguments.value? "--naming" with
  | none => .ok none
  | some word =>
      match Naming.ofWord? word with
      | some naming => .ok (some naming)
      | none => .error (.unknownNaming word)

/-- The path of a text that is to name a file. -/
def fileOf (text : String) : Except UsageFault Path :=
  let path := Path.ofString text
  if Path.namesDirectory text then .error (.noFile path) else .ok path

/-- The settings file that the arguments name. -/
def settingsFileOf (arguments : Arguments) : Except UsageFault (Option Path) :=
  match arguments.value? "--config" with
  | none => .ok none
  | some text => (fileOf text).map some

/-- The command that generates modules. -/
def ofGenerateArguments (arguments : Arguments) : Except UsageFault Command := do
  if arguments.has "--help" then return .help
  let input ← required arguments "--in"
  let output ← required arguments "--out"
  let naming ← namingOf arguments
  let settings ← settingsFileOf arguments
  match arguments.operands with
  | [] =>
      return .generate
        { input := .ofString input
          output := .ofString output
          keep := arguments.has "--keep"
          naming := naming
          settings := settings
          verbose := arguments.has "--verbose" }
  | operand :: _ => throw (.extraArgument operand)

/-- The command that shows a document. -/
def ofInspectArguments (arguments : Arguments) : Except UsageFault Command :=
  if arguments.has "--help" then .ok .help
  else
    match arguments.operands with
    | [] => .error .missingArgument
    | [text] => (fileOf text).map .inspect
    | _ :: operand :: _ => .error (.extraArgument operand)

/-- The command of a name with its arguments. -/
def ofName (name : String) (arguments : List String) : Except UsageFault Command := do
  match name with
  | "generate" =>
      ofGenerateArguments (← (Arguments.read generateForms arguments).mapError .argument)
  | "inspect" =>
      ofInspectArguments (← (Arguments.read [helpForm] arguments).mapError .argument)
  | name => throw (.unknownCommand name)

/-- The command that a user gives. Before its name, only help can be asked for.
-/
def parse : List String → Except UsageFault Command
  | [] | ["--"] => .error .noCommand
  | "--" :: name :: arguments => ofName name arguments
  | name :: arguments =>
      if name = helpForm.long then .ok .help
      else if Arguments.isOption name then .error (.argument (.unknownOption name))
      else ofName name arguments

end Command

end RequestShapes
