/-!
# Arguments of a command

An argument is an option if it begins with a hyphen and says more. A long
option takes its value after an equals sign or from the next argument. Short
options may be joined; the first that takes a value takes the rest of the
argument or else the next one. After two hyphens nothing is an option.
-/

namespace RequestShapes.Command

/-- Why arguments cannot be read. -/
inductive ArgumentFault where
  | unknownOption (written : String)
  /-- No argument follows an option that takes a value. -/
  | missingValue (option : String)
  /-- A value is given to an option that takes none. -/
  | unexpectedValue (option : String)
deriving DecidableEq, Repr

/-- The wording of a fault. -/
def ArgumentFault.message : ArgumentFault → String
  | unknownOption written => "No such option: " ++ written
  | missingValue option => "Option '" ++ option ++ "' requires an argument."
  | unexpectedValue option => "Option '" ++ option ++ "' does not take a value."

/-- An option that a command knows, by its long name. -/
structure OptionForm where
  long : String
  short : Option Char := none
  takesValue : Bool := false
deriving DecidableEq, Repr

/-- Arguments that were read: the options by their long names, each with its
value or an empty text, and all others. -/
structure Arguments where
  options : List (String × String) := []
  operands : List String := []
deriving DecidableEq, Repr

namespace Arguments

/-- Whether an option is given. -/
def has (arguments : Arguments) (option : String) : Bool :=
  arguments.options.any fun given => given.1 = option

/-- The value of an option; the last one counts. -/
def value? (arguments : Arguments) (option : String) : Option String :=
  (arguments.options.reverse.find? fun given => given.1 = option).map Prod.snd

/-- The arguments with options in front. -/
def withOptions (given : List (String × String)) (arguments : Arguments) : Arguments :=
  { arguments with options := given ++ arguments.options }

/-- The arguments with another one in front. -/
def withOperand (operand : String) (arguments : Arguments) : Arguments :=
  { arguments with operands := operand :: arguments.operands }

/-- Options of one argument, and the option whose value is the next one. -/
abbrev Written := List (String × String) × Option String

/-- The options joined in one argument, after its hyphen. -/
def readShort (forms : List OptionForm) : List Char → Except ArgumentFault Written
  | [] => .ok ([], none)
  | c :: rest =>
      match forms.find? fun form => form.short = some c with
      | none => .error (.unknownOption (String.ofList ['-', c]))
      | some form =>
          if form.takesValue then
            if rest.isEmpty then .ok ([], some form.long)
            else .ok ([(form.long, String.ofList rest)], none)
          else
            (readShort forms rest).map fun (given, pending) => ((form.long, "") :: given, pending)

/-- The option of one argument that is long. -/
def readLong (form : OptionForm) (value : Option String) : Except ArgumentFault Written :=
  match form.takesValue, value with
  | true, some value => .ok ([(form.long, value)], none)
  | true, none => .ok ([], some form.long)
  | false, some _ => .error (.unexpectedValue form.long)
  | false, none => .ok ([(form.long, "")], none)

/-- The options of one argument. -/
def readOption (forms : List OptionForm) (argument : String) : Except ArgumentFault Written :=
  let text := argument.toList
  let name := text.takeWhile (· ≠ '=')
  let value :=
    match text.dropWhile (· ≠ '=') with
    | [] => none
    | _ :: value => some (String.ofList value)
  match forms.find? fun form => form.long.toList = name with
  | some form => readLong form value
  | none =>
      if text.take 2 = ['-', '-'] then .error (.unknownOption (String.ofList name))
      else readShort forms (text.drop 1)

/-- Whether an argument is an option. -/
def isOption (argument : String) : Bool :=
  argument.toList.head? = some '-' && argument ≠ "-"

/-- Read arguments. -/
def read (forms : List OptionForm) : List String → Except ArgumentFault Arguments
  | [] => .ok {}
  | argument :: rest =>
      if argument = "--" then .ok { operands := rest }
      else if isOption argument then
        match readOption forms argument, rest with
        | .error fault, _ => .error fault
        | .ok (given, none), rest => (read forms rest).map (withOptions given)
        | .ok (given, some option), value :: rest =>
            (read forms rest).map (withOptions (given ++ [(option, value)]))
        | .ok (_, some option), [] => .error (.missingValue option)
      else (read forms rest).map (withOperand argument)

end Arguments

end RequestShapes.Command
