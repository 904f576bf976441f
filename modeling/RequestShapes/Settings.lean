import RequestShapes.Json.Basic
import RequestShapes.Text.Utf8
import RequestShapes.Yaml.Document

/-!
# Settings

What a user may choose: how modules are named, whether the output directory is
kept, the extension of module files and their import line. Settings are read
from a settings text and may be overridden one by one.
-/

namespace RequestShapes

/-- What the name of a module is made of, besides the method. -/
inductive Naming where
  /-- The path of the URL. -/
  | path
  /-- The name of the request. -/
  | name
deriving DecidableEq, Repr

/-- The word for a naming. -/
def Naming.word : Naming → String
  | path => "path"
  | name => "name"

/-- The naming of a word. -/
def Naming.ofWord? (word : String) : Option Naming :=
  [path, name].find? fun naming => naming.word = word

/-- The settings of a run. -/
structure Settings where
  naming : Naming := .path
  keep : Bool := false
  extension : String := ".ts"
  importLine : String := "import \x7b z \x7d from \"zod\";"
deriving DecidableEq

namespace Settings

open Yaml (Document Value)

/-- Why there are no settings. -/
inductive Fault where
  /-- The text is not written in the notation of settings. -/
  | unreadable (fault : Yaml.Fault)
  /-- A setting is unknown or its value does not fit. -/
  | unfit
  /-- The text holds a value of this kind and no table. -/
  | noTable (kind : String)
  /-- The name of a setting is no text. -/
  | noName
deriving DecidableEq, Repr

/-- The wording of a fault in a file. -/
def Fault.message (file : String) : Fault → String
  | unreadable .malformed => "Invalid YAML in " ++ file
  | unreadable fault => fault.message ++ " in " ++ file
  | unfit => "Invalid settings in " ++ file
  | noTable kind => file ++ " must contain a mapping, got " ++ kind
  | noName => "The name of a setting is no text in " ++ file

/-- The words for true and false, in lower case. -/
def truthWords : List (String × Bool) :=
  [("0", false), ("off", false), ("f", false), ("false", false), ("n", false), ("no", false),
   ("1", true), ("on", true), ("t", true), ("true", true), ("y", true), ("yes", true)]

/-- The text that a value stands for. Bytes may be a text in UTF-8. -/
def text? : Value → Option String
  | .str text => some text
  | .bytes bytes =>
      match Text.decodeUtf8 bytes with
      | .ok text => some (String.ofList text)
      | .error _ => none
  | _ => none

/-- The truth value that a value stands for. -/
def truth? : Value → Option Bool
  | .bool value => some value
  | .int 0 => some false
  | .int 1 => some true
  | .float x =>
      if x.isZero then some false
      else if x = .ofDecimal false 1 0 then some true
      else none
  | value => (text? value).bind fun word => Table.get? truthWords (word.map Char.toLower)

/-- The settings with one of them read from a value. An unknown name or an
unfit value yields nothing. -/
def assign? (settings : Settings) (name : String) (value : Value) : Option Settings :=
  match name, value with
  | "naming", .str word => (Naming.ofWord? word).map fun naming => { settings with naming }
  | "keep", value => (truth? value).map fun keep => { settings with keep }
  | "extension", value => (text? value).map fun extension => { settings with extension }
  | "import_line", value => (text? value).map fun importLine => { settings with importLine }
  | _, _ => none

/-- The settings of a table; what it does not mention has its default. -/
def ofTable? (table : Table Value) : Option Settings :=
  table.foldlM (fun settings (name, value) => settings.assign? name value) {}

/-- An entry whose key is a name. -/
def named? : Value × Value → Option (String × Value)
  | (.str name, value) => some (name, value)
  | _ => none

/-- The settings of a document. Of a name that occurs again the last value
counts. -/
def ofDocument (document : Document) : Except Fault Settings :=
  match document.value with
  | .null => .ok {}
  | .table =>
      match document.entries.mapM named? with
      | none => .error .noName
      | some entries =>
          match ofTable? (Table.ofEntries entries) with
          | none => .error .unfit
          | some settings => .ok settings
  | value => .error (.noTable value.kind)

/-- The settings of a text. An empty text leaves all defaults. -/
def read (text : List Char) : Except Fault Settings :=
  match Document.parse text with
  | .ok none => .ok {}
  | .ok (some document) => ofDocument document
  | .error fault => .error (.unreadable fault)

/-- The settings under their names. -/
def members (settings : Settings) : Table Json :=
  [("naming", .str settings.naming.word), ("keep", .bool settings.keep),
    ("extension", .str settings.extension), ("import_line", .str settings.importLine)]

/-- Values that take the place of settings. -/
structure Overrides where
  naming : Option Naming := none
  keep : Option Bool := none
  extension : Option String := none
  importLine : Option String := none

/-- The settings with the given overrides. -/
def override (settings : Settings) (overrides : Overrides) : Settings where
  naming := overrides.naming.getD settings.naming
  keep := overrides.keep.getD settings.keep
  extension := overrides.extension.getD settings.extension
  importLine := overrides.importLine.getD settings.importLine

/-- The overrides that are given, under the names of their settings. -/
def Overrides.members (overrides : Overrides) : Table Json :=
  [("naming", overrides.naming.map fun naming => Json.str naming.word),
    ("keep", overrides.keep.map .bool), ("extension", overrides.extension.map .str),
    ("import_line", overrides.importLine.map .str)].filterMap fun (name, value) =>
      value.map (name, ·)

/-- To override settings is to overlay their members. -/
theorem members_override (settings : Settings) (overrides : Overrides) :
    (settings.override overrides).members = Table.overlay settings.members overrides.members := by
  obtain ⟨naming, keep, extension, importLine⟩ := overrides
  cases naming <;> cases keep <;> cases extension <;> cases importLine <;> rfl

end Settings

end RequestShapes
