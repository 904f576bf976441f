import RequestShapes.Text.Blank
import RequestShapes.Text.Search
import RequestShapes.Text.Upper
import RequestShapes.Zod.Expr

/-!
# Zod source text

The text of an expression stands on one line. A declaration exports one
constant with its expression, in a module of its own that may begin with a line
that imports the library.
-/

namespace RequestShapes.Zod

open Text

/-- The call that checks a format. -/
def formatCall : Format → String
  | .dateTime => ".datetime()"
  | .date => ".date()"
  | .email => ".email()"
  | .uri => ".url()"
  | .uuid => ".uuid()"

/-- A call with one argument. -/
def call (function : String) (argument : List Char) : List Char :=
  function.toList ++ '(' :: (argument ++ [')'])

/-- A call with one list of arguments. -/
def listCall (function : String) (arguments : List (List Char)) : List Char :=
  call function ('[' :: (Json.commaSeparated arguments ++ [']']))

/-- An object call with its fields. -/
def objectCall (fields : List (List Char)) : List Char :=
  call "z.object" (
    if fields.isEmpty then ['\x7b', '\x7d']
    else '\x7b' :: ' ' :: (Json.commaSeparated fields ++ [' ', '\x7d']))

mutual

/-- The text of an expression. -/
def Expr.text : Expr → List Char
  | .any => "z.any()".toList
  | .never => "z.never()".toList
  | .string none => "z.string()".toList
  | .string (some format) => "z.string()".toList ++ (formatCall format).toList
  | .integer => "z.number().int()".toList
  | .number => "z.number()".toList
  | .boolean => "z.boolean()".toList
  | .null => "z.null()".toList
  | .literal value => call "z.literal" value.text
  | .enumeration texts => listCall "z.enum" (texts.map Json.quotedText)
  | .union members => listCall "z.union" (memberTexts members)
  | .array items => call "z.array" items.text
  | .record values => call "z.record" values.text
  | .object fields => objectCall (fieldTexts fields)
  | .strictObject fields => objectCall (fieldTexts fields) ++ ".strict()".toList
  | .openObject fields others => objectCall (fieldTexts fields) ++ call ".catchall" others.text

/-- The texts of the members of a union. -/
def memberTexts : List Expr → List (List Char)
  | [] => []
  | member :: members => member.text :: memberTexts members

/-- The texts of fields: the quoted name, a colon, the value. -/
def fieldTexts : List (Field Expr) → List (List Char)
  | [] => []
  | ⟨name, optional, value⟩ :: fields =>
      (Json.quotedText name ++ ':' :: ' ' :: (value.text ++
        if optional then ".optional()".toList else [])) :: fieldTexts fields

end

/-- What a declaration is written with. -/
structure Options where
  /-- The module kind. Modules of the kind `esm` begin with an import line. -/
  module : String := "esm"
  /-- Whether a type alias is exported beside the constant. -/
  exportType : Bool := false

/-- The import line of a module with one declaration. -/
def importLine : String := "import \x7b z \x7d from \"zod\""

/-- The declaration of a constant. -/
def constantDeclaration (name : String) (expr : Expr) : String :=
  "export const " ++ name ++ " = " ++ String.ofList expr.text

/-- The name with its first character raised, as the type beside a constant is
called. -/
def raisedFirst (name : String) : String :=
  match name.toList with
  | [] => ""
  | c :: rest => String.ofList (upper c ++ rest)

/-- The source of a module that declares one constant. -/
def moduleSource (schema : Json) (name : String) (options : Options) :
    Except Fault String := do
  let expr ← Expr.ofSchema schema
  let head := if options.module = "esm" then [importLine, ""] else []
  let typeAlias :=
    if options.exportType then
      ["export type " ++ raisedFirst name ++ " = z.infer<typeof " ++ name ++ ">"]
    else []
  .ok ("\n".intercalate (head ++ constantDeclaration name expr :: typeAlias) ++ "\n")

/-- What follows an import of the library right here, up to and with the end of
its line. -/
def afterImport? (text : List Char) : Option (List Char) := do
  let rest ← after? "import \x7b z \x7d from ".toList text
  let rest ← (after? ['"'] rest).or (after? ['\''] rest)
  let rest ← after? "zod".toList rest
  let rest ← (after? ['"'] rest).or (after? ['\''] rest)
  after? ['\n'] (rest.dropWhile (· ≠ '\n'))

/-- The text without its first import of the library. -/
def dropImport : List Char → List Char
  | [] => []
  | c :: rest =>
      match afterImport? (c :: rest) with
      | some later => later
      | none => c :: dropImport rest

/-- The declaration that a module source holds, trimmed. -/
def segmentOf (source : String) : String :=
  String.ofList (trim (dropImport source.toList))

end RequestShapes.Zod
