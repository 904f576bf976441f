import RequestShapes.Text.Search

/-!
# Identifiers

Names of types and constants are made of ASCII letters and digits only. A name
is cased by words: every letter that begins a word is raised and everything
that is neither letter nor digit is dropped. The path of a request URL yields a
name in the same way, once its variables, origin and query are gone.
-/

namespace RequestShapes.Identifier

open Text

/-- Whether a character belongs to a word. The underscore does, so what follows
it is not raised. -/
def isWordChar (c : Char) : Bool :=
  c.isAlphanum || c = '_'

/-- The letters and digits of a text, the first character of each word raised.
The flag says that the previous character belongs to a word. -/
def raiseWords (inWord : Bool) : List Char → List Char
  | [] => []
  | c :: rest =>
      if c.isAlphanum then (if inWord then c else c.toUpper) :: raiseWords true rest
      else raiseWords (isWordChar c) rest

/-- The Pascal case of a text: `get posts` becomes `GetPosts`. -/
def pascalCase (text : String) : String :=
  String.ofList (raiseWords false text.toList)

/-- The text with its first character lowered. -/
def lowerFirst : List Char → List Char
  | [] => []
  | c :: rest => c.toLower :: rest

/-- The camel case of a text: its Pascal case with the first letter lowered. -/
def camelCase (text : String) : String :=
  String.ofList (lowerFirst (pascalCase text).toList)

/-- The constant that holds the schema of a type. -/
def schemaConstant (typeName : String) : String :=
  camelCase typeName ++ "Schema"

/-- A template variable at the start of a text, with what follows it: two
opening braces, at least one character that is no closing brace, two closing
braces. -/
def afterVariable? (text : List Char) : Option (List Char) := do
  let inner ← after? ['{', '{'] text
  if (inner.takeWhile (· ≠ '}')).isEmpty then none
  else after? ['}', '}'] (inner.dropWhile (· ≠ '}'))

/-- The text without its template variables. -/
def dropVariables (url : List Char) : List Char :=
  replaceAll (fun text => (afterVariable? text).map fun rest => ([], rest)) url

/-- The text without a leading scheme and host. -/
def dropOrigin (url : List Char) : List Char :=
  match (after? "https://".toList url).or (after? "http://".toList url) with
  | some rest => rest.dropWhile (· ≠ '/')
  | none => url

/-- The text up to its query or fragment. A mark opens one only on the last
line; a line end that closes the text stays. -/
def dropQuery : List Char → List Char
  | [] => []
  | c :: rest =>
      if c = '?' ∨ c = '#' then
        match rest.dropWhile (· ≠ '\n') with
        | [] => []
        | ['\n'] => ['\n']
        | _ => c :: dropQuery rest
      else c :: dropQuery rest

/-- The name made of the path of a URL: `{{host}}/users/:id?page=1` becomes
`UsersId`. Slashes, colons and braces separate words and are dropped with all
that is no letter or digit, so the segments need no splitting. -/
def ofUrl (url : String) : String :=
  String.ofList (raiseWords false (dropQuery (dropOrigin (dropVariables url.toList))))

end RequestShapes.Identifier
