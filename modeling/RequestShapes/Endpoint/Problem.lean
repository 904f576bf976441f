import RequestShapes.Schema.Reference
import RequestShapes.Text.Blank
import RequestShapes.Text.Search
import RequestShapes.Text.Word

/-!
# Problems of a module text

A module text is consistent if every constant it refers to is declared, no
marker is left, and no constant is declared twice. Each kind of problem is
listed in order of names, each name once.
-/

namespace RequestShapes.Endpoint

open Text

/-- What may be wrong with a module text. -/
inductive Problem where
  | undeclared (name : String)
  | leftover (marker : String)
  | duplicate (name : String)
deriving DecidableEq

/-- The wording of a problem. -/
def Problem.message : Problem → String
  | undeclared name => "Undeclared schema reference: " ++ name
  | leftover marker => "Unresolved placeholder: " ++ marker
  | duplicate name => "Duplicate declaration: " ++ name

/-- Names in order, each once. -/
def sortedNames (names : List String) : List String :=
  names.eraseDups.mergeSort (· ≤ ·)

/-- The word at the start of a text, which must not be empty. -/
def word? (text : List Char) : Option (List Char × List Char) :=
  match text.takeWhile isWord with
  | [] => none
  | word => some (word, text.dropWhile isWord)

/-- The word between a lead and a closing text. -/
def enclosedWord? (lead closing : String) (text : List Char) :
    Option (String × List Char) := do
  let (word, rest) ← word? (← after? lead.toList text)
  let rest ← after? closing.toList rest
  some (String.ofList word, rest)

/-- The constant whose declaration begins right here. -/
def declarationHere? (text : List Char) : Option String := do
  let (word, rest) ← word? (← after? "export const ".toList text)
  if (dropBlank rest).head? = some '=' then some (String.ofList word) else none

/-- The constants declared at the start of a line, in order. -/
def declarationsFrom (lineStart : Bool) : List Char → List String
  | [] => []
  | c :: text =>
      (if lineStart then (declarationHere? (c :: text)).toList else []) ++
        declarationsFrom (c = '\n') text

/-- The constants that a module text declares, in order. -/
def declarations (text : String) : List String :=
  declarationsFrom true text.toList

/-- The constants that a module text refers to: by lazy references and by
aliases. -/
def references (text : String) : List String :=
  findAll (enclosedWord? "z.lazy(() => " ")") text.toList ++
    findAll (enclosedWord? "z.infer<typeof " ">") text.toList

/-- The marker at the start of a text. -/
def marker? (text : List Char) : Option (String × List Char) :=
  (after? Schema.markerLead.toList text).map fun rest =>
    (Schema.markerLead ++ String.ofList (rest.takeWhile isWord), rest.dropWhile isWord)

/-- The references of a module text that are never declared. -/
def danglingReferences (text : String) : List String :=
  sortedNames ((references text).filter fun name => name ∉ declarations text)

/-- The markers left in a module text. -/
def leftoverMarkers (text : String) : List String :=
  sortedNames (findAll marker? text.toList)

/-- The names that occur again after their first place. -/
def repeated : List String → List String
  | [] => []
  | name :: names => (if name ∈ names then [name] else []) ++ repeated names

/-- The constants that a module text declares more than once. -/
def duplicateDeclarations (text : String) : List String :=
  sortedNames (repeated (declarations text))

/-- All problems of a module text. -/
def problems (text : String) : List Problem :=
  (danglingReferences text).map .undeclared ++ (leftoverMarkers text).map .leftover ++
    (duplicateDeclarations text).map .duplicate

end RequestShapes.Endpoint
