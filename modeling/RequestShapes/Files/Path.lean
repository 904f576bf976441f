/-!
# Paths

A path is its root and its parts. Empty parts and single points are left out of
its text, parts that go up are kept, and exactly two slashes in front stay two.
-/

namespace RequestShapes.Files

/-- A path: nothing, one or two slashes in front, then its parts. -/
structure Path where
  root : String
  parts : List String
deriving DecidableEq, Inhabited

namespace Path

/-- The slashes in front of a path text that count. -/
def rootOf : List Char → String
  | '/' :: '/' :: '/' :: _ => "/"
  | '/' :: '/' :: _ => "//"
  | '/' :: _ => "/"
  | _ => ""

/-- The parts of a text between slashes, empty ones included. -/
def splitParts : List Char → List (List Char)
  | [] => [[]]
  | '/' :: text => [] :: splitParts text
  | c :: text =>
      match splitParts text with
      | [] => [[c]]
      | part :: parts => (c :: part) :: parts

/-- The path of a text. -/
def ofString (text : String) : Path :=
  ⟨rootOf text.toList, ((splitParts text.toList).map String.ofList).filter fun part =>
    part ≠ "" ∧ part ≠ "."⟩

/-- Whether a text can only name a directory, since it ends with a slash or
with a single point after one. The path of the text no longer tells. -/
def namesDirectory (text : String) : Bool :=
  match (splitParts text.toList).getLast? with
  | some [] | some ['.'] => true
  | _ => false

/-- The text of a path. -/
def toString (path : Path) : String :=
  let text := path.root ++ "/".intercalate path.parts
  if text.isEmpty then "." else text

instance : ToString Path := ⟨toString⟩

/-- Whether a path starts at the root. -/
def isAbsolute (path : Path) : Bool :=
  !path.root.isEmpty

/-- The last part of a path. -/
def name (path : Path) : String :=
  path.parts.getLast?.getD ""

/-- The last part without its last suffix. A point that begins or ends the part
begins no suffix. -/
def stem (path : Path) : String :=
  let text := path.name.toList
  let suffix := text.reverse.takeWhile (· ≠ '.')
  let before := text.take (text.length - suffix.length - 1)
  if suffix.length = text.length ∨ suffix.isEmpty ∨ before.isEmpty then path.name
  else String.ofList before

/-- A path followed by another one. An absolute path replaces what is before
it. -/
def append (path other : Path) : Path :=
  if other.isAbsolute then other else ⟨path.root, path.parts ++ other.parts⟩

instance : Append Path := ⟨append⟩

/-- How many bytes a name may have. -/
def nameLimit : Nat := 255

/-- Whether a part has more bytes than a name may have. -/
def isTooLong (part : String) : Bool :=
  nameLimit < part.utf8ByteSize

/-- Whether the parts may be names at all: none holds a null character. -/
def isNameable (path : Path) : Bool :=
  path.parts.all fun part => !part.toList.contains '\x00'

/-- The root and the parts, by which paths are ordered. -/
def components (path : Path) : List String :=
  if path.root.isEmpty then path.parts else path.root :: path.parts

/-- The parts without those that go up and those they take back. -/
def collapse (parts : List String) : List String :=
  (parts.foldl (fun reversed part =>
    if part = ".." then reversed.drop 1 else part :: reversed) []).reverse

end Path

end RequestShapes.Files
