import RequestShapes.Proofs.Files.Writing

/-!
# Preparing a directory

Following a path that exists and making one that does not lead to the same
place. Making a directory adds what is missing on the way and nothing else, and
emptying it takes away what is below it and nothing else.
-/

namespace RequestShapes.Files

/-! ## Ways -/

/-- Where one part of a path leads from a place. -/
def Location.step (place : Location) (part : String) : Location :=
  if part = ".." then place.dropLast else place ++ [part]

/-- Where parts lead from a place, whether or not anything stands there. -/
def Location.follow (place : Location) (parts : List String) : Location :=
  parts.foldl Location.step place

/-- The places that parts lead through from a place, which itself does not
count. -/
def Location.way (place : Location) : List String → List Location
  | [] => []
  | part :: parts => Location.step place part :: Location.way (Location.step place part) parts

/-- The places that a path leads through. -/
def Tree.way (tree : Tree) (path : Path) : List Location :=
  Location.way (tree.origin path) path.parts

namespace Tree

variable {tree later : Tree}

/-- What the making of directories puts at a place. -/
def made (way : List Location) (place : Location) : Option Entry :=
  if place ∈ way then some .directory else none

end Tree

end RequestShapes.Files
