import RequestShapes.Files.Tree

/-!
# Changes between trees

What has to be done to turn one tree into another: things are removed from
below, directories are made from above, and files are written last.
-/

namespace RequestShapes.Files

/-- One step in changing a tree. -/
inductive Change where
  | removeFile (place : Location)
  | removeDirectory (place : Location)
  | makeDirectory (place : Location)
  | writeFile (place : Location) (bytes : ByteArray)
deriving DecidableEq

/-- The removal of what stands at a place. -/
def Change.removal : Location × Entry → Change
  | (place, .directory) => .removeDirectory place
  | (place, .file _) => .removeFile place

/-- The making of what stands at a place. -/
def Change.making : Location × Entry → Change
  | (place, .directory) => .makeDirectory place
  | (place, .file bytes) => .writeFile place bytes

/-- The steps from one tree to another. -/
def Tree.changes (before after : Tree) : List Change :=
  let byDepth := fun (first second : Location × Entry) =>
    decide (first.1.length ≤ second.1.length)
  let removed := before.entries.filter fun (place, _) => (after.get? place).isNone
  let made := after.entries.filter fun (place, entry) => before.get? place ≠ some entry
  ((removed.mergeSort byDepth).reverse.map Change.removal) ++
    (made.mergeSort byDepth).map Change.making

end RequestShapes.Files
