import RequestShapes.Files.Path

/-!
# Trees of files

A tree says what stands at every place below the root: a directory, a file with
its bytes, or nothing. Paths that do not begin at the root begin at the current
directory. Following a path needs a directory at every step but the last, and
a step up leads to the directory before. No name may be too long, whether or
not something stands there.
-/

namespace RequestShapes.Files

/-- A place in a tree: the names from the root down. -/
abbrev Location := List String

/-- Contents are compared byte by byte. -/
instance (priority := high) decidableEqContent : DecidableEq ByteArray := ByteArray.instDecidableEq

/-- What stands at a place. -/
inductive Entry where
  | directory
  | file (bytes : ByteArray)
deriving DecidableEq

/-- Why something cannot be done with a tree. -/
inductive Fault where
  /-- Nothing stands at the place. -/
  | missing
  /-- A file stands where a directory is needed. -/
  | notDirectory
  /-- A directory stands where a file is needed. -/
  | isDirectory
  /-- A file stands where a directory is to be made. -/
  | occupied
  /-- A name has more bytes than a name may have. -/
  | tooLong
  /-- A name holds a null character. -/
  | unnameable
deriving DecidableEq, Repr

/-- The wording of a fault. -/
def Fault.message : Fault → String
  | missing => "No such file or directory"
  | notDirectory => "Not a directory"
  | isDirectory => "Is a directory"
  | occupied => "File exists"
  | tooLong => "File name too long"
  | unnameable => "A name holds a null character"

/-- A tree of files: the current directory, and the places where something
stands, each once. -/
structure Tree where
  here : Location
  entries : List (Location × Entry)
  distinct : (entries.map Prod.fst).Nodup

namespace Tree

/-- A tree with nothing but its current directory. -/
def bare (here : Location) : Tree where
  here := here
  entries := [(here, .directory)]
  distinct := by simp

/-- What stands at a place. The root is a directory. -/
def get? (tree : Tree) (place : Location) : Option Entry :=
  if place = [] then some .directory
  else (tree.entries.find? fun entry => entry.1 = place).map Prod.snd

/-- The tree with only the places that pass a test. -/
def restrict (tree : Tree) (holds : Location → Bool) : Tree where
  here := tree.here
  entries := tree.entries.filter fun entry => holds entry.1
  distinct := (List.filter_sublist.map Prod.fst).nodup tree.distinct

/-- The tree with an entry at a place, whatever stood there. -/
def insert (tree : Tree) (place : Location) (entry : Entry) : Tree where
  here := tree.here
  entries := (tree.restrict (· ≠ place)).entries ++ [(place, entry)]
  distinct := by
    rw [List.map_append, List.nodup_append]
    refine ⟨(tree.restrict (· ≠ place)).distinct, by simp, ?_⟩
    intro other hother last hlast
    obtain ⟨⟨_, _⟩, hmem, rfl⟩ := List.mem_map.mp hother
    simp only [restrict, List.mem_filter, decide_eq_true_eq] at hmem
    simp only [List.map_cons, List.map_nil, List.mem_singleton] at hlast
    exact hlast ▸ hmem.2

/-- Whether a place lies strictly below another one. -/
def isBelow (place other : Location) : Bool :=
  place.isPrefixOf other && place.length < other.length

/-- The tree with nothing below a place. -/
def clear (tree : Tree) (place : Location) : Tree :=
  tree.restrict fun other => !isBelow place other

/-- What stands at a place after an entry was put there. -/
@[simp] theorem get?_insert_self (tree : Tree) {place : Location} (entry : Entry)
    (hplace : place ≠ []) : (tree.insert place entry).get? place = some entry := by
  have hnone : tree.entries.find? (fun _ => false) = none := List.find?_eq_none.mpr (by simp)
  simp [get?, insert, restrict, hplace, List.find?_append, List.find?_filter, hnone]

/-- Putting an entry at one place leaves every other place alone. -/
theorem get?_insert_of_ne (tree : Tree) {place other : Location} (entry : Entry)
    (hne : other ≠ place) : (tree.insert place entry).get? other = tree.get? other := by
  simp only [get?, insert, restrict, List.find?_append, List.find?_filter]
  congr 2
  have hcongr : (fun entry : Location × Entry =>
      decide (decide (entry.1 ≠ place) = true ∧ decide (entry.1 = other) = true)) =
      fun entry => decide (entry.1 = other) := by
    funext entry
    simp only [decide_eq_true_eq, decide_eq_decide]
    exact ⟨fun h => h.2, fun h => ⟨h ▸ hne, h⟩⟩
  simp only [hcongr]
  simp [Ne.symm hne]

/-- Where a path leads from a place. -/
def walk (tree : Tree) (place : Location) : List String → Except Fault Location
  | [] => .ok place
  | part :: parts =>
      match tree.get? place with
      | none => .error .missing
      | some (.file _) => .error .notDirectory
      | some .directory =>
          if Path.isTooLong part then .error .tooLong
          else tree.walk (if part = ".." then place.dropLast else place ++ [part]) parts

/-- Where a path begins. -/
def origin (tree : Tree) (path : Path) : Location :=
  if path.isAbsolute then [] else tree.here

/-- Where a path leads. Something or nothing may stand there. -/
def locate (tree : Tree) (path : Path) : Except Fault Location :=
  if path.isNameable then tree.walk (tree.origin path) path.parts else .error .unnameable

/-- What stands where a path leads; nothing if it leads nowhere. Only a name
that is too long leaves the question open. -/
def at? (tree : Tree) (path : Path) : Except Fault (Option Entry) :=
  match tree.locate path with
  | .ok place => .ok (tree.get? place)
  | .error .tooLong => .error .tooLong
  | .error _ => .ok none

/-- The bytes of a file. -/
def read (tree : Tree) (path : Path) : Except Fault ByteArray := do
  match tree.get? (← tree.locate path) with
  | some (.file bytes) => .ok bytes
  | some .directory => .error .isDirectory
  | none => .error .missing

/-- Write a file into a directory that is there. -/
def write (tree : Tree) (path : Path) (bytes : ByteArray) : Except Fault Tree := do
  let place ← tree.locate path
  if tree.get? place = some .directory then .error .isDirectory
  else .ok (tree.insert place (.file bytes))

/-- Make directories from a place on. -/
def makeFrom (tree : Tree) (place : Location) : List String → Except Fault Tree
  | [] => .ok tree
  | part :: parts =>
      let next := if part = ".." then place.dropLast else place ++ [part]
      if Path.isTooLong part then .error .tooLong
      else match tree.get? next with
        | some .directory => tree.makeFrom next parts
        | some (.file _) => .error (if parts.isEmpty then .occupied else .notDirectory)
        | none => (tree.insert next .directory).makeFrom next parts

/-- Make a directory and those above it, unless they are there. -/
def makeDirectory (tree : Tree) (path : Path) : Except Fault Tree :=
  if path.isNameable then tree.makeFrom (tree.origin path) path.parts else .error .unnameable

/-- Make a directory for output, and remove everything in it unless it is to be
kept. -/
def prepare (tree : Tree) (path : Path) (keep : Bool) : Except Fault Tree := do
  let tree ← tree.makeDirectory path
  if keep then .ok tree else .ok (tree.clear (← tree.locate path))

/-- Everything below a directory, by paths that begin with the given one. -/
def below (tree : Tree) (path : Path) : List (Path × Entry) :=
  match tree.locate path with
  | .error _ => []
  | .ok place =>
      (tree.entries.filter fun entry => isBelow place entry.1).map fun (other, entry) =>
        (⟨path.root, path.parts ++ other.drop place.length⟩, entry)

/-- The path from the root that a path means, without steps up. -/
def resolve (tree : Tree) (path : Path) : Path :=
  ⟨"/", Path.collapse (tree.origin path ++ path.parts)⟩

end Tree

end RequestShapes.Files
