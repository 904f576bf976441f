import RequestShapes.Command.Run
import RequestShapes.Files.Change

/-!
# Command line

The part of the disk that a command works on is read as a tree of files, the
command is run on it, and what it changed is written back.
-/

namespace RequestShapes.CommandLine

open Files (Change Entry Location Path Tree)

/-- The text of a place. -/
def placeText (place : Location) : String :=
  ({ root := "/", parts := place } : Path).toString

/-- The places on the way from the root down to a place, which is the last of
them. -/
def wayTo (place : Location) : List Location :=
  (List.range place.length).map fun count => place.take (count + 1)

/-- What is on the disk at a place and, if asked for, below it. -/
partial def entriesAt (deep : Bool) (place : Location) : IO (List (Location × Entry)) := do
  match ← (IO.FS.realPath (placeText place)).toBaseIO with
  | .error _ => return []
  | .ok path =>
      if ← path.isDir then
        let children ← if deep then path.readDir else pure #[]
        let below ← children.toList.mapM fun child => entriesAt deep (place ++ [child.fileName])
        return (place, .directory) :: below.flatten
      else return [(place, .file (← IO.FS.readBinFile path))]

/-- A tree with everything on the disk above and below some paths. -/
def readTree (here : Location) (paths : List Path) : IO Tree := do
  let mut tree := Tree.bare here
  for path in paths do
    let place := (tree.resolve path).parts
    for above in wayTo place do
      for (place, entry) in ← entriesAt (above = place) above do
        tree := tree.insert place entry
  return tree

/-- The paths that a command works on. -/
def pathsOf : Command → List Path
  | .generate options => [options.input, options.output] ++ options.settings.toList
  | .inspect path => [path]
  | .help => []

/-- Carry out one change. -/
def carryOut : Change → IO Unit
  | .removeFile place => IO.FS.removeFile (placeText place)
  | .removeDirectory place => IO.FS.removeDir (placeText place)
  | .makeDirectory place => IO.FS.createDir (placeText place)
  | .writeFile place bytes => IO.FS.writeBinFile (placeText place) bytes

/-- Tell the user what a command has to say. -/
def tell (notices : List Notice) : IO Unit := do
  for notice in notices do
    if notice.isWarning then IO.eprintln notice.text else IO.println notice.text

/-- The words for an ending that is no success. -/
def complaint? : Command.Ending → Option String
  | .misused fault => some (Command.usage ++ "\n\nError: " ++ fault.message)
  | .failed fault => some fault.message
  | .finished | .refused => none

end RequestShapes.CommandLine

open RequestShapes RequestShapes.CommandLine in
/-- Run a command on the disk. -/
def main (arguments : List String) : IO UInt32 := do
  let here := (Files.Path.ofString (← IO.currentDir).toString).parts
  let paths := ((Command.parse arguments).toOption.map pathsOf).getD []
  let tree ← readTree here paths
  let outcome := Command.run tree arguments
  (tree.changes outcome.tree).forM carryOut
  tell outcome.notices
  if let some text := complaint? outcome.ending then IO.eprintln text
  return outcome.ending.exitCode.toUInt32
