import RequestShapes.Files.Content
import RequestShapes.Files.Tree
import RequestShapes.Request.Reader

/-!
# Collections of request documents

A collection is a directory; its documents are the files below it whose names
end in the extension of requests, in order of their paths.
-/

namespace RequestShapes.Request

open Files (Path Tree)

/-- Why a file yields no document. -/
inductive Fault where
  | file (fault : Files.Fault)
  | encoding (fault : Text.Utf8Fault)
  | tooManyDigits (refusal : TooManyDigits)
deriving DecidableEq

/-- The wording of a fault. -/
def Fault.message : Fault → String
  | file fault => fault.message
  | encoding fault => fault.message
  | tooManyDigits refusal => refusal.message

/-- The extension of request documents. -/
def extension : String := ".bru"

/-- Whether a path is that of a request document. -/
def hasExtension (path : Path) : Bool :=
  extension.toList.isSuffixOf path.name.toList

/-- Whether an entry is a file. -/
def isFile : Files.Entry → Bool
  | .file _ => true
  | .directory => false

/-- The documents of a collection, in order. What is no directory holds none. -/
def documentPaths (tree : Tree) (collection : Path) : Except Files.Fault (List Path) := do
  match ← tree.at? collection with
  | some .directory =>
      let found := (tree.below collection).filter fun (path, entry) =>
        isFile entry && hasExtension path
      return (found.map Prod.fst).mergeSort fun first second =>
        !second.components.lex first.components
  | _ => return []

/-- The document in a file. -/
def Document.load (tree : Tree) (path : Path) : Except Fault Document := do
  let bytes ← (tree.read path).mapError .file
  let text ← (Files.textOfBytes bytes).mapError .encoding
  (Document.read path text).mapError .tooManyDigits

end RequestShapes.Request
