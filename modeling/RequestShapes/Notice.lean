import RequestShapes.Endpoint.Problem
import RequestShapes.Files.Path
import RequestShapes.Request.Collection

/-!
# Notices

What a run tells its user, and whether it says so as a result or as a warning.
-/

namespace RequestShapes

open Files (Path)

/-- A line told to the user. -/
inductive Notice where
  /-- So many documents are in a collection. -/
  | found (count : Nat) (collection : Path)
  | noDocuments
  | noCollection (collection : Path)
  | parsed (path : Path)
  /-- A file yields no document and is passed over. -/
  | skipped (path : Path) (fault : Request.Fault)
  /-- The text of a module is inconsistent. -/
  | inconsistent (filename : String) (problem : Endpoint.Problem)
  | created (path : Path)
  /-- So many endpoints have modules, with so many declarations. -/
  | documented (endpoints declarations : Nat)
  /-- A document as a text. -/
  | shown (text : String)
deriving DecidableEq

namespace Notice

/-- The wording of a notice. -/
def text : Notice → String
  | found count collection => s!"Found {count} .bru files in {collection.toString}."
  | noDocuments => "No .bru files found."
  | noCollection collection => "Input directory does not exist: " ++ collection.toString
  | parsed path => "  Parsed " ++ path.toString
  | skipped path fault => "Error parsing " ++ path.toString ++ ": " ++ fault.message
  | inconsistent filename problem => "  Warning: " ++ filename ++ ": " ++ problem.message
  | created path => "  Created " ++ path.toString
  | documented endpoints declarations =>
      s!"Documented {endpoints} endpoints and created {declarations} schemas."
  | shown text => text

/-- Whether a notice tells of something wrong. -/
def isWarning : Notice → Bool
  | noCollection _ | skipped _ _ | inconsistent _ _ => true
  | _ => false

/-- The lines of notices, each with its end. -/
def lines (notices : List Notice) : String :=
  String.join (notices.map fun notice => notice.text ++ "\n")

end Notice

end RequestShapes
