import RequestShapes.Schema.Basic
import RequestShapes.Text.Search

/-!
# References to definitions

A schema refers to one of its own definitions by a path that begins with
`#/definitions/`. References can be listed, renamed, and replaced by markers
that carry the name of the constant they stand for. All of this looks at every
object and array inside of a node, whatever its role.
-/

namespace RequestShapes.Schema

/-- How the path of a reference to a definition begins. -/
def definitionsPath : String := "#/definitions/"

/-- How the text of a marker begins. -/
def markerLead : String := "__REF__"

/-- The name behind the path of a reference to a definition. -/
def nameOfPath? (path : String) : Option String :=
  (Text.after? definitionsPath.toList path.toList).map String.ofList

/-- The definition that a node refers to. -/
def target? (node : Json) : Option String :=
  match node.get? "$ref" with
  | some (.str path) => nameOfPath? path
  | _ => none

/-- The node that refers to a definition and says nothing else. -/
def refTo (name : String) : Json :=
  .obj [("$ref", .str (definitionsPath ++ name))]

mutual

/-- The definitions that a node and all inside of it refer to, in order. -/
def targets : Json → List String
  | .obj members => (target? (.obj members)).toList ++ memberTargets members
  | .arr items => itemTargets items
  | _ => []

/-- The definitions that items refer to. -/
def itemTargets : List Json → List String
  | [] => []
  | item :: items => targets item ++ itemTargets items

/-- The definitions that the values of members refer to. -/
def memberTargets : List (String × Json) → List String
  | [] => []
  | (_, value) :: members => targets value ++ memberTargets members

end

mutual

/-- Let every reference to one definition refer to another one. -/
def retarget (old new : String) : Json → Json
  | .obj members =>
      let renamed := .obj (retargetMembers old new members)
      if target? (.obj members) = some old then
        renamed.set "$ref" (.str (definitionsPath ++ new))
      else renamed
  | .arr items => .arr (retargetItems old new items)
  | scalar => scalar

/-- Retarget every item. -/
def retargetItems (old new : String) : List Json → List Json
  | [] => []
  | item :: items => retarget old new item :: retargetItems old new items

/-- Retarget the value of every member. -/
def retargetMembers (old new : String) : List (String × Json) → List (String × Json)
  | [] => []
  | (name, value) :: members =>
      (name, retarget old new value) :: retargetMembers old new members

end

mutual

/-- Replace references to named definitions by markers: a constant text that
names the schema constant of the definition. What else a marked node holds
stays as it is. -/
def mark (constants : Table String) : Json → Json
  | .obj members =>
      match (target? (.obj members)).bind (Table.get? constants) with
      | some name => ((Json.obj members).erase "$ref").set "const" (.str (markerLead ++ name))
      | none => .obj (markMembers constants members)
  | .arr items => .arr (markItems constants items)
  | scalar => scalar

/-- Mark every item. -/
def markItems (constants : Table String) : List Json → List Json
  | [] => []
  | item :: items => mark constants item :: markItems constants items

/-- Mark the value of every member. -/
def markMembers (constants : Table String) : List (String × Json) → List (String × Json)
  | [] => []
  | (name, value) :: members => (name, mark constants value) :: markMembers constants members

end

/-- The definitions of a draft; none if it has no table of them. -/
def definitionsOf (draft : Json) : Table Json :=
  ((draft.get? "definitions").map Json.members).getD []

/-- The members by which a definition overrides those of the root; an empty
text or array has none. -/
def overriding? : Json → Option (List (String × Json))
  | .obj members => some members
  | .arr [] | .str "" => some []
  | _ => none

/-- A draft whose root refers to one of its definitions is replaced by that
definition, which overrides the other members of the root and leaves the
table. -/
def inlineRoot (draft : Json) : Except Fault Json :=
  let definitions := definitionsOf draft
  match target? draft with
  | none => .ok draft
  | some target =>
      match Table.get? definitions target with
      | none => .ok draft
      | some definition =>
          match overriding? definition with
          | none => .error .misfit
          | some members =>
              let rest := ((draft.erase "$ref").erase "definitions").members
              .ok ((Json.obj (Table.update rest members)).set "definitions"
                (.obj (Table.erase definitions target)))

end RequestShapes.Schema
