import RequestShapes.Identifier
import RequestShapes.Schema.FreshName
import RequestShapes.Schema.Merge
import RequestShapes.Schema.Reference

/-!
# Lifting nested shapes into definitions

Every object, array and array item below the root of a draft gets a definition
of its own, named by the way to it: the element of `posts` under `GetPostsBody`
is `GetPostsBodyPostsItem`. Definitions of the draft are copied on every way
that meets them; nothing is shared. A definition that is met while it is being
copied refers back to the name it has on that way. References that stand where
no way leads, such as inside alternatives, keep their definitions, which are
taken over last.

A definition under copy is no longer open, so every way ends, unless it goes
round through array definitions alone, which are never closed. The number of
array definitions that may follow one another bounds that case.
-/

namespace RequestShapes.Schema

/-- What is known on the way to a node. -/
structure Scope where
  /-- Names that no definition may take. -/
  reserved : List String
  /-- The definitions under copy, with the names they have on this way. -/
  copying : Table String
  /-- The definitions that may still be copied. -/
  pending : Table Json
  /-- How many array definitions may follow one another. -/
  limit : Nat
  /-- How many more array definitions may follow here. -/
  hops : Nat

/-- The scope at the root. -/
def Scope.initial (reserved : List String) (source : Table Json) : Scope :=
  ⟨reserved, [], source, source.length, source.length⟩

/-- The name that a definition asked for under `path` gets. -/
def Scope.freshFor (scope : Scope) (definitions : Table Json) (path : String) : String :=
  freshName (Table.names definitions ++ scope.reserved) path

/-- Whether a node is an array schema. -/
def isArray (node : Json) : Bool :=
  node.get? "type" = some (.str "array")

/-- Whether a node is an object schema with properties. -/
def isRecord (node : Json) : Bool :=
  node.get? "type" = some (.str "object") && node.has "properties"

/-- The name of the definition under copy that a node refers to. -/
def Scope.copied? (scope : Scope) (node : Json) : Option String :=
  (target? node).bind (Table.get? scope.copying)

/-- The open definition that a node refers to. -/
def Scope.pending? (scope : Scope) (node : Json) :
    Option { target // target ∈ Table.names scope.pending } :=
  match target? node with
  | none => none
  | some target =>
      if h : target ∈ Table.names scope.pending then some ⟨target, h⟩ else none

/-- The order in which ways come to an end: fewer open definitions, fewer array
definitions to follow, a smaller node, a later step on it. -/
abbrev Way := Nat × Nat × Nat × Nat

/-- Fewer definitions are open. -/
theorem copy_lt {a a' b b' c c' d d' : Nat} (h : a < a') :
    (Prod.Lex (· < ·) (Prod.Lex (· < ·) (Prod.Lex (· < ·) (· < ·))))
      ((a, b, c, d) : Way) ((a', b', c', d') : Way) :=
  Prod.Lex.left _ _ h

/-- Fewer array definitions may follow. -/
theorem hop_lt {a b b' c c' d d' : Nat} (h : b < b') :
    (Prod.Lex (· < ·) (Prod.Lex (· < ·) (Prod.Lex (· < ·) (· < ·))))
      ((a, b, c, d) : Way) ((a, b', c', d') : Way) :=
  Prod.Lex.right _ (Prod.Lex.left _ _ h)

/-- The node is smaller. -/
theorem inner_lt {a b c c' d d' : Nat} (h : c < c') :
    (Prod.Lex (· < ·) (Prod.Lex (· < ·) (Prod.Lex (· < ·) (· < ·))))
      ((a, b, c, d) : Way) ((a, b, c', d') : Way) :=
  Prod.Lex.right _ (Prod.Lex.right _ (Prod.Lex.left _ _ h))

/-- The step on the same node is a later one. -/
theorem step_lt {a b c d d' : Nat} (h : d < d') :
    (Prod.Lex (· < ·) (Prod.Lex (· < ·) (Prod.Lex (· < ·) (· < ·))))
      ((a, b, c, d) : Way) ((a, b, c, d') : Way) :=
  Prod.Lex.right _ (Prod.Lex.right _ (Prod.Lex.right _ h))

mutual

/-- Lift the properties of a node, which stands at `path`. -/
def liftProperties (scope : Scope) (definitions : Table Json) (node : Json) (path : String) :
    Except Fault (Json × Table Json) :=
  match _h : node.get? "properties" with
  | some (.obj members) => do
      let (members, definitions) ← liftMembers scope definitions members path
      .ok (node.set "properties" (.obj members), definitions)
  | _ => .ok (node, definitions)
termination_by (scope.pending.length, scope.hops, sizeOf node, 0)
decreasing_by
  have hlt := Json.sizeOf_get?_lt _h
  simp only [Json.obj.sizeOf_spec] at hlt
  exact inner_lt (by omega)

/-- Lift properties one after the other. -/
def liftMembers (scope : Scope) (definitions : Table Json) (members : List (String × Json))
    (path : String) : Except Fault (List (String × Json) × Table Json) :=
  match members with
  | [] => .ok ([], definitions)
  | (name, value) :: rest => do
      let (value, definitions) ←
        liftProperty scope definitions value (path ++ Identifier.pascalCase name)
      let (rest, definitions) ← liftMembers scope definitions rest path
      .ok ((name, value) :: rest, definitions)
termination_by (scope.pending.length, scope.hops, sizeOf members, 0)
decreasing_by
  · exact inner_lt (by simp only [List.cons.sizeOf_spec, Prod.mk.sizeOf_spec]; omega)
  · exact inner_lt (by simp only [List.cons.sizeOf_spec]; omega)

/-- Lift the value of one property. -/
def liftProperty (scope : Scope) (definitions : Table Json) (node : Json) (path : String) :
    Except Fault (Json × Table Json) :=
  if isArray node then liftArray scope definitions node path
  else if isRecord node then liftRecord scope definitions node path
  else match scope.copied? node with
    | some name => .ok (refTo name, definitions)
    | none =>
        match scope.pending? node with
        | some target => liftDefinition scope definitions target path
        | none => .ok (node, definitions)
termination_by (scope.pending.length, scope.hops, sizeOf node, 2)
decreasing_by
  · exact step_lt (by omega)
  · exact step_lt (by omega)
  · exact inner_lt (Json.sizeOf_pos node)

/-- Give a node a definition and lift what is inside of it. -/
def liftRecord (scope : Scope) (definitions : Table Json) (node : Json) (path : String) :
    Except Fault (Json × Table Json) := do
  let name := scope.freshFor definitions path
  let (lifted, definitions) ← liftProperties scope (Table.set definitions name node) node name
  .ok (refTo name, Table.set definitions name lifted)
termination_by (scope.pending.length, scope.hops, sizeOf node, 1)
decreasing_by
  exact step_lt (by omega)

/-- Give an array a definition, after that of its items. -/
def liftArray (scope : Scope) (definitions : Table Json) (node : Json) (path : String) :
    Except Fault (Json × Table Json) := do
  let (items, definitions) ←
    match _h : Json.filled? (node.get? "items") with
    | some items => liftItem scope definitions items (path ++ "Item")
    | none => do
        let name := scope.freshFor definitions (path ++ "Item")
        .ok (refTo name, Table.set definitions name .empty)
  let name := scope.freshFor definitions path
  .ok (refTo name, Table.set definitions name ((node.erase "items").set "items" items))
termination_by (scope.pending.length, scope.hops, sizeOf node, 1)
decreasing_by
  exact inner_lt (Json.sizeOf_get?_lt (Json.get?_of_filled? _h))

/-- Lift the items of an array. Unlike a property they always get a
definition. -/
def liftItem (scope : Scope) (definitions : Table Json) (node : Json) (path : String) :
    Except Fault (Json × Table Json) :=
  if !node.isObject then .error .noObject
  else if isArray node then liftArray scope definitions node path
  else match scope.copied? node with
    | some name => .ok (refTo name, definitions)
    | none =>
        match scope.pending? node with
        | some target => liftDefinition scope definitions target path
        | none => liftRecord scope definitions node path
termination_by (scope.pending.length, scope.hops, sizeOf node, 2)
decreasing_by
  · exact step_lt (by omega)
  · exact inner_lt (Json.sizeOf_pos node)
  · exact step_lt (by omega)

/-- Copy an open definition under the name of the way that meets it. -/
def liftDefinition (scope : Scope) (definitions : Table Json)
    (target : { target // target ∈ Table.names scope.pending }) (path : String) :
    Except Fault (Json × Table Json) :=
  match Table.get? scope.pending target with
  | none => .error (.missing target)
  | some node =>
      if !node.isObject then .error .noObject
      else if isArray node then
        match _hhops : scope.hops with
        | 0 => .error .endless
        | hops + 1 => liftArray { scope with hops := hops } definitions node path
      else
        let name := scope.freshFor definitions path
        let inner := { scope with
          copying := Table.set scope.copying target name
          pending := Table.erase scope.pending target
          hops := scope.limit }
        do
          let (lifted, definitions) ←
            liftProperties inner (Table.set definitions name node) node name
          .ok (refTo name, Table.set definitions name lifted)
termination_by (scope.pending.length, scope.hops, 0, 0)
decreasing_by
  · exact hop_lt (by omega)
  · exact copy_lt (Table.length_erase_lt target.property)

end

/-- Lift what is below the root of a draft, which stands for itself. -/
def liftRoot (scope : Scope) (root : Json) (path : String) :
    Except Fault (Json × Table Json) :=
  if isArray root then do
    let (items, definitions) ←
      liftItem scope [] ((Json.filled? (root.get? "items")).getD .empty) (path ++ "Item")
    .ok (root.set "items" items, definitions)
  else liftProperties scope [] root path

/-- The first definition of the draft that is referred to and not yet there. -/
def missing? (source : Table Json) (root : Json) (definitions : Table Json) :
    Option (String × Json) :=
  ((root :: definitions.map Prod.snd).flatMap targets).findSome? fun target =>
    if Table.has definitions target then none
    else (Table.get? source target).map fun node => (target, node)

/-- Take over a definition of the draft. If its name is taken it gets a fresh
one, and all references follow it. -/
def adoptOne (scope : Scope) (root : Json) (definitions : Table Json) (target : String)
    (node : Json) : Except Fault (Json × Table Json) := do
  unless node.isObject do throw .noObject
  let name := scope.freshFor definitions target
  let node := retarget target name node
  let definitions := Table.set (definitions.map fun (key, other) =>
    (key, retarget target name other)) name node
  let (lifted, definitions) ← liftProperties scope definitions node name
  .ok (retarget target name root, Table.set definitions name lifted)

/-- Take over definitions of the draft that are still referred to, one after
the other. Fuel counts definitions taken over. -/
def adopt (scope : Scope) : Nat → Json → Table Json → Except Fault (Json × Table Json)
  | 0, root, definitions =>
      if (missing? scope.pending root definitions).isNone then .ok (root, definitions)
      else .error .endless
  | fuel + 1, root, definitions =>
      match missing? scope.pending root definitions with
      | none => .ok (root, definitions)
      | some (target, node) => do
          let (root, definitions) ← adoptOne scope root definitions target node
          adopt scope fuel root definitions

/-- How many definitions may have to be taken over, if that ends at all. Every
one belongs to a chain of references, as long as there are definitions at most
and with one of all the references at each step. Only a definition that is taken
over under the name of another one starts new chains. It gets such a name once if
its own is free, and else its number is one that fits into the name. -/
def adoptionBound (draft : Json) : Nat :=
  let names := Table.names (definitionsOf draft)
  let longest := (names.map String.length).foldl max 0
  Nat.pow ((targets draft).length + 1) (names.length + 2) *
    ((names.length + 1) * (Nat.pow 10 longest + 1))

/-- The draft with every nested shape in a definition of its own. Definitions
that nothing refers to are dropped. No definition is named like the root or
like one of the reserved names; where ways ask for one name, the later ones
are numbered. -/
def lift (draft : Json) (rootName : String) (reserved : List String) : Except Fault Json := do
  unless draft.isObject do throw .noObject
  let scope := Scope.initial (rootName :: reserved) (definitionsOf draft)
  let (root, definitions) ← liftRoot scope (draft.erase "definitions") rootName
  let (root, definitions) ← adopt scope (adoptionBound draft) root definitions
  .ok (root.set "definitions" (.obj definitions))

/-- The schema constants of definitions. -/
def constantsOf (definitions : Table Json) : Table String :=
  definitions.map fun (name, _) =>
    (name, Identifier.schemaConstant (Identifier.pascalCase name))

end RequestShapes.Schema
