import RequestShapes.Yaml.Graph
import RequestShapes.Yaml.Value

/-!
# Documents

A document is valued from its root on. A text is valued at once; a collection
is valued by its kind, and its members wait until those of all collections met
before it are valued. Hence a fault in a member may come after one further on
in the text, and a collection may hold itself.
-/

namespace RequestShapes.Yaml

/-- What a settings text holds: a value and, if that is a table, its entries in
order. A key may occur again. -/
structure Document where
  value : Value
  entries : List (Value × Value)

/-- What is known in the middle of a valuation. -/
structure Valuation where
  graph : Graph
  /-- The value of each node, if it is known. -/
  values : Array (Option Value)
  /-- The collections whose members wait, the next one first. -/
  waiting : List Nat

namespace Valuation

/-- The valuation of a graph before its root. -/
def start (graph : Graph) : Valuation :=
  ⟨graph, Array.replicate graph.size none, []⟩

/-- The known value of a node. -/
def value? (valuation : Valuation) (number : Nat) : Option Value :=
  valuation.values.getD number none

/-- The valuation in which a node has a value. -/
def know (valuation : Valuation) (number : Nat) (value : Value) : Valuation :=
  { valuation with values := valuation.values.setIfInBounds number (some value) }

/-- The value of a collection; nothing for other meanings. -/
def collection? : Meaning → Option Value
  | .seq | .pairs => some .list
  | .map => some .table
  | .set => some .set
  | _ => none

/-- The value of a node that holds a text. Other nodes may have a text as well,
but it is no date. -/
def textValue (graph : Graph) (number : Nat) : Except Fault Value :=
  let node := graph.node number
  if node.meaning ∈ [.unknown, .merge, .value] then .error .malformed
  else do
    let text ← graph.text number
    match node.meaning, node.content with
    | .timestamp, .mapping _ => .error .mappedDate
    | meaning, _ => Value.ofText text meaning

/-- Value a node. The members of a collection wait. -/
def visit (valuation : Valuation) (number : Nat) : Except Fault (Value × Valuation) :=
  match valuation.value? number, collection? (valuation.graph.meaning number) with
  | some value, _ => .ok (value, valuation)
  | none, some value =>
      .ok (value,
        { valuation.know number value with waiting := valuation.waiting ++ [number] })
  | none, none =>
      (textValue valuation.graph number).map fun value => (value, valuation.know number value)

/-- Value a node whose value is not asked for. -/
def visitAlso (valuation : Valuation) (number : Nat) : Except Fault Valuation :=
  (valuation.visit number).map Prod.snd

/-- Value a key and the value under it. -/
def visitEntry (valuation : Valuation) (entry : Nat × Nat) : Except Fault Valuation := do
  let (key, valuation) ← valuation.visit entry.1
  if key.isKey then valuation.visitAlso entry.2 else .error .malformed

/-- Value the one entry of a mapping that is a pair. Any value may be a key of
it. -/
def visitPair (valuation : Valuation) (number : Nat) : Except Fault Valuation := do
  match (valuation.graph.node number).content with
  | .mapping [(key, value)] => (← valuation.visitAlso key).visitAlso value
  | _ => .error .malformed

/-- Value the members of a collection. A mapping merges others first. -/
def visitMembers (valuation : Valuation) (number : Nat) : Except Fault Valuation := do
  let node := valuation.graph.node number
  match node.meaning, node.content with
  | .seq, .sequence items => items.foldlM visitAlso valuation
  | .pairs, .sequence items => items.foldlM visitPair valuation
  | .map, .mapping _ | .set, .mapping _ =>
      let graph ← valuation.graph.merge number
      (graph.entries number).foldlM visitEntry { valuation with graph }
  | _, _ => .error .malformed

/-- Value the members of the collections that wait. Fuel counts collections. -/
def finish : Nat → Valuation → Except Fault Valuation
  | 0, valuation => .ok valuation
  | fuel + 1, valuation => do
      match valuation.waiting with
      | [] => .ok valuation
      | number :: waiting =>
          finish fuel (← visitMembers { valuation with waiting } number)

end Valuation

namespace Document

/-- The document of a graph. Every node waits at most once. -/
def ofGraph (rooted : RootedGraph) : Except Fault Document := do
  let (value, valuation) ← (Valuation.start rooted.graph).visit rooted.root
  let valuation ← valuation.finish rooted.graph.size
  let known := fun number => (valuation.value? number).getD .null
  let entries := if value = .table then valuation.graph.entries rooted.root else []
  .ok ⟨value, entries.map fun (key, value) => (known key, known value)⟩

/-- The document of a text, if it holds one. -/
def parse (text : List Char) : Except Fault (Option Document) := do
  match ← RootedGraph.ofTokens? (tokens text) with
  | some rooted => (ofGraph rooted).map some
  | none => .ok none

end Document

end RequestShapes.Yaml
