import RequestShapes.Yaml.Meaning

/-!
# Nodes of a settings text

A text is a graph of nodes: texts, sequences and mappings. Nodes are named by
their numbers, since an alias may name a node again, even inside of itself.
-/

namespace RequestShapes.Yaml

/-- What a node holds. Members are given by their numbers. -/
inductive Content where
  | scalar (text : List Char)
  | sequence (items : List Nat)
  | mapping (entries : List (Nat × Nat))
deriving DecidableEq, Repr

/-- A node. -/
structure Node where
  meaning : Meaning
  content : Content
deriving DecidableEq, Repr

/-- The nodes of a text, each at its number. -/
abbrev Graph := Array Node

namespace Graph

/-- The node of a number; an empty one, if there is none. -/
def node (graph : Graph) (number : Nat) : Node :=
  graph.getD number ⟨.null, .scalar []⟩

/-- The meaning of a node. -/
def meaning (graph : Graph) (number : Nat) : Meaning :=
  (graph.node number).meaning

/-- The entries of a mapping; none for any other node. -/
def entries (graph : Graph) (number : Nat) : List (Nat × Nat) :=
  match (graph.node number).content with
  | .mapping entries => entries
  | _ => []

/-- The graph with another content of a node. -/
def setContent (graph : Graph) (number : Nat) (content : Content) : Graph :=
  graph.setIfInBounds number { graph.node number with content }

/-- The graph with another meaning of a node. -/
def setMeaning (graph : Graph) (number : Nat) (meaning : Meaning) : Graph :=
  graph.setIfInBounds number { graph.node number with meaning }

/-- How many entries all mappings have. -/
def entryCount (graph : Graph) : Nat :=
  graph.foldl (fun count node =>
    match node.content with
    | .mapping entries => count + entries.length
    | _ => count) 0

/-- The text of a node, reached in so many steps. A mapping has the text of its
first value whose key asks for it. -/
def textWithin (graph : Graph) : Nat → Nat → Except Fault (List Char)
  | 0, _ => .error .endless
  | steps + 1, number =>
      match (graph.node number).content with
      | .scalar text => .ok text
      | .sequence _ => .error .malformed
      | .mapping entries =>
          match entries.find? fun (key, _) => graph.meaning key = .value with
          | some (_, value) => graph.textWithin steps value
          | none => .error .malformed

/-- The text of a node. It is endless if more steps are needed than there are
nodes. -/
def text (graph : Graph) (number : Nat) : Except Fault (List Char) :=
  graph.textWithin (graph.size + 1) number

/-- The first entry whose key merges what it has for a value: that value, and
the other entries. -/
def takeMerge? (graph : Graph) : List (Nat × Nat) → Option (Nat × List (Nat × Nat))
  | [] => none
  | (key, value) :: entries =>
      if graph.meaning key = .merge then some (value, entries)
      else
        (graph.takeMerge? entries).map fun (merged, others) => (merged, (key, value) :: others)

/-- The graph in which a key that asks for the text of a mapping is a text
itself. -/
def withTextKeys (graph : Graph) (entries : List (Nat × Nat)) : Graph :=
  entries.foldl (fun graph (key, _) =>
    if graph.meaning key = .value then graph.setMeaning key .str else graph) graph

mutual

/-- Take the merging entries off a mapping, one after the other. What they bring
in is collected in order. Fuel counts calls: four at most for every entry. -/
def collectMerged : Nat → Nat → Graph → Except Fault (List (Nat × Nat) × Graph)
  | 0, _, _ => .error .malformed
  | fuel + 1, number, graph =>
      match graph.takeMerge? (graph.entries number) with
      | none => .ok ([], graph)
      | some (source, others) => do
          let (merged, graph) ← mergedEntries fuel source
            (setContent graph number (.mapping others))
          let (more, graph) ← collectMerged fuel number graph
          .ok (merged ++ more, graph)

/-- What a node brings in that is merged: the entries of a mapping, or those of
a sequence of mappings, the last mapping first. -/
def mergedEntries : Nat → Nat → Graph → Except Fault (List (Nat × Nat) × Graph)
  | 0, _, _ => .error .malformed
  | fuel + 1, source, graph =>
      match (graph.node source).content with
      | .scalar _ => .error .malformed
      | .mapping _ => do
          let graph ← mergeWithin fuel source graph
          .ok (entries graph source, graph)
      | .sequence items =>
          items.foldlM (fun (merged, graph) item => do
            match (node graph item).content with
            | .mapping _ =>
                let graph ← mergeWithin fuel item graph
                .ok (entries graph item ++ merged, graph)
            | _ => .error .malformed) ([], graph)

/-- Put the entries that are merged into a mapping in front of its own. -/
def mergeWithin : Nat → Nat → Graph → Except Fault Graph
  | 0, _, _ => .error .malformed
  | fuel + 1, number, graph => do
      let (merged, graph) ← collectMerged fuel number graph
      let own := entries graph number
      .ok (setContent (withTextKeys graph own) number (.mapping (merged ++ own)))

end

/-- The graph in which a mapping merges nothing any more. -/
def merge (graph : Graph) (number : Nat) : Except Fault Graph :=
  mergeWithin (4 * graph.entryCount + 4) number graph

end Graph

end RequestShapes.Yaml
