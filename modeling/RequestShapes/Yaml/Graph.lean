import RequestShapes.Yaml.Layout
import RequestShapes.Yaml.Node

/-!
# From tokens to nodes

The tokens of a text are put together to a graph of nodes with one root. An
alias stands for the node of its anchor, even inside of that node. A text holds
at most one document, and an empty text holds no node.

Where the tokens do not go on as they should, the text is malformed, or it has
the fault that its tokens break off with. Collections may be nested to a bounded
depth.
-/

namespace RequestShapes.Yaml

/-- The fault of tokens that do not go on as they should. -/
def refusal : List Token → Fault
  | .broken fault :: _ => fault
  | _ => .malformed

/-- The handles that need no directive. -/
def standardHandles : Table String :=
  [("!", "!"), ("!!", "tag:yaml.org,2002:")]

/-- The full text of a tag. -/
def fullTag (handles : Table String) : Option Tag → Except Fault (Option String)
  | none => .ok none
  | some ⟨none, suffix⟩ => .ok (some suffix)
  | some ⟨some handle, suffix⟩ =>
      (orMalformed (Table.get? handles handle)).map fun replacement => some (replacement ++ suffix)

/-- What stands before a node. -/
structure Properties where
  anchor : Option String := none
  tag : Option Tag := none

/-- The anchor and the tag at the start of tokens, in either order. After one
of them the next token must be known. -/
def takeProperties : List Token → Except Fault (Properties × List Token)
  | .anchor name :: .tag tag :: tokens => .ok (⟨some name, some tag⟩, tokens)
  | .tag tag :: .anchor name :: tokens => .ok (⟨some name, some tag⟩, tokens)
  | .anchor _ :: .broken fault :: _ | .tag _ :: .broken fault :: _ => .error fault
  | .anchor name :: tokens => .ok (⟨some name, none⟩, tokens)
  | .tag tag :: tokens => .ok (⟨none, some tag⟩, tokens)
  | tokens => .ok ({}, tokens)

/-- How deep collections may be nested. -/
def depthLimit : Nat := 485

/-- What is known in the middle of the tokens: those that are left, the nodes
so far, the numbers of the nodes with an anchor, and how many collections are
open. -/
structure Reading where
  tokens : List Token
  graph : Graph := #[]
  anchors : Table Nat := []
  depth : Nat := 0

namespace Reading

/-- The reading with other tokens left. -/
def goTo (reading : Reading) (tokens : List Token) : Reading :=
  { reading with tokens }

/-- Add a node with its anchor. -/
def add (reading : Reading) (anchor : Option String) (node : Node) : Nat × Reading :=
  let number := reading.graph.size
  (number,
    { reading with
      graph := reading.graph.push node
      anchors := anchor.elim reading.anchors fun name =>
        Table.set reading.anchors name number })

/-- Add a node that is left out. -/
def addAbsent (reading : Reading) : Nat × Reading :=
  reading.add none ⟨.null, .scalar []⟩

/-- Add a collection that is still empty and open. -/
def enter (reading : Reading) (anchor : Option String) (node : Node) :
    Except Fault (Nat × Reading) :=
  if reading.depth < depthLimit then
    .ok ({ reading with depth := reading.depth + 1 }.add anchor node)
  else .error .tooDeep

/-- The reading in which the innermost open collection has its content. -/
def leave (reading : Reading) (number : Nat) (content : Content) : Reading :=
  { reading with
    graph := Graph.setContent reading.graph number content
    depth := reading.depth - 1 }

end Reading

/-- Whether the value or the key of an indented entry is left out. -/
def endsEntry : List Token → Bool
  | .key :: _ | .value :: _ | .blockEnd :: _ => true
  | _ => false

/-- Whether the item of an indented sequence is left out. -/
def endsItem : List Token → Bool
  | .item :: _ => true
  | tokens => endsEntry tokens

/-- The bracket that closes a list or a table. -/
def closing (isList : Bool) : Token :=
  if isList then .listClose else .tableClose

/-- Whether the value of an entry in brackets is left out. -/
def endsPair (isList : Bool) (tokens : List Token) : Bool :=
  tokens.head? = some .comma || tokens.head? = some (closing isList)

/-- The tokens from the next member in brackets or the closing bracket on. A
comma stands between two members and may follow the last. -/
def nextMember (isList isFirst : Bool) (tokens : List Token) : Except Fault (List Token) :=
  match tokens with
  | [] => .error .malformed
  | token :: rest =>
      if isFirst || token = closing isList then .ok (token :: rest)
      else if token = .comma then .ok rest
      else .error (refusal tokens)

/-- The tokens after the end of a block. -/
def afterBlock : List Token → Except Fault (List Token)
  | .blockEnd :: tokens => .ok tokens
  | tokens => .error (refusal tokens)

mutual

/-- Read a node. Only in a block it may be indented, and only after a key or a
value its items may stand as deep as the key. Fuel counts calls; between two
tokens there are at most three. -/
def readNode (handles : Table String) (inBlock afterKey : Bool) :
    Nat → Reading → Except Fault (Nat × Reading)
  | 0, _ => .error .malformed
  | fuel + 1, reading => do
      match reading.tokens with
      | .alias name :: tokens =>
          let number ← orMalformed (Table.get? reading.anchors name)
          .ok (number, reading.goTo tokens)
      | allTokens =>
          let (properties, tokens) ← takeProperties allTokens
          let tag ← fullTag handles properties.tag
          if properties.anchor.any (Table.has reading.anchors) then throw (refusal tokens)
          readContent handles inBlock afterKey properties.anchor tag fuel (reading.goTo tokens)

/-- Read what follows the properties of a node. A node that has some may be
left out. -/
def readContent (handles : Table String) (inBlock afterKey : Bool) (anchor : Option String)
    (tag : Option String) : Nat → Reading → Except Fault (Nat × Reading)
  | 0, _ => .error .malformed
  | fuel + 1, reading => do
      let sequence : Node := ⟨.ofCollection .seq tag, .sequence []⟩
      let mapping : Node := ⟨.ofCollection .map tag, .mapping []⟩
      match inBlock, afterKey, reading.tokens with
      | _, _, .scalar isPlain text :: tokens =>
          .ok ((reading.goTo tokens).add anchor ⟨.ofText tag isPlain text, .scalar text⟩)
      | _, _, .listOpen :: tokens =>
          let (number, reading) ← (reading.goTo tokens).enter anchor sequence
          let (items, reading) ← readListItems handles true fuel reading
          .ok (number, reading.leave number (.sequence items))
      | _, _, .tableOpen :: tokens =>
          let (number, reading) ← (reading.goTo tokens).enter anchor mapping
          let (entries, reading) ← readTableEntries handles true fuel reading
          .ok (number, reading.leave number (.mapping entries))
      | true, true, .item :: _ =>
          let (number, reading) ← reading.enter anchor sequence
          let (items, reading) ← readItems handles fuel reading
          .ok (number, reading.leave number (.sequence items))
      | true, _, .sequenceStart :: tokens =>
          let (number, reading) ← (reading.goTo tokens).enter anchor sequence
          let (items, reading) ← readItems handles fuel reading
          let tokens ← afterBlock reading.tokens
          .ok (number, (reading.goTo tokens).leave number (.sequence items))
      | true, _, .mappingStart :: tokens =>
          let (number, reading) ← (reading.goTo tokens).enter anchor mapping
          let (entries, reading) ← readEntries handles fuel reading
          let tokens ← afterBlock reading.tokens
          .ok (number, (reading.goTo tokens).leave number (.mapping entries))
      | _, _, .broken fault :: _ => .error fault
      | _, _, _ =>
          if tag.isSome || anchor.isSome then
            .ok (reading.add anchor ⟨.ofText tag true [], .scalar []⟩)
          else .error .malformed

/-- Read the items of an indented sequence. -/
def readItems (handles : Table String) :
    Nat → Reading → Except Fault (List Nat × Reading)
  | 0, _ => .error .malformed
  | fuel + 1, reading => do
      match reading.tokens with
      | .item :: tokens =>
          let (item, reading) ←
            if endsItem tokens then .ok (reading.goTo tokens).addAbsent
            else readNode handles true false fuel (reading.goTo tokens)
          let (items, reading) ← readItems handles fuel reading
          .ok (item :: items, reading)
      | _ => .ok ([], reading)

/-- Read the entries of an indented mapping. -/
def readEntries (handles : Table String) :
    Nat → Reading → Except Fault (List (Nat × Nat) × Reading)
  | 0, _ => .error .malformed
  | fuel + 1, reading => do
      match reading.tokens with
      | .key :: tokens =>
          let (key, reading) ← readEntryNode handles fuel (reading.goTo tokens)
          let (value, reading) ←
            match reading.tokens with
            | .value :: tokens => readEntryNode handles fuel (reading.goTo tokens)
            | _ => .ok reading.addAbsent
          let (entries, reading) ← readEntries handles fuel reading
          .ok ((key, value) :: entries, reading)
      | _ => .ok ([], reading)

/-- Read the key or the value of an indented entry, which may be left out. -/
def readEntryNode (handles : Table String) : Nat → Reading → Except Fault (Nat × Reading)
  | 0, _ => .error .malformed
  | fuel + 1, reading =>
      if endsEntry reading.tokens then .ok reading.addAbsent
      else readNode handles true true fuel reading

/-- Read the items between list brackets. A key among them begins a mapping of
one entry. -/
def readListItems (handles : Table String) (isFirst : Bool) :
    Nat → Reading → Except Fault (List Nat × Reading)
  | 0, _ => .error .malformed
  | fuel + 1, reading => do
      match ← nextMember true isFirst reading.tokens with
      | .listClose :: tokens => .ok ([], reading.goTo tokens)
      | .key :: tokens =>
          let (item, reading) ← (reading.goTo tokens).enter none ⟨.map, .mapping []⟩
          let (entry, reading) ← readPair handles true fuel reading
          let (items, reading) ← readListItems handles false fuel
            (reading.leave item (.mapping [entry]))
          .ok (item :: items, reading)
      | tokens =>
          let (item, reading) ← readNode handles false false fuel (reading.goTo tokens)
          let (items, reading) ← readListItems handles false fuel reading
          .ok (item :: items, reading)

/-- Read the entries between table brackets. A node that is no key has no
value. -/
def readTableEntries (handles : Table String) (isFirst : Bool) :
    Nat → Reading → Except Fault (List (Nat × Nat) × Reading)
  | 0, _ => .error .malformed
  | fuel + 1, reading => do
      match ← nextMember false isFirst reading.tokens with
      | .tableClose :: tokens => .ok ([], reading.goTo tokens)
      | .key :: tokens =>
          let (entry, reading) ← readPair handles false fuel (reading.goTo tokens)
          let (entries, reading) ← readTableEntries handles false fuel reading
          .ok (entry :: entries, reading)
      | tokens =>
          let (key, reading) ← readNode handles false false fuel (reading.goTo tokens)
          let (value, reading) := reading.addAbsent
          let (entries, reading) ← readTableEntries handles false fuel reading
          .ok ((key, value) :: entries, reading)

/-- Read a key in brackets and its value, which may both be left out. -/
def readPair (handles : Table String) (isList : Bool) :
    Nat → Reading → Except Fault ((Nat × Nat) × Reading)
  | 0, _ => .error .malformed
  | fuel + 1, reading => do
      let (key, reading) ←
        if endsPair isList reading.tokens || reading.tokens.head? = some .value then
          .ok reading.addAbsent
        else readNode handles false false fuel reading
      let (value, reading) ←
        match reading.tokens with
        | .value :: tokens =>
            if endsPair isList tokens then .ok (reading.goTo tokens).addAbsent
            else readNode handles false false fuel (reading.goTo tokens)
        | _ => .ok reading.addAbsent
      .ok ((key, value), reading)

end

/-- The directives before a document, as handles, and the tokens after them.
Only one version may be named, and its major part must be one. -/
def readDirectives (versioned : Bool) (handles : Table String) :
    List Token → Except Fault (Table String × List Token)
  | .directive (.version major) :: tokens =>
      if versioned || major ≠ 1 then .error .malformed else readDirectives true handles tokens
  | .directive (.handle name replacement) :: tokens =>
      if Table.has handles name then .error .malformed
      else readDirectives versioned (Table.set handles name replacement) tokens
  | .directive .other :: tokens => readDirectives versioned handles tokens
  | tokens => .ok (handles, tokens)

/-- Whether a document that has begun is empty. -/
def endsDocument : List Token → Bool
  | [] | .directive _ :: _ | .documentStart :: _ | .documentEnd :: _ => true
  | _ => false

/-- A graph and the number of its root. -/
structure RootedGraph where
  graph : Graph
  root : Nat

/-- A document that must be the last. Directives before another one are still
read. -/
def lastDocument (root : Nat) (reading : Reading) : Except Fault RootedGraph := do
  let tokens := reading.tokens.dropWhile (· = .documentEnd)
  if tokens.isEmpty then .ok ⟨reading.graph, root⟩
  else
    let (_, tokens) ← readDirectives false [] tokens
    .error (refusal tokens)

/-- The nodes of a document with the given handles, which must be the last. -/
def readDocument (handles : Table String) (tokens : List Token) : Except Fault RootedGraph := do
  let (root, reading) ← readNode handles true false (4 * tokens.length + 4) { tokens }
  lastDocument root reading

/-- The nodes of a text that is given by its tokens. -/
def RootedGraph.ofTokens? (tokens : List Token) : Except Fault (Option RootedGraph) := do
  match tokens with
  | [] => .ok none
  | .directive _ :: _ | .documentStart :: _ =>
      match ← readDirectives false [] tokens with
      | (handles, .documentStart :: tokens) =>
          if endsDocument tokens then
            let (root, reading) := Reading.addAbsent { tokens }
            (lastDocument root reading).map some
          else (readDocument (Table.update standardHandles handles) tokens).map some
      | (_, tokens) => .error (refusal tokens)
  | tokens => (readDocument standardHandles tokens).map some

end RequestShapes.Yaml
