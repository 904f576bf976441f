import RequestShapes.Yaml.Block
import RequestShapes.Yaml.Plain
import RequestShapes.Yaml.Quoted
import RequestShapes.Yaml.Tag

/-!
# Layout

The layout of a settings text is read from left to right. Deeper indentation
opens a block and shallower indentation closes it. Whether a node is a key is
only known at the colon after it: until then the place before it is kept in
mind, and the colon puts the missing tokens there. A key must stand on one line
and hold at most 1024 characters up to its colon. Where a text breaks off, only
the tokens before the first possible key are settled.
-/

namespace RequestShapes.Yaml

/-- A place in a text with what follows it. -/
structure Cursor where
  rest : List Char
  index : Nat := 0
  line : Nat := 0
  column : Nat := 0

/-- The place after one more character. A byte order mark takes no column. -/
def Cursor.next (cursor : Cursor) : Cursor :=
  match cursor.rest with
  | [] => cursor
  | c :: rest =>
      if isBreak c then ⟨rest, cursor.index + 1, cursor.line + 1, 0⟩
      else
        ⟨rest, cursor.index + 1, cursor.line,
          if c = '\ufeff' then cursor.column else cursor.column + 1⟩

/-- The place after so many characters. -/
def Cursor.advance : Nat → Cursor → Cursor
  | 0, cursor => cursor
  | count + 1, cursor => Cursor.advance count cursor.next

/-- The place before a later part of the text. -/
def Cursor.goTo (cursor : Cursor) (rest : List Char) : Cursor :=
  Cursor.advance (cursor.rest.length - rest.length) cursor

/-- A node that may turn out to be a key. -/
structure Candidate where
  /-- How many tokens stand before it. -/
  position : Nat
  /-- Whether it must be a key, since it begins a line of a block mapping. -/
  required : Bool
  index : Nat
  line : Nat
  column : Nat

/-- What is known in the middle of a text. -/
structure Layout where
  cursor : Cursor
  tokens : Array Token
  /-- The columns of the open blocks, the innermost first. -/
  blocks : List Nat
  /-- Whether a key may begin here. -/
  allowsKey : Bool
  /-- The candidate of the innermost bracket or, outside of brackets, of the
  block. -/
  candidate : Option Candidate
  /-- The candidates around the open brackets, the innermost first. -/
  outer : List (Option Candidate)

namespace Layout

/-- The layout before a text. -/
def start (text : List Char) : Layout :=
  ⟨⟨text, 0, 0, 0⟩, #[], [], true, none, []⟩

/-- Whether a bracket is open. -/
def inBrackets (layout : Layout) : Bool :=
  !layout.outer.isEmpty

/-- The layout with one more token, before a later part of the text. -/
def push (layout : Layout) (token : Token) (rest : List Char) : Layout :=
  { layout with tokens := layout.tokens.push token, cursor := layout.cursor.goTo rest }

/-- Whether a key can no longer be completed here. -/
def isStale (cursor : Cursor) (candidate : Candidate) : Bool :=
  candidate.line ≠ cursor.line || 1024 < cursor.index - candidate.index

/-- A candidate that is given up, which a required one may not be. -/
def giveUp : Option Candidate → Except Fault (Option Candidate)
  | some candidate => if candidate.required then .error .malformed else .ok none
  | none => .ok none

/-- A candidate, unless it is stale. -/
def keepFresh (cursor : Cursor) : Option Candidate → Except Fault (Option Candidate)
  | some candidate =>
      if isStale cursor candidate then giveUp (some candidate) else .ok (some candidate)
  | none => .ok none

/-- The layout without stale candidates. -/
def dropStale (layout : Layout) : Except Fault Layout := do
  let candidate ← keepFresh layout.cursor layout.candidate
  let outer ← layout.outer.mapM (keepFresh layout.cursor)
  .ok { layout with candidate, outer }

/-- The layout without the candidate of this level. -/
def dropCandidate (layout : Layout) : Except Fault Layout := do
  let candidate ← giveUp layout.candidate
  .ok { layout with candidate }

/-- Keep in mind that the node that begins here may be a key. -/
def proposeKey (layout : Layout) : Except Fault Layout := do
  if !layout.allowsKey then return layout
  let layout ← layout.dropCandidate
  let cursor := layout.cursor
  return { layout with
    candidate := some
      { position := layout.tokens.size
        required := !layout.inBrackets && layout.blocks.head? = some cursor.column
        index := cursor.index
        line := cursor.line
        column := cursor.column } }

/-- Close the blocks that are indented deeper than a column. Brackets keep them
open. -/
def closeBlocks (column : Option Nat) (layout : Layout) : Layout :=
  let isDeeper := fun block => !layout.inBrackets && column.all (· < block)
  { layout with
    tokens := layout.tokens ++ (layout.blocks.takeWhile isDeeper).toArray.map fun _ =>
      Token.blockEnd
    blocks := layout.blocks.dropWhile isDeeper }

/-- Open a block at a column, unless the innermost one is as deep. The token is
put before the tokens from a position on. -/
def openBlock (layout : Layout) (column position : Nat) (token : Token) : Layout :=
  if layout.blocks.head?.all (· < column) then
    { layout with
      tokens := layout.tokens.insertIdxIfInBounds position token
      blocks := column :: layout.blocks }
  else layout

/-- Open a block right here. -/
def openHere (layout : Layout) (token : Token) : Layout :=
  layout.openBlock layout.cursor.column layout.tokens.size token

/-- What follows the gap at the start of a text, in or outside of a comment,
and whether the gap crosses a line end. -/
def afterGap (inComment : Bool) : List Char → List Char × Bool
  | [] => ([], false)
  | c :: text =>
      if isBreak c then ((afterGap false text).1, true)
      else if inComment || c = ' ' then afterGap inComment text
      else if c = '#' then afterGap true text
      else (c :: text, false)

/-- Pass over a gap. Outside of brackets a key may begin in a new line. -/
def skipGap (layout : Layout) : Layout :=
  let (rest, crossed) := afterGap false layout.cursor.rest
  { layout with
    cursor := layout.cursor.goTo rest
    allowsKey := layout.allowsKey || crossed && !layout.inBrackets }

/-- A line that belongs to no document: all blocks end before it. -/
def outsideDocument (layout : Layout) (found : Except Fault (Token × List Char)) :
    Except Fault Layout := do
  let layout ← (layout.closeBlocks none).dropCandidate
  let (token, rest) ← found
  .ok (({ layout with allowsKey := false }).push token rest)

/-- An opening bracket. -/
def openBracket (layout : Layout) (token : Token) (rest : List Char) : Except Fault Layout := do
  let layout ← layout.proposeKey
  let layout := { layout with
    candidate := none, outer := layout.candidate :: layout.outer, allowsKey := true }
  .ok (layout.push token rest)

/-- A closing bracket. -/
def closeBracket (layout : Layout) (token : Token) (rest : List Char) : Except Fault Layout := do
  let layout ← layout.dropCandidate
  match layout.outer with
  | [] => .error .malformed
  | candidate :: outer =>
      .ok (({ layout with candidate, outer, allowsKey := false }).push token rest)

/-- A comma. -/
def comma (layout : Layout) (rest : List Char) : Except Fault Layout := do
  let layout ← layout.dropCandidate
  .ok (({ layout with allowsKey := true }).push .comma rest)

/-- The mark of an item. -/
def item (layout : Layout) (rest : List Char) : Except Fault Layout := do
  unless layout.inBrackets || layout.allowsKey do throw Fault.malformed
  let layout := if layout.inBrackets then layout else layout.openHere .sequenceStart
  let layout ← layout.dropCandidate
  .ok (({ layout with allowsKey := true }).push .item rest)

/-- The mark of a key. -/
def keyMark (layout : Layout) (rest : List Char) : Except Fault Layout := do
  unless layout.inBrackets || layout.allowsKey do throw Fault.malformed
  let layout := if layout.inBrackets then layout else layout.openHere .mappingStart
  let layout ← layout.dropCandidate
  .ok (({ layout with allowsKey := !layout.inBrackets }).push .key rest)

/-- The mark of a value. It makes a candidate the key. -/
def valueMark (layout : Layout) (rest : List Char) : Except Fault Layout := do
  match layout.candidate with
  | some candidate =>
      let layout := { layout with
        candidate := none
        tokens := layout.tokens.insertIdxIfInBounds candidate.position .key
        allowsKey := false }
      let layout :=
        if layout.inBrackets then layout
        else layout.openBlock candidate.column candidate.position .mappingStart
      .ok (layout.push .value rest)
  | none =>
      unless layout.inBrackets || layout.allowsKey do throw Fault.malformed
      let layout := if layout.inBrackets then layout else layout.openHere .mappingStart
      .ok (({ layout with allowsKey := !layout.inBrackets }).push .value rest)

/-- A token that begins a node and may begin a key. -/
def nodeToken (layout : Layout) (found : Except Fault (Token × List Char)) :
    Except Fault Layout := do
  let layout ← layout.proposeKey
  let (token, rest) ← found
  .ok (({ layout with allowsKey := false }).push token rest)

/-- How deep the text of a node in this block is indented at least. -/
def indentation (layout : Layout) : Nat :=
  match layout.blocks with
  | [] => 0
  | column :: _ => column + 1

/-- A block text after its mark. -/
def blockScalar (layout : Layout) (folded : Bool) (text : List Char) : Except Fault Layout := do
  let layout ← layout.dropCandidate
  let (characters, rest) ← blockText folded layout.indentation text
  .ok (({ layout with allowsKey := true }).push (.scalar false characters) rest)

/-- A plain text. A key may follow it in a new line. -/
def plainScalar (layout : Layout) : Except Fault Layout := do
  let layout ← layout.proposeKey
  let plain := plainText layout.inBrackets layout.indentation layout.cursor.rest
  .ok (({ layout with allowsKey := plain.crossed }).push (.scalar true plain.text) plain.rest)

/-- Whether a plain text may begin with this character. -/
def beginsPlain (layout : Layout) (c : Char) (rest : List Char) : Bool :=
  !(isSpaceOrTab c || isBreak c || c ∈ "-?:,[]\x7b\x7d#&*!|>'\"%@\x60".toList) ||
    !atGap rest && (c = '-' || !layout.inBrackets && (c = '?' || c = ':'))

/-- Read one token from a text that is not at its end. -/
def step (layout : Layout) (c : Char) (rest : List Char) : Except Fault Layout := do
  let atMargin := layout.cursor.column = 0
  if atMargin ∧ c = '%' then
    layout.outsideDocument
      ((directiveText rest).map fun (directive, rest) => (.directive directive, rest))
  else if atMargin ∧ atSeparator (c :: rest) then
    layout.outsideDocument (.ok (if c = '-' then .documentStart else .documentEnd, rest.drop 2))
  else if c = '[' then layout.openBracket .listOpen rest
  else if c = '\x7b' then layout.openBracket .tableOpen rest
  else if c = ']' then layout.closeBracket .listClose rest
  else if c = '\x7d' then layout.closeBracket .tableClose rest
  else if c = ',' then layout.comma rest
  else if c = '-' ∧ atGap rest then layout.item rest
  else if c = '?' ∧ (layout.inBrackets ∨ atGap rest) then layout.keyMark rest
  else if c = ':' ∧ (layout.inBrackets ∨ atGap rest) then layout.valueMark rest
  else if c = '*' then
    layout.nodeToken ((anchorName rest).map fun (name, rest) => (.alias name, rest))
  else if c = '&' then
    layout.nodeToken ((anchorName rest).map fun (name, rest) => (.anchor name, rest))
  else if c = '!' then
    layout.nodeToken ((tagText rest).map fun (tag, rest) => (.tag tag, rest))
  else if (c = '|' ∨ c = '>') ∧ !layout.inBrackets then layout.blockScalar (c = '>') rest
  else if c = '\'' ∨ c = '"' then
    layout.nodeToken ((quotedText c rest).map fun (text, rest) => (.scalar false text, rest))
  else if layout.beginsPlain c rest then layout.plainScalar
  else throw Fault.malformed

/-- The end of a text: everything open ends there. -/
def finish (layout : Layout) : Except Fault Layout :=
  (layout.closeBlocks none).dropCandidate

/-- The layout after the gap in front and without what ends at it. -/
def toNextToken (layout : Layout) : Except Fault Layout := do
  let layout ← layout.skipGap.dropStale
  .ok (layout.closeBlocks (some layout.cursor.column))

/-- The tokens before the first node that may still turn out to be a key. No
token will be put between them. -/
def settled (layout : Layout) : List Token :=
  let candidates := (layout.candidate :: layout.outer).filterMap fun candidate =>
    candidate.filter fun candidate => !isStale layout.cursor candidate
  let count := candidates.foldl (fun count candidate => min count candidate.position)
    layout.tokens.size
  layout.tokens.toList.take count

/-- The settled tokens and the fault that nothing more is read after. -/
def breakOff (layout : Layout) (fault : Fault) : List Token :=
  layout.settled ++ [.broken fault]

/-- Read all tokens. Fuel counts characters, and every token takes one. -/
def readAll : Nat → Layout → List Token
  | 0, layout => layout.breakOff .malformed
  | fuel + 1, layout =>
      match layout.toNextToken with
      | .error fault => layout.breakOff fault
      | .ok ahead =>
          match ahead.cursor.rest with
          | [] =>
              match ahead.finish with
              | .error fault => layout.breakOff fault
              | .ok last => last.tokens.toList
          | c :: rest =>
              match ahead.step c rest with
              | .error fault => layout.breakOff fault
              | .ok next => readAll fuel next

end Layout

/-- The tokens of a text. A byte order mark in front is passed over, and a
character that no text may hold leaves nothing to be read. -/
def tokens (text : List Char) : List Token :=
  if text.any fun c => !isAllowed c then [.broken .malformed]
  else
    let body := if text.head? = some '\ufeff' then text.drop 1 else text
    Layout.readAll (body.length + 1) (Layout.start body)

end RequestShapes.Yaml
