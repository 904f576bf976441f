import RequestShapes.Number.Integer
import RequestShapes.Text.CodeUnit
import RequestShapes.Text.Utf8
import RequestShapes.Yaml.Token

/-!
# Tags, anchors and directives

A tag is written in full between angles, or as a handle, which stands for a
longer text, and a suffix. A directive may say what a handle stands for.
-/

namespace RequestShapes.Yaml

open Text

/-- Whether a character may stand in the suffix of a tag. -/
def isTagChar (c : Char) : Bool :=
  c.isAlphanum || c ∈ "-;/?:@&=+$,_.!~*'()[]%".toList

/-- The bytes of a suffix, in which a percent sign and two hexadecimal digits
stand for a byte. -/
def suffixBytes : List Char → Option (List UInt8)
  | [] => some []
  | '%' :: high :: low :: text => do
      let high ← hexValue? high
      let low ← hexValue? low
      (suffixBytes text).map (UInt8.ofNat (16 * high + low) :: ·)
  | c :: text => if c = '%' then none else (suffixBytes text).map (UInt8.ofNat c.toNat :: ·)

/-- The suffix of a tag, which must not be empty. -/
def tagSuffix (text : List Char) : Except Fault (String × List Char) :=
  match text.takeWhile isTagChar with
  | [] => .error .malformed
  | written => do
      let bytes ← orMalformed (suffixBytes written)
      match decodeUtf8 bytes with
      | .ok suffix => .ok (String.ofList suffix, text.dropWhile isTagChar)
      | .error _ => .error .malformed

/-- A tag handle: an exclamation mark alone before a space, or a name between
two of them. -/
def tagHandle : List Char → Except Fault (String × List Char)
  | '!' :: text =>
      if text.head? = some ' ' then .ok ("!", text)
      else
        match text.dropWhile isNameChar with
        | '!' :: rest =>
            .ok ("!" ++ String.ofList (text.takeWhile isNameChar) ++ "!", rest)
        | _ => .error .malformed
  | _ => .error .malformed

/-- Whether a tag names a handle: a second exclamation mark comes before the
next gap. -/
def hasHandle (text : List Char) : Bool :=
  (text.takeWhile fun c => c ≠ ' ' && !isBreak c).contains '!'

/-- The tag after its exclamation mark, without what must follow it. -/
def tagBody (text : List Char) : Except Fault (Tag × List Char) := do
  match text with
  | '<' :: text =>
      match ← tagSuffix text with
      | (suffix, '>' :: rest) => .ok (⟨none, suffix⟩, rest)
      | _ => .error .malformed
  | text =>
      if atGap text then .ok (⟨none, "!"⟩, text)
      else
        let (handle, rest) ← if hasHandle text then tagHandle ('!' :: text) else .ok ("!", text)
        let (suffix, rest) ← tagSuffix rest
        .ok (⟨some handle, suffix⟩, rest)

/-- The tag after its exclamation mark. A space must follow it. -/
def tagText (text : List Char) : Except Fault (Tag × List Char) := do
  let (tag, rest) ← tagBody text
  if atSpace rest then .ok (tag, rest) else .error .malformed

/-- Whether a name may end here. -/
def endsName (text : List Char) : Bool :=
  atGap text || text.head?.any (· ∈ ['?', ':', ',', ']', '\x7d', '%', '@', '\x60'])

/-- The name of an anchor or an alias, which must not be empty. -/
def anchorName (text : List Char) : Except Fault (String × List Char) :=
  let rest := text.dropWhile isNameChar
  match text.takeWhile isNameChar with
  | [] => .error .malformed
  | name => if endsName rest then .ok (String.ofList name, rest) else .error .malformed

/-- The digits of a version, of which there may not be too many. -/
def versionPart (text : List Char) : Except Fault (Nat × List Char) :=
  match text.takeWhile Char.isDigit with
  | [] => .error .malformed
  | digits =>
      match readInteger false digits with
      | .ok part => .ok (part.natAbs, text.dropWhile Char.isDigit)
      | .error _ => .error .outOfRange

/-- The version of the notation. -/
def versionText (text : List Char) : Except Fault (Directive × List Char) := do
  match ← versionPart (dropSpaces text) with
  | (major, '.' :: rest) =>
      let (_, rest) ← versionPart rest
      if atSpace rest then .ok (.version major, rest) else .error .malformed
  | _ => .error .malformed

/-- A handle and what it stands for. -/
def handleText (text : List Char) : Except Fault (Directive × List Char) := do
  let (name, rest) ← tagHandle (dropSpaces text)
  unless rest.head? = some ' ' do throw Fault.malformed
  let (replacement, rest) ← tagSuffix (dropSpaces rest)
  if atSpace rest then .ok (.handle name replacement, rest) else .error .malformed

/-- The directive after its percent sign, with the text after its line. -/
def directiveText (text : List Char) : Except Fault (Directive × List Char) := do
  let rest := text.dropWhile isNameChar
  unless atSpace rest do throw Fault.malformed
  let (directive, rest) ←
    match text.takeWhile isNameChar with
    | [] => .error .malformed
    | ['Y', 'A', 'M', 'L'] => versionText rest
    | ['T', 'A', 'G'] => handleText rest
    | _ => .ok (.other, rest.dropWhile fun c => !isBreak c)
  .ok (directive, ← orMalformed (restOfLine? rest))

end RequestShapes.Yaml
