import RequestShapes.Yaml.Token

/-!
# Block text

After a bar or an angle follow the lines of a text, all indented alike. A bar
keeps their line ends; an angle folds a line end between two lines that begin
with no blank. The header says how deep the lines are indented and what becomes
of the line ends at the end.
-/

namespace RequestShapes.Yaml

/-- What becomes of the line ends after the last line. -/
inductive Chomping where
  /-- All are dropped. -/
  | strip
  /-- The first is kept. -/
  | clip
  /-- All are kept. -/
  | keep
deriving DecidableEq, Repr

/-- The chomping that a sign asks for. -/
def chomping? : Char → Option Chomping
  | '+' => some .keep
  | '-' => some .strip
  | _ => none

/-- The depth that a digit asks for; zero is refused. -/
def depth? (c : Char) : Option Nat :=
  if '1' ≤ c ∧ c ≤ '9' then some (c.toNat - '0'.toNat) else none

/-- The header of a block text: chomping and depth, in either order and both
optional. -/
def blockHeader : List Char → (Chomping × Option Nat) × List Char
  | [] => ((.clip, none), [])
  | c :: text =>
      match chomping? c, depth? c with
      | some chomping, _ =>
          match text.head?.bind depth? with
          | some depth => ((chomping, some depth), text.drop 1)
          | none => ((chomping, none), text)
      | none, some depth =>
          match text.head?.bind chomping? with
          | some chomping => ((chomping, some depth), text.drop 1)
          | none => ((.clip, some depth), text)
      | none, none => ((.clip, none), c :: text)

/-- The line ends before the first line, the deepest indentation seen, the
column reached and the rest. -/
def leadingLines (deepest column : Nat) : List Char → List Char × Nat × Nat × List Char
  | [] => ([], deepest, column, [])
  | c :: text =>
      if c = ' ' then leadingLines (max deepest (column + 1)) (column + 1) text
      else if isBreak c then
        let (breaks, found) := leadingLines deepest 0 text
        (breakOf c :: breaks, found)
      else ([], deepest, column, c :: text)

/-- The line ends before the next line, the column reached and the rest. At
most so many spaces of a line are indentation. -/
def indentedBreaks (indentation column : Nat) : List Char → List Char × Nat × List Char
  | [] => ([], column, [])
  | c :: text =>
      if c = ' ' ∧ column < indentation then indentedBreaks indentation (column + 1) text
      else if isBreak c then
        let (breaks, found) := indentedBreaks indentation 0 text
        (breakOf c :: breaks, found)
      else ([], column, c :: text)

/-- The line ends that are kept at the end. -/
def Chomping.apply (chomping : Chomping) (lineEnd : Option Char) (breaks : List Char) :
    List Char :=
  match chomping with
  | strip => []
  | clip => lineEnd.toList
  | keep => lineEnd.toList ++ breaks

/-- What stands between two lines of a block text. -/
def lineJoint (folded : Bool) (line : List Char) (lineEnd : Option Char)
    (breaks next : List Char) : List Char :=
  if folded && lineEnd = some '\n' && !line.head?.any isSpaceOrTab &&
      !next.head?.any isSpaceOrTab then
    if breaks.isEmpty then [' '] else []
  else lineEnd.toList

/-- The lines of a block text, from the line ends before a line on. Fuel counts
lines. -/
def blockLines (folded : Bool) (chomping : Chomping) (indentation : Nat) :
    Nat → List Char → List Char → List Char × List Char
  | 0, breaks, text => (chomping.apply none breaks, text)
  | fuel + 1, breaks, text =>
      let line := text.takeWhile fun c => !isBreak c
      let (lineEnd, next) :=
        match text.dropWhile fun c => !isBreak c with
        | [] => (none, [])
        | c :: next => (some (breakOf c), next)
      let (later, column, rest) := indentedBreaks indentation 0 next
      if lineEnd.isSome ∧ column = indentation ∧ !rest.isEmpty then
        let (more, rest') := blockLines folded chomping indentation fuel later rest
        (breaks ++ line ++ lineJoint folded line lineEnd later rest ++ more, rest')
      else (breaks ++ line ++ chomping.apply lineEnd later, rest)

/-- The block text after its mark, in a block that is indented so far. -/
def blockText (folded : Bool) (least : Nat) (text : List Char) :
    Except Fault (List Char × List Char) := do
  let ((chomping, depth), rest) := blockHeader text
  unless atSpace rest do throw Fault.malformed
  let body ← orMalformed (restOfLine? rest)
  let least := max least 1
  let (breaks, indentation, column, rest) :=
    match depth with
    | some depth =>
        let indentation := least + depth - 1
        let (breaks, column, rest) := indentedBreaks indentation 0 body
        (breaks, indentation, column, rest)
    | none =>
        let (breaks, deepest, column, rest) := leadingLines 0 0 body
        (breaks, max least deepest, column, rest)
  if column = indentation ∧ !rest.isEmpty then
    .ok (blockLines folded chomping indentation rest.length breaks rest)
  else .ok (chomping.apply none breaks, rest)

end RequestShapes.Yaml
