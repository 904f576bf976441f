import RequestShapes.Yaml.Character

/-!
# Plain text

A text without quotes runs until a colon before a gap, a comment, or a line
that is indented too little. Inside brackets it also ends at the marks of the
bracket. A line end within it is folded into a space, and further line ends
are kept.
-/

namespace RequestShapes.Yaml

/-- Whether a plain text ends before this character. -/
def endsPlain (inBrackets : Bool) (c : Char) (rest : List Char) : Bool :=
  isSpaceOrTab c || isBreak c ||
    c = ':' && (atGap rest || inBrackets && rest.head?.any (· ∈ [',', '[', ']', '\x7b', '\x7d'])) ||
    inBrackets && c ∈ [',', '?', '[', ']', '\x7b', '\x7d']

/-- The plain text up to the next gap or end. -/
def plainRun (inBrackets : Bool) : List Char → List Char × List Char
  | [] => ([], [])
  | c :: text =>
      if endsPlain inBrackets c text then ([], c :: text)
      else
        let (run, rest) := plainRun inBrackets text
        (c :: run, rest)

/-- A gap between two runs of plain text. -/
structure PlainGap where
  /-- What the gap stands for; nothing if the plain text cannot go on. -/
  text : List Char
  rest : List Char
  /-- The column after the gap, if it crosses a line end. -/
  column : Option Nat

/-- The line ends and spaces that follow a line end. A line that opens or
closes a document stops them and leaves no column. -/
def blankLines (column : Nat) : List Char → List Char × List Char × Option Nat
  | [] => ([], [], some column)
  | c :: text =>
      if c = ' ' then blankLines (column + 1) text
      else if isBreak c then
        if atSeparator text then ([breakOf c], text, none)
        else
          let (breaks, rest, column) := blankLines 0 text
          (breakOf c :: breaks, rest, column)
      else ([], c :: text, some column)

/-- The gap at the start of a text. -/
def plainGap (text : List Char) : PlainGap :=
  let spaces := text.takeWhile (· = ' ')
  match dropSpaces text with
  | [] => ⟨spaces, [], none⟩
  | c :: next =>
      if !isBreak c then ⟨spaces, c :: next, none⟩
      else if atSeparator next then ⟨[], next, some 0⟩
      else
        match blankLines 0 next with
        | (_, rest, none) => ⟨[], rest, some 0⟩
        | (breaks, rest, some column) =>
            let folded :=
              if breakOf c ≠ '\n' then [breakOf c] else if breaks.isEmpty then [' '] else []
            ⟨folded ++ breaks, rest, some column⟩

/-- A plain text with the rest after it, and whether a line end was crossed
after its last run. -/
structure PlainText where
  text : List Char
  rest : List Char
  crossed : Bool

/-- The plain text at the start of a text that must be indented so far. Fuel
counts runs, and every run holds a character. -/
def plainFrom (inBrackets : Bool) (indentation : Nat) : Nat → List Char → PlainText
  | 0, text => ⟨[], text, false⟩
  | fuel + 1, text =>
      let (run, rest) := plainRun inBrackets text
      let gap := plainGap rest
      let last : PlainText := ⟨run, gap.rest, gap.column.isSome⟩
      if gap.text.isEmpty || gap.rest.head? = some '#' ||
          !inBrackets && gap.column.any (· < indentation) then last
      else
        let more := plainFrom inBrackets indentation fuel gap.rest
        if more.text.isEmpty then last
        else { more with text := run ++ gap.text ++ more.text }

/-- The plain text at the start of a text. -/
def plainText (inBrackets : Bool) (indentation : Nat) (text : List Char) : PlainText :=
  plainFrom inBrackets indentation text.length text

end RequestShapes.Yaml
