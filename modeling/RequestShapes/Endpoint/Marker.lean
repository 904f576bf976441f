import RequestShapes.Schema.Reference
import RequestShapes.Text.Search

/-!
# Resolving markers

A marker is a literal whose text begins with the marker lead. It becomes a lazy
reference to the constant that it names. Either kind of quote counts on either
side, and the name is the shortest one on its line.
-/

namespace RequestShapes.Endpoint

open Text

/-- What follows a quote of either kind. -/
def afterQuote? (text : List Char) : Option (List Char) :=
  (after? ['"'] text).or (after? ['\''] text)

/-- The shortest nonempty text on this line before a quote and a closing
parenthesis, and what follows those. -/
def markedName? : List Char → Option (List Char × List Char)
  | [] => none
  | c :: text =>
      if c = '\n' then none
      else match (afterQuote? text).bind (after? [')']) with
        | some rest => some ([c], rest)
        | none => (markedName? text).map fun (name, rest) => (c :: name, rest)

/-- The marker at the start of a text, as a lazy reference, and what follows
it. -/
def lazyReference? (text : List Char) : Option (List Char × List Char) := do
  let rest ← after? "z.literal(".toList text
  let rest ← afterQuote? rest
  let rest ← after? Schema.markerLead.toList rest
  let (name, rest) ← markedName? rest
  some ("z.lazy(() => ".toList ++ name ++ [')'], rest)

/-- The text with every marker turned into a lazy reference. -/
def resolveMarkers (text : String) : String :=
  String.ofList (replaceAll lazyReference? text.toList)

end RequestShapes.Endpoint
