import RequestShapes.Text.Blank
import RequestShapes.Text.Search
import RequestShapes.Text.Word

/-!
# Blocks of a request document

A block is a name, an optional colon, and a text between braces. There is no
grammar beyond that: the name may stand anywhere but within a word, and the
block ends where the braces balance, whatever stands between them. A header
whose brace is never closed ends the search.
-/

namespace RequestShapes.Request

open Text

/-- A block with the text between it and the previous one. -/
structure Block where
  before : List Char
  header : List Char
  body : List Char
deriving DecidableEq

/-- Whether a header may stand after a character: not within a word or a
hyphenated name. -/
def mayPrecede : Option Char → Bool
  | none => true
  | some c => !isWord c && c ≠ '-'

/-- Take a colon off a text, if it begins with one. -/
def takeColon : List Char → List Char × List Char
  | ':' :: text => ([':'], text)
  | text => ([], text)

/-- The header of a block at the start of a text, and what follows it. -/
def header? (name text : List Char) : Option (List Char × List Char) := do
  let rest ← after? name text
  let (colon, tail) := takeColon (rest.dropWhile isBlank)
  match tail.dropWhile isBlank with
  | '{' :: inside =>
      some (name ++ rest.takeWhile isBlank ++ colon ++ tail.takeWhile isBlank ++ ['{'], inside)
  | _ => none

/-- The text up to the brace that closes one more than the given number of
open braces, and what follows that brace. -/
def close? : Nat → List Char → Option (List Char × List Char)
  | _, [] => none
  | depth, '{' :: text => (close? (depth + 1) text).map fun (body, rest) => ('{' :: body, rest)
  | 0, '}' :: text => some ([], text)
  | depth + 1, '}' :: text => (close? depth text).map fun (body, rest) => ('}' :: body, rest)
  | depth, c :: text => (close? depth text).map fun (body, rest) => (c :: body, rest)

/-- The first block of a name, and what follows it. -/
def firstBlock? (name : List Char) (previous : Option Char) :
    List Char → Option (Block × List Char)
  | [] => none
  | c :: text =>
      match (if mayPrecede previous then header? name (c :: text) else none) with
      | some (header, inside) =>
          (close? 0 inside).map fun (body, rest) => (⟨[], header, body⟩, rest)
      | none =>
          (firstBlock? name (some c) text).map fun (block, rest) =>
            ({ block with before := c :: block.before }, rest)

/-- What is taken off and what is left are the text. -/
theorem takeColon_append (text : List Char) : (takeColon text).1 ++ (takeColon text).2 = text := by
  unfold takeColon
  split <;> rfl

/-- A header and what follows it are the text. -/
theorem header?_append {name text header inside : List Char}
    (h : header? name text = some (header, inside)) : header ++ inside = text := by
  simp only [header?, Option.bind_eq_bind, Option.bind_eq_some_iff] at h
  obtain ⟨rest, hafter, h⟩ := h
  obtain rfl := after?_eq_some hafter
  have hcolon := takeColon_append (rest.dropWhile isBlank)
  have hrest := List.takeWhile_append_dropWhile (p := isBlank) (l := rest)
  have htail := List.takeWhile_append_dropWhile (p := isBlank)
    (l := (takeColon (rest.dropWhile isBlank)).2)
  split at h
  next inside' hbrace =>
    simp only [Option.some.injEq, Prod.mk.injEq] at h
    obtain ⟨rfl, rfl⟩ := h
    rw [hbrace] at htail
    rw [← htail] at hcolon
    rw [← hcolon] at hrest
    simp only [List.append_assoc, List.cons_append, List.nil_append] at hrest ⊢
    rw [hrest]
  next => simp at h

/-- A body, its closing brace and the rest are the text. -/
theorem close?_append {depth : Nat} {text body rest : List Char}
    (h : close? depth text = some (body, rest)) : body ++ '}' :: rest = text := by
  fun_induction close? depth text generalizing body rest with
  | case1 => simp at h
  | case2 depth text ih =>
      simp only [Option.map_eq_some_iff, Prod.mk.injEq, Prod.exists] at h
      obtain ⟨inner, later, hinner, rfl, rfl⟩ := h
      simp [ih hinner]
  | case3 text =>
      simp only [Option.some.injEq, Prod.mk.injEq] at h
      obtain ⟨rfl, rfl⟩ := h
      rfl
  | case4 depth text ih =>
      simp only [Option.map_eq_some_iff, Prod.mk.injEq, Prod.exists] at h
      obtain ⟨inner, later, hinner, rfl, rfl⟩ := h
      simp [ih hinner]
  | case5 depth c text _ _ _ ih =>
      simp only [Option.map_eq_some_iff, Prod.mk.injEq, Prod.exists] at h
      obtain ⟨inner, later, hinner, rfl, rfl⟩ := h
      simp [ih hinner]

/-- A block, what stands before it and what follows it are the text. -/
theorem firstBlock?_append {name : List Char} {previous : Option Char} {text rest : List Char}
    {block : Block} (h : firstBlock? name previous text = some (block, rest)) :
    block.before ++ (block.header ++ (block.body ++ '}' :: rest)) = text := by
  fun_induction firstBlock? name previous text generalizing block rest with
  | case1 => simp at h
  | case2 previous c text header inside hheader =>
      simp only [Option.map_eq_some_iff, Prod.mk.injEq, Prod.exists] at h
      obtain ⟨body, later, hclose, rfl, rfl⟩ := h
      split at hheader
      · simp [close?_append hclose, header?_append hheader]
      · simp at hheader
  | case3 previous c text _ ih =>
      simp only [Option.map_eq_some_iff, Prod.mk.injEq, Prod.exists] at h
      obtain ⟨inner, later, hinner, rfl, rfl⟩ := h
      simp [ih hinner]

/-- What follows a block is shorter than the text. -/
theorem length_rest_lt {name : List Char} {previous : Option Char} {text rest : List Char}
    {block : Block} (h : firstBlock? name previous text = some (block, rest)) :
    rest.length < text.length := by
  have := congrArg List.length (firstBlock?_append h)
  simp at this
  omega

/-- All blocks of a name one after the other, and what follows the last. -/
def blocksFrom (name : List Char) (previous : Option Char) (text : List Char) :
    List Block × List Char :=
  match _h : firstBlock? name previous text with
  | none => ([], text)
  | some (block, rest) =>
      let (blocks, last) := blocksFrom name (some '}') rest
      (block :: blocks, last)
termination_by text.length
decreasing_by exact length_rest_lt _h

/-- The bodies of all blocks of a name. -/
def bodies (name : String) (text : List Char) : List (List Char) :=
  (blocksFrom name.toList none text).1.map Block.body

/-- The body of the first block of a name. -/
def body? (name : String) (text : List Char) : Option (List Char) :=
  (firstBlock? name.toList none text).map fun (block, _) => block.body

/-- The text without the blocks of a name. -/
def withoutBlocks (name : String) (text : List Char) : List Char :=
  let (blocks, last) := blocksFrom name.toList none text
  blocks.flatMap Block.before ++ last

end RequestShapes.Request
