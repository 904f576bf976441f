/-!
# Searching in text

Texts are lists of characters. A search gives what stands before a match and
what follows it, so that the pieces put together are the text.
-/

namespace RequestShapes.Text

/-- What follows a lead at the start of a text. -/
def after? : List Char → List Char → Option (List Char)
  | [], text => some text
  | _ :: _, [] => none
  | l :: lead, c :: text => if l = c then after? lead text else none

/-- Split a text at the first occurrence of a separator, which is left out. -/
def cut? (separator : List Char) : List Char → Option (List Char × List Char)
  | [] => (after? separator []).map fun rest => ([], rest)
  | c :: text =>
      match after? separator (c :: text) with
      | some rest => some ([], rest)
      | none => (cut? separator text).map fun (before, rest) => (c :: before, rest)

/-- The first result of a test on the text and its later parts, from left to
right, the empty one included. -/
def firstAt? {α : Type} (test : List Char → Option α) : List Char → Option α
  | [] => test []
  | c :: text => (test (c :: text)).or (firstAt? test text)

/-- Replace matches from left to right. A match gives its replacement and the
rest after it; one that leaves no shorter rest is passed over. -/
def replaceAll (match? : List Char → Option (List Char × List Char)) (text : List Char) :
    List Char :=
  match text with
  | [] => []
  | c :: rest =>
      match match? (c :: rest) with
      | some (replacement, later) =>
          if later.length ≤ rest.length then replacement ++ replaceAll match? later
          else c :: replaceAll match? rest
      | none => c :: replaceAll match? rest
termination_by text.length
decreasing_by all_goals simp only [List.length_cons]; omega

/-- What a test finds from left to right, going on after each find. One that
leaves no shorter rest is passed over. -/
def findAll {α : Type} (find? : List Char → Option (α × List Char)) (text : List Char) : List α :=
  match text with
  | [] => []
  | c :: rest =>
      match find? (c :: rest) with
      | some (found, later) =>
          if later.length ≤ rest.length then found :: findAll find? later
          else findAll find? rest
      | none => findAll find? rest
termination_by text.length
decreasing_by all_goals simp only [List.length_cons]; omega

/-- A lead takes itself off the text and nothing else. -/
theorem after?_eq_some {lead text rest : List Char} (h : after? lead text = some rest) :
    text = lead ++ rest := by
  induction lead generalizing text with
  | nil => simpa [after?] using h
  | cons l lead ih =>
      cases text with
      | nil => simp [after?] at h
      | cons c text =>
          by_cases hlc : l = c
          · simp only [after?, hlc, if_true] at h
            simp [hlc, ih h]
          · simp [after?, hlc] at h

end RequestShapes.Text
