import RequestShapes.Proofs.Json.Quoted
import RequestShapes.Proofs.Number.Notation

/-!
# Texts of JSON

The compact texts of JSON as a language, beside the function that writes values. Every
text that is written belongs to the language and is printable, and a parenthesis stands
in a text of the language only between quotes. So the text is found again in front of
the parenthesis that closes a call.
-/

namespace RequestShapes.Json

open Text

/-! ## The language -/

/-- A text that is read as a quoted one with a given content, whatever follows it. -/
def QuotedAs (text : List Char) (content : String) : Prop :=
  ∃ inner, text = '"' :: inner ∧ ∀ rest, readString (inner ++ rest) = .ok (content, rest)

/-- The text of a member: the quoted name, a colon, a blank, the value. -/
def memberText (member : List Char × List Char) : List Char :=
  member.1 ++ ':' :: ' ' :: member.2

/-- A compact text of JSON: a word, a number, a quoted text, an array or an object. -/
inductive JsonText : List Char → Prop
  | word {text : List Char} : text ∈ wordValues.map Prod.fst → JsonText text
  | number {text : List Char} : NumberText text → JsonText text
  | string {text : List Char} {content : String} : QuotedAs text content → JsonText text
  | array {items : List (List Char)} : (∀ item ∈ items, JsonText item) →
      JsonText ('[' :: (commaSeparated items ++ [']']))
  | object {members : List (List Char × List Char)} :
      (∀ member ∈ members, ∃ name, QuotedAs member.1 name) →
      (∀ member ∈ members, JsonText member.2) →
      JsonText ('{' :: (commaSeparated (members.map memberText) ++ ['}']))

theorem commaSeparated_cons {text : List Char} {texts : List (List Char)} (h : texts ≠ []) :
    commaSeparated (text :: texts) = text ++ ',' :: ' ' :: commaSeparated texts := by
  obtain ⟨next, later, rfl⟩ := List.exists_cons_of_ne_nil h
  simp [commaSeparated, List.intercalate]

theorem commaSeparated_singleton (text : List Char) : commaSeparated [text] = text := by
  simp [commaSeparated, List.intercalate]

/-- What holds of no text, of the comma and the blank and of texts put together holds of
texts with commas between them. -/
theorem commaSeparated_induction {motive : List Char → Prop} (hnil : motive [])
    (hcomma : motive [',', ' '])
    (happend : ∀ {text later}, motive text → motive later → motive (text ++ later))
    {texts : List (List Char)} (h : ∀ text ∈ texts, motive text) :
    motive (commaSeparated texts) := by
  induction texts with
  | nil => exact hnil
  | cons text texts ih =>
      obtain ⟨htext, htexts⟩ := List.forall_mem_cons.mp h
      by_cases hne : texts = []
      · rw [hne, commaSeparated_singleton]
        exact htext
      · rw [commaSeparated_cons hne]
        exact happend htext (happend hcomma (ih htexts))

/-! ## Written values -/

theorem quotedAs_quotedText (content : String) : QuotedAs (quotedText content) content := by
  refine ⟨content.toList.flatMap quotedChar ++ ['"'], rfl, fun rest => ?_⟩
  obtain ⟨inner, htext, hread⟩ := readString_quotedText content rest
  rw [quotedText, List.cons_append] at htext
  rw [(List.cons.inj htext).2]
  exact hread

theorem jsonText_floatText (x : Binary64) : JsonText (floatText x) := by
  unfold floatText
  split_ifs with hnan hinfinite hnegative
  · exact .word (by decide)
  · exact .word (by decide)
  · exact .word (by decide)
  · exact .number (Binary64.numberText_finiteText x)

/-- The members of an object, each with the text of its name and of its value. -/
theorem memberTexts_eq_map (members : List (String × Json)) :
    memberTexts members =
      (members.map fun (name, value) => (quotedText name, text value)).map memberText := by
  induction members with
  | nil => rfl
  | cons member members ih => simp only [memberTexts, ih, List.map_cons, memberText]

mutual

/-- Every value is written in the language. -/
theorem jsonText_text : (value : Json) → JsonText (text value)
  | .null => .word (by decide)
  | .bool true => .word (by decide)
  | .bool false => .word (by decide)
  | .int value => .number (numberText_integerText value)
  | .float value => jsonText_floatText value
  | .str value => .string (quotedAs_quotedText value)
  | .arr items => .array (jsonText_itemTexts items)
  | .obj members => by
      rw [text, memberTexts_eq_map]
      refine .object (List.forall_mem_map.mpr fun member _ => ⟨_, quotedAs_quotedText _⟩)
        (List.forall_mem_map.mpr fun member hmem => jsonText_memberTexts members member hmem)

theorem jsonText_itemTexts : (items : List Json) → ∀ item ∈ itemTexts items, JsonText item
  | [] => List.forall_mem_nil _
  | item :: items => List.forall_mem_cons.mpr ⟨jsonText_text item, jsonText_itemTexts items⟩

theorem jsonText_memberTexts :
    (members : List (String × Json)) → ∀ member ∈ members, JsonText (text member.2)
  | [] => List.forall_mem_nil _
  | member :: members =>
      List.forall_mem_cons.mpr ⟨jsonText_text member.2, jsonText_memberTexts members⟩

end

/-! ## Printable texts -/

theorem printable_commaSeparated {texts : List (List Char)} (h : ∀ text ∈ texts, Printable text) :
    Printable (commaSeparated texts) :=
  commaSeparated_induction printable_nil (by decide)
    (fun htext hlater => printable_append.mpr ⟨htext, hlater⟩) h

theorem printable_of_numberText {text : List Char} (h : NumberText text) : Printable text := by
  have hdigit {c : Char} (h : c.isDigit = true) : ' ' ≤ c ∧ c ≤ '~' := by
    simp only [Char.isDigit, Bool.and_eq_true, decide_eq_true_eq] at h
    exact ⟨Char.le_trans (by decide) h.1, Char.le_trans h.2 (by decide)⟩
  have hmark : ∀ c ∈ ['-', '+', '.', 'e', 'E'], ' ' ≤ c ∧ c ≤ '~' := by simp
  intro c hmem
  obtain h | h := h.numberChar c hmem
  · exact hdigit h
  · exact hmark c h

theorem printable_floatText (x : Binary64) : Printable (floatText x) := by
  unfold floatText
  split_ifs
  · decide
  · decide
  · decide
  · exact printable_of_numberText (Binary64.numberText_finiteText x)

mutual

theorem printable_text : (value : Json) → Printable (text value)
  | .null => by decide
  | .bool true => by decide
  | .bool false => by decide
  | .int value => printable_of_numberText (numberText_integerText value)
  | .float value => printable_floatText value
  | .str value => printable_quotedText value
  | .arr items => by
      simp only [text, printable_cons, printable_append]
      exact ⟨by decide, printable_commaSeparated (printable_itemTexts items), by decide,
        printable_nil⟩
  | .obj members => by
      simp only [text, printable_cons, printable_append]
      exact ⟨by decide, printable_commaSeparated (printable_memberTexts members), by decide,
        printable_nil⟩

theorem printable_itemTexts : (items : List Json) → ∀ item ∈ itemTexts items, Printable item
  | [] => List.forall_mem_nil _
  | item :: items => List.forall_mem_cons.mpr ⟨printable_text item, printable_itemTexts items⟩

theorem printable_memberTexts :
    (members : List (String × Json)) → ∀ member ∈ memberTexts members, Printable member
  | [] => List.forall_mem_nil _
  | (name, value) :: members => by
      refine List.forall_mem_cons.mpr ⟨?_, printable_memberTexts members⟩
      simp only [printable_append, printable_cons]
      exact ⟨printable_quotedText name, by decide, by decide, printable_text value⟩

end

/-! ## Finding the end of a text -/

/-- The text before the first closing parenthesis that stands between no quotes, and
what follows it. Fuel counts characters. -/
def untilClosing? : Nat → List Char → Option (List Char × List Char)
  | 0, _ => none
  | _ + 1, [] => none
  | _ + 1, ')' :: rest => some ([], rest)
  | fuel + 1, '"' :: inner =>
      match readString inner with
      | .error _ => none
      | .ok (_, rest) =>
          (untilClosing? fuel rest).map fun (before, later) =>
            ('"' :: (inner.take (inner.length - rest.length) ++ before), later)
  | fuel + 1, c :: rest =>
      (untilClosing? fuel rest).map fun (before, later) => (c :: before, later)

/-- A piece of text in front of which the search for the end goes on behind it. -/
def Passed (piece : List Char) : Prop :=
  ∀ text before later : List Char,
    (∀ fuel, text.length < fuel → untilClosing? fuel text = some (before, later)) →
    ∀ fuel, (piece ++ text).length < fuel →
      untilClosing? fuel (piece ++ text) = some (piece ++ before, later)

theorem passed_nil : Passed [] := fun _ _ _ h => h

theorem passed_append {piece later : List Char} (h : Passed piece) (hlater : Passed later) :
    Passed (piece ++ later) := by
  intro text before rest hread
  rw [List.append_assoc, List.append_assoc]
  exact h _ _ _ (hlater _ _ _ hread)

theorem passed_singleton {c : Char} (hclosing : c ≠ ')') (hquote : c ≠ '"') : Passed [c] := by
  intro text before later hread fuel hlt
  obtain ⟨fuel, rfl⟩ := Nat.exists_eq_add_one.mpr (Nat.zero_lt_of_lt hlt)
  rw [List.singleton_append, untilClosing?, hread fuel (by simpa using hlt)]
  · rfl
  · exact hclosing
  · exact hquote

theorem passed_of_forall {piece : List Char} (h : ∀ c ∈ piece, c ≠ ')' ∧ c ≠ '"') :
    Passed piece := by
  induction piece with
  | nil => exact passed_nil
  | cons c piece ih =>
      obtain ⟨⟨hclosing, hquote⟩, hpiece⟩ := List.forall_mem_cons.mp h
      exact passed_append (passed_singleton hclosing hquote) (ih hpiece)

theorem QuotedAs.passed {text : List Char} {content : String} (h : QuotedAs text content) :
    Passed text := by
  obtain ⟨inner, rfl, hread⟩ := h
  intro text before later htext fuel hlt
  obtain ⟨fuel, rfl⟩ := Nat.exists_eq_add_one.mpr (Nat.zero_lt_of_lt hlt)
  simp only [List.cons_append, List.length_cons, List.length_append] at hlt
  rw [List.cons_append, untilClosing?, hread text]
  simp only [htext fuel (by omega), List.length_append, Nat.add_sub_cancel, List.take_left,
    Option.map_some, List.cons_append]

theorem passed_commaSeparated {texts : List (List Char)} (h : ∀ text ∈ texts, Passed text) :
    Passed (commaSeparated texts) := by
  have hcomma : Passed [',', ' '] := passed_of_forall (by simp)
  exact commaSeparated_induction passed_nil hcomma passed_append h

theorem JsonText.passed {text : List Char} (h : JsonText text) : Passed text := by
  induction h with
  | word hword =>
      have hwords : ∀ text ∈ wordValues.map Prod.fst, ∀ c ∈ text, c ≠ ')' ∧ c ≠ '"' := by
        simp [wordValues]
      exact passed_of_forall (hwords _ hword)
  | number hnumber =>
      have hmarks : ∀ c ∈ ['-', '+', '.', 'e', 'E'], c ≠ ')' ∧ c ≠ '"' := by simp
      refine passed_of_forall fun c hmem => ?_
      obtain h | h := hnumber.numberChar c hmem
      · exact ⟨by rintro rfl; exact absurd h (by decide), by rintro rfl; exact absurd h (by decide)⟩
      · exact hmarks c h
  | string hquoted => exact hquoted.passed
  | array _ ih =>
      exact passed_append (passed_singleton (by decide) (by decide))
        (passed_append (passed_commaSeparated ih) (passed_singleton (by decide) (by decide)))
  | object hnames _ ih =>
      refine passed_append (passed_singleton (by decide) (by decide)) (passed_append
        (passed_commaSeparated (List.forall_mem_map.mpr fun member hmem => ?_))
        (passed_singleton (by decide) (by decide)))
      obtain ⟨_, hname⟩ := hnames member hmem
      have hcolon : Passed [':', ' '] := passed_of_forall (by simp)
      exact passed_append hname.passed (passed_append hcolon (ih member hmem))

/-- A text of the language is found again before the parenthesis that closes it in. -/
theorem JsonText.untilClosing?_append {text : List Char} (h : JsonText text) (rest : List Char)
    {fuel : Nat} (hlt : (text ++ ')' :: rest).length < fuel) :
    untilClosing? fuel (text ++ ')' :: rest) = some (text, rest) := by
  have hclosing : ∀ fuel, (')' :: rest).length < fuel →
      Json.untilClosing? fuel (')' :: rest) = some ([], rest) := by
    intro fuel hlt
    obtain ⟨fuel, rfl⟩ := Nat.exists_eq_add_one.mpr (Nat.zero_lt_of_lt hlt)
    rfl
  simpa using h.passed _ _ _ hclosing fuel hlt

end RequestShapes.Json
