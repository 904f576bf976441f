import RequestShapes.Proofs.Json.Syntax
import RequestShapes.Zod.Source

/-!
# The grammar of Zod sources

The sentences that expressions are written in, each with the tree that it says, and a
reader that goes through a text from left to right. Every sentence is read as its tree,
so no sentence says two things, whatever is quoted in it.
-/

namespace RequestShapes.Zod

open Text Json

/-! ## Sentences -/

/-- What a sentence says. A literal is given by its JSON text, all other texts by what
they stand for. -/
inductive Tree where
  | any
  | never
  | string (format : Option Format)
  | integer
  | number
  | boolean
  | null
  | literal (text : List Char)
  | enumeration (texts : List String)
  | union (members : List Tree)
  | array (items : Tree)
  | record (values : Tree)
  | object (fields : List (Field Tree))
  | strictObject (fields : List (Field Tree))
  | openObject (fields : List (Field Tree)) (others : Tree)

/-- A field as it is written, with what it says. -/
structure WrittenField where
  name : List Char
  value : List Char
  field : Field Tree

/-- The mark of an optional field. -/
def optionalMark : List Char := ".optional()".toList

/-- The text of a field. -/
def WrittenField.text (written : WrittenField) : List Char :=
  written.name ++ ':' :: ' ' ::
    (written.value ++ if written.field.optional then optionalMark else [])

/-- The text says the tree. -/
inductive Sentence : List Char → Tree → Prop
  | any : Sentence "z.any()".toList .any
  | never : Sentence "z.never()".toList .never
  | string : Sentence "z.string()".toList (.string none)
  | formatted (format : Format) :
      Sentence ("z.string()".toList ++ (formatCall format).toList) (.string (some format))
  | integer : Sentence "z.number().int()".toList .integer
  | number : Sentence "z.number()".toList .number
  | boolean : Sentence "z.boolean()".toList .boolean
  | null : Sentence "z.null()".toList .null
  | literal {text : List Char} : JsonText text → Sentence (call "z.literal" text) (.literal text)
  | enumeration {texts : List (List Char × String)} : texts ≠ [] →
      (∀ text ∈ texts, QuotedAs text.1 text.2) →
      Sentence (listCall "z.enum" (texts.map Prod.fst)) (.enumeration (texts.map Prod.snd))
  | union {members : List (List Char × Tree)} : 2 ≤ members.length →
      (∀ member ∈ members, Sentence member.1 member.2) →
      Sentence (listCall "z.union" (members.map Prod.fst)) (.union (members.map Prod.snd))
  | array {text : List Char} {items : Tree} : Sentence text items →
      Sentence (call "z.array" text) (.array items)
  | record {text : List Char} {values : Tree} : Sentence text values →
      Sentence (call "z.record" text) (.record values)
  | object {fields : List WrittenField} :
      (∀ written ∈ fields, QuotedAs written.name written.field.name) →
      (∀ written ∈ fields, Sentence written.value written.field.value) →
      Sentence (objectCall (fields.map WrittenField.text))
        (.object (fields.map WrittenField.field))
  | strictObject {fields : List WrittenField} :
      (∀ written ∈ fields, QuotedAs written.name written.field.name) →
      (∀ written ∈ fields, Sentence written.value written.field.value) →
      Sentence (objectCall (fields.map WrittenField.text) ++ ".strict()".toList)
        (.strictObject (fields.map WrittenField.field))
  | openObject {fields : List WrittenField} {text : List Char} {others : Tree} :
      (∀ written ∈ fields, QuotedAs written.name written.field.name) →
      (∀ written ∈ fields, Sentence written.value written.field.value) → Sentence text others →
      Sentence (objectCall (fields.map WrittenField.text) ++ call ".catchall" text)
        (.openObject (fields.map WrittenField.field) others)

/-! ## Reading -/

/-- What a sentence may begin with. -/
inductive Head where
  | leaf (tree : Tree)
  | string
  | number
  | literal
  | enumeration
  | union
  | array
  | record
  | object

/-- The first words of sentences. -/
def heads : List (List Char × Head) :=
  [("z.any()".toList, .leaf .any), ("z.never()".toList, .leaf .never),
    ("z.string()".toList, .string), ("z.number()".toList, .number),
    ("z.boolean()".toList, .leaf .boolean), ("z.null()".toList, .leaf .null),
    ("z.literal(".toList, .literal), ("z.enum([".toList, .enumeration),
    ("z.union([".toList, .union), ("z.array(".toList, .array), ("z.record(".toList, .record),
    ("z.object(\x7b".toList, .object)]

/-- The beginning of a sentence, with what follows it. -/
def head? (text : List Char) : Option (Head × List Char) :=
  heads.findSome? fun (word, head) => (after? word text).map fun rest => (head, rest)

/-- The call that checks a format, if there is one. -/
def format? (text : List Char) : Option (Format × List Char) :=
  Format.all.findSome? fun format =>
    (after? (formatCall format).toList text).map fun rest => (format, rest)

/-- A quoted text. -/
def quoted? : List Char → Option (String × List Char)
  | '"' :: inner => (readString inner).toOption
  | _ => none

/-- One or more items with a comma and a blank between them. Fuel counts items. -/
def separated? {α : Type} (item? : List Char → Option (α × List Char)) :
    Nat → List Char → Option (List α × List Char)
  | 0, _ => none
  | fuel + 1, text => do
      let (item, rest) ← item? text
      match after? [',', ' '] rest with
      | none => some ([item], rest)
      | some rest =>
          let (items, rest) ← separated? item? fuel rest
          some (item :: items, rest)

/-- A field, whose value is read by a given reader. -/
def field? (value? : List Char → Option (Tree × List Char)) (text : List Char) :
    Option (Field Tree × List Char) := do
  let (name, rest) ← quoted? text
  let rest ← after? [':', ' '] rest
  let (value, rest) ← value? rest
  match after? optionalMark rest with
  | some rest => some (⟨name, true, value⟩, rest)
  | none => some (⟨name, false, value⟩, rest)

/-- The fields of an object and its closing brace and parenthesis. -/
def fields? (value? : List Char → Option (Tree × List Char)) (text : List Char) :
    Option (List (Field Tree) × List Char) :=
  match after? ['\x7d', ')'] text with
  | some rest => some ([], rest)
  | none => do
      let rest ← after? [' '] text
      let (fields, rest) ← separated? (field? value?) rest.length rest
      let rest ← after? [' ', '\x7d', ')'] rest
      some (fields, rest)

/-- A sentence after its first word. Sentences inside of it are read by a given
reader. -/
def readBody (tree? : List Char → Option (Tree × List Char)) :
    Head → List Char → Option (Tree × List Char)
  | .leaf tree, rest => some (tree, rest)
  | .string, rest =>
      match format? rest with
      | some (format, rest) => some (.string (some format), rest)
      | none => some (.string none, rest)
  | .number, rest =>
      match after? ".int()".toList rest with
      | some rest => some (.integer, rest)
      | none => some (.number, rest)
  | .literal, rest => do
      let (text, rest) ← untilClosing? (rest.length + 1) rest
      some (.literal text, rest)
  | .enumeration, rest => do
      let (texts, rest) ← separated? quoted? rest.length rest
      let rest ← after? [']', ')'] rest
      some (.enumeration texts, rest)
  | .union, rest => do
      let (members, rest) ← separated? tree? rest.length rest
      let rest ← after? [']', ')'] rest
      some (.union members, rest)
  | .array, rest => do
      let (items, rest) ← tree? rest
      let rest ← after? [')'] rest
      some (.array items, rest)
  | .record, rest => do
      let (values, rest) ← tree? rest
      let rest ← after? [')'] rest
      some (.record values, rest)
  | .object, rest => do
      let (fields, rest) ← fields? tree? rest
      match after? ".strict()".toList rest, after? ".catchall(".toList rest with
      | some rest, _ => some (.strictObject fields, rest)
      | none, some rest =>
          let (others, rest) ← tree? rest
          let rest ← after? [')'] rest
          some (.openObject fields others, rest)
      | none, none => some (.object fields, rest)

/-- The sentence that stands at the start of a text, as its tree, with what follows it.
Fuel counts nested sentences. -/
def readTree : Nat → List Char → Option (Tree × List Char)
  | 0, _ => none
  | fuel + 1, text => do
      let (head, rest) ← head? text
      readBody (readTree fuel) head rest

/-- The tree that a whole text says. -/
def Tree.read? (text : List Char) : Option Tree :=
  match readTree (text.length + 1) text with
  | some (tree, []) => some tree
  | _ => none

/-! ## Every sentence is read -/

/-- The calls by which a sentence might go on. -/
def continuations : List (List Char) :=
  Format.all.map (fun format => (formatCall format).toList) ++
    [".int()".toList, ".strict()".toList, ".catchall(".toList]

/-- No call follows. -/
def Undotted (rest : List Char) : Prop := ∀ later, rest ≠ '.' :: later

theorem undotted_nil : Undotted [] := fun _ h => absurd h (List.cons_ne_nil _ _).symm

theorem undotted_cons {c : Char} (h : c ≠ '.') (rest : List Char) : Undotted (c :: rest) :=
  fun _ heq => h (List.cons.inj heq).1

theorem Undotted.after?_eq_none {rest : List Char} (h : Undotted rest) (call : List Char) :
    after? ('.' :: call) rest = none := by
  cases rest with
  | nil => rfl
  | cons c rest => exact if_neg fun heq => h rest (congrArg (· :: rest) heq.symm)

/-- What may follow a sentence inside of another one: no further call but the mark of an
optional field. -/
def Ended (rest : List Char) : Prop := Undotted rest ∨ ∃ later, rest = optionalMark ++ later

theorem Ended.after?_eq_none {rest : List Char} (h : Ended rest) :
    ∀ call ∈ continuations, after? call rest = none := by
  obtain hundotted | ⟨later, rfl⟩ := h
  · intro call hmem
    have hdot : ∀ call ∈ continuations, call = '.' :: call.tail := by decide
    rw [hdot call hmem]
    exact hundotted.after?_eq_none _
  · simp only [continuations, Format.all, List.map_cons, List.map_nil, List.cons_append,
      List.nil_append, List.forall_mem_cons]
    exact ⟨rfl, rfl, rfl, rfl, rfl, rfl, rfl, rfl, List.forall_mem_nil _⟩

theorem Ended.format?_eq_none {rest : List Char} (h : Ended rest) : format? rest = none := by
  refine List.findSome?_eq_none_iff.mpr fun format hmem => ?_
  rw [h.after?_eq_none _ (List.mem_append_left _ (List.mem_map_of_mem hmem))]
  rfl

theorem format?_append (format : Format) (rest : List Char) :
    format? ((formatCall format).toList ++ rest) = some (format, rest) := by
  cases format <;> rfl

theorem head?_append {word : List Char} {head : Head} (h : (word, head) ∈ heads)
    (rest : List Char) : head? (word ++ rest) = some (head, rest) := by
  simp only [heads, List.mem_cons, List.not_mem_nil, or_false, Prod.mk.injEq] at h
  obtain ⟨rfl, rfl⟩ | ⟨rfl, rfl⟩ | ⟨rfl, rfl⟩ | ⟨rfl, rfl⟩ | ⟨rfl, rfl⟩ | ⟨rfl, rfl⟩ | ⟨rfl, rfl⟩ |
    ⟨rfl, rfl⟩ | ⟨rfl, rfl⟩ | ⟨rfl, rfl⟩ | ⟨rfl, rfl⟩ | ⟨rfl, rfl⟩ := h <;> rfl

theorem length_le_commaSeparated {text : List Char} {texts : List (List Char)}
    (hmem : text ∈ texts) : text.length ≤ (commaSeparated texts).length := by
  induction texts with
  | nil => cases hmem
  | cons first texts ih =>
      by_cases hne : texts = []
      · subst hne
        simp [List.mem_singleton.mp hmem, commaSeparated_singleton]
      · rw [commaSeparated_cons hne]
        obtain rfl | hlater := List.mem_cons.mp hmem
        · simp
        · have := ih hlater
          simp only [List.length_append, List.length_cons]
          omega

theorem length_le_length_commaSeparated (texts : List (List Char)) :
    texts.length ≤ (commaSeparated texts).length + 1 := by
  induction texts with
  | nil => exact Nat.zero_le _
  | cons first texts ih =>
      by_cases hne : texts = []
      · subst hne
        simp
      · rw [commaSeparated_cons hne]
        simp only [List.length_append, List.length_cons]
        omega

/-- Items are read with the commas between them, if each of them is read in front of a
comma and in front of what follows the last one. -/
theorem separated?_append {ι α : Type} {item? : List Char → Option (α × List Char)}
    {text : ι → List Char} {value : ι → α} {items : List ι} (hne : items ≠ []) {rest : List Char}
    (hcomma : ∀ item ∈ items, ∀ later,
      item? (text item ++ ',' :: later) = some (value item, ',' :: later))
    (hlast : ∀ item ∈ items, item? (text item ++ rest) = some (value item, rest))
    (hrest : after? [',', ' '] rest = none) {fuel : Nat} (hfuel : items.length ≤ fuel) :
    separated? item? fuel (commaSeparated (items.map text) ++ rest) =
      some (items.map value, rest) := by
  induction items generalizing fuel with
  | nil => exact absurd rfl hne
  | cons item items ih =>
      obtain ⟨fuel, rfl⟩ := Nat.exists_eq_add_one.mpr (Nat.zero_lt_of_lt hfuel)
      by_cases hnil : items = []
      · subst hnil
        rw [List.map_singleton, commaSeparated_singleton, separated?, hlast item List.mem_cons_self]
        simp only [Option.bind_eq_bind, Option.bind_some, hrest, List.map_singleton]
      · have hlater := ih hnil (fun item hmem => hcomma item (List.mem_cons_of_mem _ hmem))
          (fun item hmem => hlast item (List.mem_cons_of_mem _ hmem)) (Nat.le_of_succ_le_succ hfuel)
        rw [List.map_cons, commaSeparated_cons (by simpa using hnil), List.append_assoc, separated?,
          List.cons_append, hcomma item List.mem_cons_self]
        simp only [Option.bind_eq_bind, Option.bind_some, List.cons_append, after?, if_true, hlater,
          List.map_cons]

/-- The length of the text is enough fuel. -/
theorem separated?_whole {ι α : Type} {item? : List Char → Option (α × List Char)}
    {text : ι → List Char} {value : ι → α} {items : List ι} (hne : items ≠ []) {c : Char}
    {rest : List Char}
    (hcomma : ∀ item ∈ items, ∀ later,
      item? (text item ++ ',' :: later) = some (value item, ',' :: later))
    (hlast : ∀ item ∈ items, item? (text item ++ c :: rest) = some (value item, c :: rest))
    (hrest : after? [',', ' '] (c :: rest) = none) :
    separated? item? (commaSeparated (items.map text) ++ c :: rest).length
      (commaSeparated (items.map text) ++ c :: rest) = some (items.map value, c :: rest) := by
  refine separated?_append hne hcomma hlast hrest ?_
  have := length_le_length_commaSeparated (items.map text)
  simp only [List.length_map, List.length_append, List.length_cons] at this ⊢
  omega

theorem quoted?_append {text : List Char} {content : String} (h : QuotedAs text content)
    (rest : List Char) : quoted? (text ++ rest) = some (content, rest) := by
  obtain ⟨inner, rfl, hread⟩ := h
  rw [List.cons_append, quoted?, hread rest]
  rfl

section Fields

variable {value? : List Char → Option (Tree × List Char)} {fields : List WrittenField}

theorem field?_append {written : WrittenField} (hname : QuotedAs written.name written.field.name)
    (hvalue : ∀ rest, Ended rest →
      value? (written.value ++ rest) = some (written.field.value, rest))
    {rest : List Char} (hrest : Undotted rest) :
    field? value? (written.text ++ rest) = some (written.field, rest) := by
  obtain ⟨nameText, valueText, name, optional, value⟩ := written
  simp only [WrittenField.text, List.append_assoc, List.cons_append, field?, quoted?_append hname,
    Option.bind_eq_bind, Option.bind_some, after?, if_true]
  cases optional with
  | true =>
      have hmark : after? optionalMark (optionalMark ++ rest) = some rest := rfl
      simp only [if_true, hvalue _ (.inr ⟨rest, rfl⟩), Option.bind_some, hmark]
  | false =>
      have hmark : after? optionalMark rest = none := hrest.after?_eq_none _
      simp only [Bool.false_eq_true, if_false, List.nil_append, hvalue rest (.inl hrest),
        Option.bind_some, hmark]

theorem fields?_append
    (hnames : ∀ written ∈ fields, QuotedAs written.name written.field.name)
    (hvalues : ∀ written ∈ fields, ∀ rest, Ended rest →
      value? (written.value ++ rest) = some (written.field.value, rest)) (rest : List Char) :
    ∃ inner, objectCall (fields.map WrittenField.text) ++ rest = "z.object(\x7b".toList ++ inner ∧
      fields? value? inner = some (fields.map WrittenField.field, rest) := by
  by_cases hnil : fields = []
  · subst hnil
    exact ⟨'\x7d' :: ')' :: rest, rfl, rfl⟩
  · have hempty : (fields.map WrittenField.text).isEmpty = false := by
      rw [List.isEmpty_eq_false_iff]
      simpa using hnil
    have hcomma : ∀ written ∈ fields, ∀ later, field? value? (written.text ++ ',' :: later) =
        some (written.field, ',' :: later) := fun written hmem later =>
      field?_append (hnames written hmem) (hvalues written hmem) (undotted_cons (by decide) _)
    have hlast : ∀ written ∈ fields, field? value? (written.text ++ ' ' :: '\x7d' :: ')' :: rest) =
        some (written.field, ' ' :: '\x7d' :: ')' :: rest) := fun written hmem =>
      field?_append (hnames written hmem) (hvalues written hmem) (undotted_cons (by decide) _)
    have hread := separated?_whole hnil hcomma hlast rfl
    refine ⟨' ' :: (commaSeparated (fields.map WrittenField.text) ++ ' ' :: '\x7d' :: ')' :: rest),
      by simp [objectCall, hempty, call], ?_⟩
    simp only [fields?, after?, Char.reduceEq, if_false, if_true, Option.bind_eq_bind,
      Option.bind_some, hread]

end Fields

section Calls

variable {function : String} {argument : List Char}

theorem length_lt_call : argument.length < (call function argument).length := by
  simp only [call, List.length_append, List.length_cons]
  omega

theorem length_lt_listCall {arguments : List (List Char)} (hmem : argument ∈ arguments) :
    argument.length < (listCall function arguments).length := by
  have hargument := length_le_commaSeparated hmem
  simp only [listCall, call, List.length_append, List.length_cons]
  omega

theorem length_lt_objectCall {fields : List WrittenField} {written : WrittenField}
    (hmem : written ∈ fields) :
    written.value.length < (objectCall (fields.map WrittenField.text)).length := by
  have hempty : (fields.map WrittenField.text).isEmpty = false := by
    rw [List.isEmpty_eq_false_iff]
    exact List.ne_nil_of_mem (List.mem_map_of_mem hmem)
  have hfield := length_le_commaSeparated (List.mem_map_of_mem (f := WrittenField.text) hmem)
  simp only [objectCall, call, hempty, WrittenField.text, List.length_append,
    List.length_cons, Bool.false_eq_true, if_false] at hfield ⊢
  omega

end Calls

/-- The text is read as the tree, whatever follows it. -/
def ReadAs (text : List Char) (tree : Tree) : Prop :=
  ∀ fuel, text.length < fuel → ∀ rest, Ended rest → readTree fuel (text ++ rest) = some (tree, rest)

theorem readAs_of_succ {text : List Char} {tree : Tree}
    (h : ∀ fuel, text.length ≤ fuel → ∀ rest, Ended rest →
      readTree (fuel + 1) (text ++ rest) = some (tree, rest)) : ReadAs text tree := by
  intro fuel hlt rest hrest
  obtain ⟨fuel, rfl⟩ := Nat.exists_eq_add_one.mpr (Nat.zero_lt_of_lt hlt)
  exact h fuel (Nat.le_of_lt_succ hlt) rest hrest

theorem readTree_head {word : List Char} (head : Head) (h : (word, head) ∈ heads) (fuel : Nat)
    (rest : List Char) :
    readTree (fuel + 1) (word ++ rest) = readBody (readTree fuel) head rest := by
  rw [readTree, head?_append h]
  rfl

/-- A call that begins with a word and closes its parenthesis is read as its head says. -/
theorem readTree_call {function : String} (head : Head)
    (h : (function.toList ++ ['('], head) ∈ heads) (fuel : Nat) (argument rest : List Char) :
    readTree (fuel + 1) (call function argument ++ rest) =
      readBody (readTree fuel) head (argument ++ ')' :: rest) := by
  rw [← readTree_head head h]
  simp [call]

/-- The same for a call with one list. -/
theorem readTree_listCall {function : String} (head : Head)
    (h : (function.toList ++ ['(', '['], head) ∈ heads) (fuel : Nat) (arguments : List (List Char))
    (rest : List Char) :
    readTree (fuel + 1) (listCall function arguments ++ rest) =
      readBody (readTree fuel) head (commaSeparated arguments ++ ']' :: ')' :: rest) := by
  rw [← readTree_head head h]
  simp [listCall, call]

theorem readAs_string : ReadAs "z.string()".toList (.string none) := by
  refine readAs_of_succ fun fuel _ rest hrest => ?_
  rw [readTree_head .string (by simp [heads]), readBody, hrest.format?_eq_none]

theorem readAs_formatted (format : Format) :
    ReadAs ("z.string()".toList ++ (formatCall format).toList) (.string (some format)) := by
  refine readAs_of_succ fun fuel _ rest _ => ?_
  rw [List.append_assoc, readTree_head .string (by simp [heads]), readBody, format?_append]

theorem readAs_number : ReadAs "z.number()".toList .number := by
  refine readAs_of_succ fun fuel _ rest hrest => ?_
  rw [readTree_head .number (by simp [heads]), readBody, hrest.after?_eq_none _ (by decide)]

theorem readAs_literal {text : List Char} (h : JsonText text) :
    ReadAs (call "z.literal" text) (.literal text) := by
  refine readAs_of_succ fun fuel _ rest _ => ?_
  rw [readTree_call .literal (by simp [heads]), readBody,
    h.untilClosing?_append rest (Nat.lt_succ_self _)]
  rfl

theorem readAs_enumeration {texts : List (List Char × String)} (hne : texts ≠ [])
    (h : ∀ text ∈ texts, QuotedAs text.1 text.2) :
    ReadAs (listCall "z.enum" (texts.map Prod.fst)) (.enumeration (texts.map Prod.snd)) := by
  refine readAs_of_succ fun fuel _ rest _ => ?_
  have hread := separated?_whole hne (fun text hmem later => quoted?_append (h text hmem) _)
    (fun text hmem => quoted?_append (h text hmem) (']' :: ')' :: rest)) rfl
  rw [readTree_listCall .enumeration (by simp [heads]), readBody, hread]
  rfl

theorem readAs_union {members : List (List Char × Tree)} (hlength : 2 ≤ members.length)
    (h : ∀ member ∈ members, ReadAs member.1 member.2) :
    ReadAs (listCall "z.union" (members.map Prod.fst)) (.union (members.map Prod.snd)) := by
  refine readAs_of_succ fun fuel hle rest _ => ?_
  have hne : members ≠ [] := List.ne_nil_of_length_pos (by omega)
  have hmember : ∀ member ∈ members, ∀ rest, Ended rest →
      readTree fuel (member.1 ++ rest) = some (member.2, rest) := fun member hmem =>
    h member hmem fuel (Nat.lt_of_lt_of_le (length_lt_listCall (List.mem_map_of_mem hmem)) hle)
  have hread := separated?_whole hne
    (fun member hmem later => hmember member hmem _ (.inl (undotted_cons (by decide) _)))
    (fun member hmem => hmember member hmem (']' :: ')' :: rest)
      (.inl (undotted_cons (by decide) _))) rfl
  rw [readTree_listCall .union (by simp [heads]), readBody, hread]
  rfl

theorem readAs_array {text : List Char} {items : Tree} (h : ReadAs text items) :
    ReadAs (call "z.array" text) (.array items) := by
  refine readAs_of_succ fun fuel hle rest _ => ?_
  rw [readTree_call .array (by simp [heads]), readBody,
    h fuel (Nat.lt_of_lt_of_le length_lt_call hle) _ (.inl (undotted_cons (by decide) _))]
  rfl

theorem readAs_record {text : List Char} {values : Tree} (h : ReadAs text values) :
    ReadAs (call "z.record" text) (.record values) := by
  refine readAs_of_succ fun fuel hle rest _ => ?_
  rw [readTree_call .record (by simp [heads]), readBody,
    h fuel (Nat.lt_of_lt_of_le length_lt_call hle) _ (.inl (undotted_cons (by decide) _))]
  rfl

section Objects

variable {fields : List WrittenField}
  (hnames : ∀ written ∈ fields, QuotedAs written.name written.field.name)
  (hvalues : ∀ written ∈ fields, ReadAs written.value written.field.value)

include hnames hvalues

/-- The fields are read, and what follows the call is still to be read. -/
theorem readTree_objectCall {fuel : Nat}
    (hle : (objectCall (fields.map WrittenField.text)).length ≤ fuel) (rest : List Char) :
    ∃ inner, objectCall (fields.map WrittenField.text) ++ rest = "z.object(\x7b".toList ++ inner ∧
      fields? (readTree fuel) inner = some (fields.map WrittenField.field, rest) :=
  fields?_append hnames (fun written hmem => hvalues written hmem fuel
    (Nat.lt_of_lt_of_le (length_lt_objectCall hmem) hle)) rest

theorem readAs_object :
    ReadAs (objectCall (fields.map WrittenField.text))
      (.object (fields.map WrittenField.field)) := by
  refine readAs_of_succ fun fuel hle rest hrest => ?_
  obtain ⟨inner, htext, hread⟩ := readTree_objectCall hnames hvalues hle rest
  rw [htext, readTree_head .object (by simp [heads]), readBody, hread]
  simp only [Option.bind_eq_bind, Option.bind_some,
    hrest.after?_eq_none ".strict()".toList (by decide),
    hrest.after?_eq_none ".catchall(".toList (by decide)]

theorem readAs_strictObject :
    ReadAs (objectCall (fields.map WrittenField.text) ++ ".strict()".toList)
      (.strictObject (fields.map WrittenField.field)) := by
  refine readAs_of_succ fun fuel hle rest _ => ?_
  rw [List.length_append] at hle
  obtain ⟨inner, htext, hread⟩ :=
    readTree_objectCall hnames hvalues (Nat.le_of_add_right_le hle) (".strict()".toList ++ rest)
  rw [List.append_assoc, htext, readTree_head .object (by simp [heads]), readBody, hread]
  rfl

theorem readAs_openObject {text : List Char} {others : Tree} (hothers : ReadAs text others) :
    ReadAs (objectCall (fields.map WrittenField.text) ++ call ".catchall" text)
      (.openObject (fields.map WrittenField.field) others) := by
  refine readAs_of_succ fun fuel hle rest _ => ?_
  rw [List.length_append] at hle
  have hlt : text.length < (call ".catchall" text).length := length_lt_call
  obtain ⟨inner, htext, hread⟩ := readTree_objectCall hnames hvalues
    (Nat.le_of_add_right_le hle) (call ".catchall" text ++ rest)
  have hstrict : after? ".strict()".toList (call ".catchall" text ++ rest) = none := rfl
  have hcatchall : after? ".catchall(".toList (call ".catchall" text ++ rest) =
      some (text ++ ')' :: rest) := by
    simp [call, after?]
  have hread_others := hothers fuel (by omega) (')' :: rest) (.inl (undotted_cons (by decide) _))
  rw [List.append_assoc, htext, readTree_head .object (by simp [heads]), readBody, hread]
  simp only [Option.bind_eq_bind, Option.bind_some, hstrict, hcatchall, hread_others]
  rfl

end Objects

/-- Every sentence is read as the tree that it says, whatever follows it. -/
theorem Sentence.readAs {text : List Char} {tree : Tree} (h : Sentence text tree) :
    ReadAs text tree := by
  induction h with
  | any => exact readAs_of_succ fun _ _ _ _ => rfl
  | never => exact readAs_of_succ fun _ _ _ _ => rfl
  | string => exact readAs_string
  | formatted format => exact readAs_formatted format
  | integer => exact readAs_of_succ fun _ _ _ _ => rfl
  | number => exact readAs_number
  | boolean => exact readAs_of_succ fun _ _ _ _ => rfl
  | null => exact readAs_of_succ fun _ _ _ _ => rfl
  | literal hjson => exact readAs_literal hjson
  | enumeration hne hquoted => exact readAs_enumeration hne hquoted
  | union hlength _ ih => exact readAs_union hlength ih
  | array _ ih => exact readAs_array ih
  | record _ ih => exact readAs_record ih
  | object hnames _ ih => exact readAs_object hnames ih
  | strictObject hnames _ ih => exact readAs_strictObject hnames ih
  | openObject hnames _ _ ih ihothers => exact readAs_openObject hnames ih ihothers

/-- A sentence is read back. -/
theorem Sentence.read? {text : List Char} {tree : Tree} (h : Sentence text tree) :
    Tree.read? text = some tree := by
  have hread := h.readAs (text.length + 1) (Nat.lt_succ_self _) [] (.inl undotted_nil)
  rw [List.append_nil] at hread
  rw [Tree.read?, hread]

/-- A sentence says one tree. -/
theorem Sentence.unique {text : List Char} {tree other : Tree} (h : Sentence text tree)
    (hother : Sentence text other) : tree = other :=
  Option.some.inj (h.read?.symm.trans hother.read?)

end RequestShapes.Zod
