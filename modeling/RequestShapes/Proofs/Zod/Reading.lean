import RequestShapes.Proofs.Zod.Meaning

/-!
# The source of a schema is read back

Whatever a schema names, lists and nests, its source is one line of printable
characters and a sentence of the grammar, and reading it gives the tree that the schema
means: the names as they were before they were quoted, in their order, with what is
optional, what is refused and how texts are checked.
-/

namespace RequestShapes.Zod

open Text Json

/-! ## Printable sources -/

theorem printable_call {function : String} {argument : List Char}
    (hfunction : Printable function.toList) (h : Printable argument) :
    Printable (call function argument) := by
  simp only [call, printable_append, printable_cons]
  exact ⟨hfunction, by decide, h, by decide, printable_nil⟩

theorem printable_listCall {function : String} {arguments : List (List Char)}
    (hfunction : Printable function.toList) (h : ∀ argument ∈ arguments, Printable argument) :
    Printable (listCall function arguments) := by
  refine printable_call hfunction ?_
  simp only [printable_append, printable_cons]
  exact ⟨by decide, printable_commaSeparated h, by decide, printable_nil⟩

theorem printable_objectCall {fields : List (List Char)} (h : ∀ field ∈ fields, Printable field) :
    Printable (objectCall fields) := by
  refine printable_call (by decide) ?_
  split
  · decide
  · simp only [printable_append, printable_cons]
    exact ⟨by decide, by decide, printable_commaSeparated h, by decide, by decide, printable_nil⟩

mutual

theorem Expr.printable_text : (expr : Expr) → Printable expr.text
  | .any => by decide
  | .never => by decide
  | .string none => by decide
  | .string (some format) => by cases format <;> decide
  | .integer => by decide
  | .number => by decide
  | .boolean => by decide
  | .null => by decide
  | .literal value => printable_call (by decide) (Json.printable_text value)
  | .enumeration texts =>
      printable_listCall (by decide)
        (List.forall_mem_map.mpr fun text _ => printable_quotedText text)
  | .union members => printable_listCall (by decide) (printable_memberTexts members)
  | .array items => printable_call (by decide) items.printable_text
  | .record values => printable_call (by decide) values.printable_text
  | .object fields => printable_objectCall (printable_fieldTexts fields)
  | .strictObject fields =>
      printable_append.mpr ⟨printable_objectCall (printable_fieldTexts fields), by decide⟩
  | .openObject fields others =>
      printable_append.mpr ⟨printable_objectCall (printable_fieldTexts fields),
        printable_call (by decide) others.printable_text⟩

theorem printable_memberTexts : (members : List Expr) → ∀ text ∈ memberTexts members, Printable text
  | [] => List.forall_mem_nil _
  | member :: members =>
      List.forall_mem_cons.mpr ⟨member.printable_text, printable_memberTexts members⟩

theorem printable_fieldTexts :
    (fields : List (Field Expr)) → ∀ text ∈ fieldTexts fields, Printable text
  | [] => List.forall_mem_nil _
  | ⟨name, optional, value⟩ :: fields => by
      have hmark : Printable (if optional then ".optional()".toList else []) := by
        cases optional <;> decide
      refine List.forall_mem_cons.mpr ⟨?_, printable_fieldTexts fields⟩
      simp only [printable_append, printable_cons]
      exact ⟨printable_quotedText name, by decide, by decide, value.printable_text, hmark⟩

end

/-! ## Reading a source -/

/-- The source of a schema is a line of printable characters, and a sentence that says
the one tree that the schema means, no other one. That tree is what is read from it. -/
theorem sentence_read_of_ofSchema {schema : Json} {expr : Expr}
    (h : Expr.ofSchema schema = .ok expr) :
    Printable expr.text ∧ ∃ tree, (∀ other, Means (.schema schema) other ↔ other = tree) ∧
      (∀ other, Sentence expr.text other ↔ other = tree) ∧ Tree.read? expr.text = some tree := by
  obtain ⟨tree, hsentence, hmeans⟩ := exists_sentence_of_ofSchema h
  refine ⟨expr.printable_text, tree, hmeans, fun other => ⟨fun hother => ?_, ?_⟩, hsentence.read?⟩
  · exact hother.unique hsentence
  · rintro rfl
    exact hsentence

/-- A schema of objects with one property, whose name closes the quotes and the call
around it, as it seems. -/
def bracketSchema : Json :=
  .obj [("type", .str "object"),
    ("properties", .obj [("\": z.any() \x7d)", .obj [("type", .str "string"),
      ("format", .str "email")])]),
    ("additionalProperties", .bool false)]

/-- What it means. -/
def bracketTree : Tree := .strictObject [⟨"\": z.any() \x7d)", true, .string (some .email)⟩]

theorem means_bracketSchema : Means (.schema bracketSchema) bracketTree := by
  have hproperty : Means (.schema (.obj [("type", .str "string"), ("format", .str "email")]))
      (.string (some .email)) :=
    .typed (List.cons_ne_nil _ _) rfl rfl rfl (@Means.format _ "email" rfl)
  have hproperties : HasProperties bracketSchema.members
      [⟨.obj [("type", .str "string"), ("format", .str "email")],
        "\": z.any() \x7d)", true, .string (some .email)⟩] :=
    ⟨rfl, rfl, [], rfl, List.forall_mem_singleton.mpr rfl⟩
  exact .typed (List.cons_ne_nil _ _) rfl rfl rfl
    (.strictObject rfl hproperties (List.forall_mem_singleton.mpr hproperty))

/-- The name comes back as it was. -/
theorem bracketSchema_read_back :
    ∃ expr, Expr.ofSchema bracketSchema = .ok expr ∧ Tree.read? expr.text = some bracketTree := by
  obtain ⟨expr, hexpr, _⟩ := means_bracketSchema.writtenAs
  obtain ⟨_, tree, hmeans, _, hread⟩ := sentence_read_of_ofSchema hexpr
  rw [(hmeans bracketTree).mp means_bracketSchema]
  exact ⟨expr, hexpr, hread⟩

end RequestShapes.Zod
