import RequestShapes.Endpoint.Module
import RequestShapes.Proofs.Schema.Forms
import RequestShapes.Proofs.Schema.Lifts

/-!
# What a component declares

A component is synthesized in steps that may each fail. When all of them
succeed, its segments declare one constant for every definition of the schema of
its sample and then one for the root, each with the expression of its marked
node.
-/

namespace RequestShapes.Zod

open Text

/-! ## The text of a declaration -/

theorem getLast?_call (function : String) (argument : List Char) :
    (call function argument).getLast? = some ')' := by
  rw [call, ← List.cons_append, ← List.append_assoc, List.getLast?_concat]

/-- The text of an expression ends with a closing parenthesis. -/
theorem Expr.getLast?_text (expr : Expr) : expr.text.getLast? = some ')' := by
  have happend {before after : List Char} (h : after.getLast? = some ')') :
      (before ++ after).getLast? = some ')' := by
    rw [List.getLast?_append, h, Option.some_or]
  rw [Expr.text.eq_def]
  cases expr with
  | string format =>
      cases format with
      | none => rfl
      | some format => cases format <;> exact happend rfl
  | literal | enumeration | union | array | record | object => exact getLast?_call _ _
  | strictObject => exact happend rfl
  | openObject => exact happend (getLast?_call _ _)
  | _ => rfl

theorem trim_lines {first last : Char} {text : List Char} (hfirst : text.head? = some first)
    (hlast : text.getLast? = some last) (hblank : isBlank first = false)
    (hblank' : isBlank last = false) : trim ('\n' :: (text ++ ['\n'])) = text := by
  have hnewline : isBlank '\n' = true := by decide
  obtain ⟨rest, rfl⟩ := List.head?_eq_some_iff.mp hfirst
  obtain ⟨before, hbefore⟩ := List.getLast?_eq_some_iff.mp hlast
  have hdrop : dropBlank ('\n' :: (first :: rest ++ ['\n'])) = first :: rest ++ ['\n'] := by
    simp [dropBlank, hnewline, hblank]
  rw [trim, hdrop, hbefore]
  simp [dropBlank, hnewline, hblank']

theorem dropImport_importLine (text : List Char) :
    dropImport (importLine.toList ++ '\n' :: text) = text := rfl

/-- What is kept of the source of a constant is its declaration. -/
theorem segmentOf_moduleSource {schema : Json} {expr : Expr} (h : Expr.ofSchema schema = .ok expr)
    (name : String) :
    (moduleSource schema name {}).map segmentOf = .ok (constantDeclaration name expr) := by
  have hsource : moduleSource schema name {} =
      .ok (importLine ++ "\n" ++ "" ++ "\n" ++ constantDeclaration name expr ++ "\n") := by
    rw [moduleSource, h]
    rfl
  have htext : (constantDeclaration name expr).toList =
      "export const ".toList ++ (name.toList ++ (" = ".toList ++ expr.text)) := by
    simp [constantDeclaration]
  have hfirst : (constantDeclaration name expr).toList.head? = some 'e' := by
    rw [htext]
    rfl
  have hlast : (constantDeclaration name expr).toList.getLast? = some ')' := by
    rw [htext]
    simp only [List.getLast?_append, expr.getLast?_text, Option.some_or]
  have hlines : (importLine ++ "\n" ++ "" ++ "\n" ++ constantDeclaration name expr ++ "\n").toList =
      importLine.toList ++ '\n' :: '\n' :: ((constantDeclaration name expr).toList ++ ['\n']) := by
    simp
  rw [hsource, Except.map, segmentOf, hlines, dropImport_importLine,
    trim_lines hfirst hlast (by decide) (by decide), String.ofList_toList]

end RequestShapes.Zod

namespace RequestShapes.Endpoint

open Schema (bind_eq_ok ok_bind)

/-! ## The steps of a component -/

theorem integerFits_one : integerFits 1 = true := by
  rw [integerFits, Nat.pow_eq]
  exact decide_eq_true (Nat.one_lt_pow (by decide) (by decide))

/-- The schema of a sample, with every nested shape in a definition of its own. -/
def sampleSchema (base : String) (sample : Json) (reserved : List String) :
    Except Schema.Fault Json := do
  Schema.lift (← Schema.inlineRoot (← Schema.draft base [sample])) base reserved

/-- The constants that a schema declares under a type name, with their marked
nodes. -/
def declaredNodes (base : String) (schema : Json) : List (String × Json) :=
  markedNodes (Schema.constantsOf (Schema.definitionsOf schema)) (Schema.definitionsOf schema)
    (Identifier.schemaConstant base) (schema.erase "definitions")

/-- The types that a schema declares under a type name. -/
def declaredTypes (base : String) (schema : Json) : List String :=
  (Table.names (Schema.definitionsOf schema)).map Identifier.pascalCase ++ [base]

/-- A segment declares a constant with the expression of its node. -/
def Declares (entry : String × Json) (segment : String) : Prop :=
  ∃ expr, Zod.Expr.ofSchema entry.2 = .ok expr ∧
    segment = Zod.constantDeclaration entry.1 expr

theorem mapM_eq_ok_iff {α β ε : Type} {f : α → Except ε β} {items : List α} {results : List β} :
    items.mapM f = .ok results ↔ List.Forall₂ (fun item result => f item = .ok result) items results := by
  induction items generalizing results with
  | nil =>
      rw [List.mapM_nil, List.forall₂_nil_left_iff]
      exact ⟨fun h => (Except.ok.inj h).symm, fun h => h ▸ rfl⟩
  | cons item items ih =>
      rw [List.mapM_cons, List.forall₂_cons_left_iff]
      constructor
      · intro h
        obtain ⟨first, hfirst, h⟩ := bind_eq_ok h
        obtain ⟨rest, hrest, h⟩ := bind_eq_ok h
        exact ⟨first, rest, hfirst, ih.mp hrest, (Except.ok.inj h).symm⟩
      · rintro ⟨first, rest, hfirst, hrest, rfl⟩
        rw [hfirst, ih.mpr hrest]
        rfl

theorem mapError_eq_ok {α ε ε' : Type} {f : ε → ε'} {result : Except ε α} {value : α} :
    result.mapError f = .ok value ↔ result = .ok value := by
  cases result <;> simp [Except.mapError]

/-- A node is declared if it has an expression. -/
theorem source_eq_ok {entry : String × Json} {segment : String} :
    ((Synthesizer.standard.source entry.2 entry.1).map Zod.segmentOf).mapError Fault.render =
      .ok segment ↔ Declares entry segment := by
  rw [mapError_eq_ok]
  change (Zod.moduleSource entry.2 entry.1 {}).map Zod.segmentOf = .ok segment ↔ _
  constructor
  · intro h
    cases hexpr : Zod.Expr.ofSchema entry.2 with
    | error fault =>
        rw [Zod.moduleSource, hexpr] at h
        cases h
    | ok expr =>
        rw [Zod.segmentOf_moduleSource hexpr] at h
        exact ⟨expr, hexpr, (Except.ok.inj h).symm⟩
  · rintro ⟨expr, hexpr, rfl⟩
    exact Zod.segmentOf_moduleSource hexpr entry.1

theorem sampleSchema_eq_ok {base : String} {sample : Json} {reserved : List String}
    {schema : Json} : sampleSchema base sample reserved = .ok schema ↔
      ∃ draft inlined, Schema.draft base [sample] = .ok draft ∧
        Schema.inlineRoot draft = .ok inlined ∧ Schema.lift inlined base reserved = .ok schema := by
  constructor
  · intro h
    obtain ⟨draft, hdraft, h⟩ := bind_eq_ok h
    obtain ⟨inlined, hinlined, hlift⟩ := bind_eq_ok h
    exact ⟨draft, inlined, hdraft, hinlined, hlift⟩
  · rintro ⟨draft, inlined, hdraft, hinlined, hlift⟩
    rw [sampleSchema, hdraft, ok_bind, hinlined, ok_bind, hlift]

/-- The component of a sample that says something. -/
theorem component_eq_ok {name : String} {sample : Json} {reserved : List String}
    {component : Component} (hsample : isBlankSample sample = false) :
    Synthesizer.standard.component name sample reserved = .ok component ↔
      sample.writable = true ∧ ∃ schema,
        sampleSchema (Identifier.pascalCase name) sample reserved = .ok schema ∧
        List.Forall₂ Declares (declaredNodes (Identifier.pascalCase name) schema)
          component.segments ∧
        component.typeNames = declaredTypes (Identifier.pascalCase name) schema ∧
        component.typeExports = List.zipWith typeExport component.typeNames
          ((declaredNodes (Identifier.pascalCase name) schema).map Prod.fst) := by
  rw [Synthesizer.component, if_neg (by simp [hsample])]
  by_cases hwritable : sample.writable = true
  · rw [if_pos hwritable]
    constructor
    · intro h
      obtain ⟨draft, hdraft, h⟩ := bind_eq_ok h
      obtain ⟨inlined, hinlined, h⟩ := bind_eq_ok h
      obtain ⟨schema, hschema, h⟩ := bind_eq_ok h
      obtain ⟨segments, hsegments, h⟩ := bind_eq_ok h
      rw [mapError_eq_ok] at hdraft hinlined hschema
      obtain rfl := Except.ok.inj h
      exact ⟨hwritable, schema, sampleSchema_eq_ok.mpr ⟨draft, inlined, hdraft, hinlined, hschema⟩,
        (mapM_eq_ok_iff.mp hsegments).imp fun _ _ => source_eq_ok.mp, rfl, rfl⟩
    · rintro ⟨_, schema, hschema, hsegments, htypes, hexports⟩
      obtain ⟨draft, inlined, hdraft, hinlined, hlift⟩ := sampleSchema_eq_ok.mp hschema
      have hmapped := mapM_eq_ok_iff.mpr (hsegments.imp fun _ _ => source_eq_ok.mpr)
      replace hdraft : (Synthesizer.standard.draft (Identifier.pascalCase name) sample).mapError
          Fault.schema = .ok draft := mapError_eq_ok.mpr hdraft
      replace hinlined : (Schema.inlineRoot draft).mapError Fault.schema = .ok inlined :=
        mapError_eq_ok.mpr hinlined
      replace hlift : (Schema.lift inlined (Identifier.pascalCase name) reserved).mapError
          Fault.schema = .ok schema := mapError_eq_ok.mpr hlift
      simp only [declaredNodes] at hmapped
      simp only [hdraft, hinlined, hlift, hmapped, ok_bind]
      rw [htypes] at hexports
      exact congrArg Except.ok (congr (congrArg (Component.mk _) hexports.symm) htypes.symm)
  · rw [if_neg hwritable]
    refine ⟨fun h => ?_, fun h => absurd h.1 hwritable⟩
    obtain ⟨_, h, _⟩ := bind_eq_ok h
    cases h

theorem component_blank {name : String} {sample : Json} {reserved : List String}
    (hsample : isBlankSample sample = true) :
    Synthesizer.standard.component name sample reserved = .ok ⟨[], [], []⟩ := by
  rw [Synthesizer.component, if_pos hsample]
  rfl

/-! ## The module of a document -/

/-- A document has a module if its components declare something. -/
theorem build_eq_some {settings : Settings} {document : Request.Document} {module : Module} :
    Module.build settings document = .ok (some module) ↔ ∃ all,
      components .standard (baseName settings document) document = .ok all ∧
      all.flatMap Component.segments ≠ [] ∧
      module = {
        filename := baseName settings document ++ settings.extension
        segments := all.flatMap Component.segments
        typeExports := all.flatMap Component.typeExports
        importLine := settings.importLine } := by
  rw [Module.build]
  constructor
  · intro h
    obtain ⟨all, hall, h⟩ := bind_eq_ok h
    refine ⟨all, hall, ?_⟩
    by_cases hempty : (all.flatMap Component.segments).isEmpty = true
    · rw [if_pos hempty] at h
      cases h
    · rw [if_neg hempty] at h
      exact ⟨fun heq => hempty (by rw [heq]; rfl), (Option.some.inj (Except.ok.inj h)).symm⟩
  · rintro ⟨all, hall, hsegments, rfl⟩
    rw [hall, ok_bind, if_neg (by simpa [List.isEmpty_iff] using hsegments)]
    rfl

end RequestShapes.Endpoint
