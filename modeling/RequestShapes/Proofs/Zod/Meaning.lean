import RequestShapes.Proofs.Zod.Grammar
import RequestShapes.Proofs.Zod.Rendering

/-!
# What schemas mean

The tree that a schema means, keyword by keyword: a constant goes before listed values,
those before alternatives, and alternatives before a type. A schema denotes an
expression exactly if it means a tree, and the text of the expression is a sentence that
says this tree.
-/

namespace RequestShapes.Zod

open Text Json
open Schema (bind_eq_ok)

/-! ## Trees of schemas -/

/-- The union of trees: no member accepts nothing, one stands for itself. -/
def Tree.ofMembers : List Tree → Tree
  | [] => .never
  | [member] => member
  | members => .union members

/-- A property of an object schema: its own schema, and the field that it becomes. -/
structure MeantProperty where
  schema : Json
  field : Field Tree

/-- The properties of an object schema in their order. What is not required is
optional. -/
structure HasProperties (members : List (String × Json)) (properties : List MeantProperty) :
    Prop where
  notOdd : hasOddProperties members = false
  listed : propertiesOf members =
    properties.map fun property => (property.field.name, property.schema)
  optional : ∃ names, requiredNames members = .ok names ∧ ∀ property ∈ properties,
    property.field.optional = !names.contains (.str property.field.name)

/-- The types that have a meaning of their own. -/
def typeNames : List String :=
  ["object", "array", "string", "integer", "number", "boolean", "null"]

/-- What means a tree: a schema, or the members of a schema under a type. -/
inductive Subject where
  | schema (schema : Json)
  | typed (members : List (String × Json)) (type : Option Json)

/-- The schema, or the members under the type, mean the tree. -/
inductive Means : Subject → Tree → Prop
  | everything : Means (.schema (.bool true)) .any
  | nothing : Means (.schema (.bool false)) .never
  | empty : Means (.schema .empty) .any
  | literal {members : List (String × Json)} {value : Json} :
      Table.get? members "const" = some value →
      Means (.schema (.obj members)) (.literal value.text)
  | enumeration {members : List (String × Json)} {values : Json} {texts : List String} :
      Table.get? members "const" = none → Table.get? members "enum" = some values →
      values.listed? = some (texts.map .str) → texts ≠ [] →
      Means (.schema (.obj members)) (.enumeration texts)
  | values {members : List (String × Json)} {values : Json} {items : List Json} :
      Table.get? members "const" = none → Table.get? members "enum" = some values →
      values.listed? = some items → (∀ texts, texts ≠ [] → items ≠ texts.map .str) →
      Means (.schema (.obj members)) (.ofMembers (items.map fun item => .literal item.text))
  | choices {members : List (String × Json)} {schemas : List (Json × Tree)} :
      Table.get? members "const" = none → Table.get? members "enum" = none →
      choices? members = some (.arr (schemas.map Prod.fst)) →
      (∀ schema ∈ schemas, Means (.schema schema.1) schema.2) →
      Means (.schema (.obj members)) (.ofMembers (schemas.map Prod.snd))
  | noChoice {members : List (String × Json)} {value : Json} :
      Table.get? members "const" = none → Table.get? members "enum" = none →
      choices? members = some value → value.listed? = some [] →
      Means (.schema (.obj members)) .never
  | typed {members : List (String × Json)} {tree : Tree} : members ≠ [] →
      Table.get? members "const" = none → Table.get? members "enum" = none →
      choices? members = none → Means (.typed members (Table.get? members "type")) tree →
      Means (.schema (.obj members)) tree
  | several {members : List (String × Json)} {types : List (Json × Tree)} :
      (∀ type ∈ types, Means (.typed members (some type.1)) type.2) →
      Means (.typed members (some (.arr (types.map Prod.fst)))) (.ofMembers (types.map Prod.snd))
  | items {members : List (String × Json)} {items : Json} {tree : Tree} :
      Table.get? members "items" = some items → Means (.schema items) tree →
      Means (.typed members (some (.str "array"))) (.array tree)
  | anyItems {members : List (String × Json)} : Table.get? members "items" = none →
      Means (.typed members (some (.str "array"))) (.array .any)
  | record {members others : List (String × Json)} {values : Tree} :
      Table.get? members "additionalProperties" = some (.obj others) →
      Json.filled? (Table.get? members "properties") = none →
      Means (.schema (.obj others)) values →
      Means (.typed members (some (.str "object"))) (.record values)
  | openObject {members others : List (String × Json)} {properties : List MeantProperty}
      {tree : Tree} : Table.get? members "additionalProperties" = some (.obj others) →
      Json.filled? (Table.get? members "properties") ≠ none → HasProperties members properties →
      (∀ property ∈ properties, Means (.schema property.schema) property.field.value) →
      Means (.schema (.obj others)) tree →
      Means (.typed members (some (.str "object")))
        (.openObject (properties.map MeantProperty.field) tree)
  | strictObject {members : List (String × Json)} {properties : List MeantProperty} :
      Table.get? members "additionalProperties" = some (.bool false) →
      HasProperties members properties →
      (∀ property ∈ properties, Means (.schema property.schema) property.field.value) →
      Means (.typed members (some (.str "object")))
        (.strictObject (properties.map MeantProperty.field))
  | object {members : List (String × Json)} {properties : List MeantProperty} :
      (∀ others, Table.get? members "additionalProperties" = some (.obj others) → False) →
      (Table.get? members "additionalProperties" = some (.bool false) → False) →
      HasProperties members properties →
      (∀ property ∈ properties, Means (.schema property.schema) property.field.value) →
      Means (.typed members (some (.str "object"))) (.object (properties.map MeantProperty.field))
  | format {members : List (String × Json)} {name : String} :
      Table.get? members "format" = some (.str name) →
      Means (.typed members (some (.str "string"))) (.string (Format.ofName? name))
  | string {members : List (String × Json)} :
      (∀ format, Table.get? members "format" = some format →
        format.isContainer = false ∧ ∀ name, format ≠ .str name) →
      Means (.typed members (some (.str "string"))) (.string none)
  | integer (members : List (String × Json)) :
      Means (.typed members (some (.str "integer"))) .integer
  | number (members : List (String × Json)) : Means (.typed members (some (.str "number"))) .number
  | boolean (members : List (String × Json)) :
      Means (.typed members (some (.str "boolean"))) .boolean
  | null (members : List (String × Json)) : Means (.typed members (some (.str "null"))) .null
  | untyped (members : List (String × Json)) {type : Option Json} :
      (∀ name ∈ typeNames, type ≠ some (.str name)) → (∀ types, type ≠ some (.arr types)) →
      Means (.typed members type) .any

/-! ## One keyword -/

theorem texts?_eq_some {values : List Json} {texts : List String} :
    texts? values = some texts ↔ values = texts.map .str := by
  induction values generalizing texts with
  | nil => cases texts <;> simp [texts?]
  | cons value values ih =>
      cases value with
      | str text =>
          rw [texts?, Option.map_eq_some_iff]
          constructor
          · rintro ⟨later, hlater, rfl⟩
            rw [ih.mp hlater]
            rfl
          · intro h
            cases texts with
            | nil => cases h
            | cons first texts =>
                obtain ⟨hfirst, hlater⟩ := List.cons.inj h
                obtain rfl := Json.str.inj hfirst
                exact ⟨texts, ih.mpr hlater, rfl⟩
      | _ => cases texts <;> simp [texts?]

section Members

variable {members : List (String × Json)}

theorem ofSchema_of_const {value : Json} (hconst : Table.get? members "const" = some value) :
    Expr.ofSchema (.obj members) = .ok (.literal value) := by
  cases members with
  | nil => cases hconst
  | cons entry rest =>
      rw [Expr.ofSchema, hconst]
      exact fun heq => by cases heq

theorem ofSchema_of_enum {values : Json} (hconst : Table.get? members "const" = none)
    (henum : Table.get? members "enum" = some values) :
    Expr.ofSchema (.obj members) = Expr.ofEnum values := by
  cases members with
  | nil => cases henum
  | cons entry rest =>
      rw [Expr.ofSchema, hconst, henum]
      exact fun heq => by cases heq

/-- Alternatives that are no array can only be none. -/
theorem ofSchema_of_listed {value : Json} (hconst : Table.get? members "const" = none)
    (henum : Table.get? members "enum" = none) (hchoices : choices? members = some value)
    (hvalue : ∀ schemas, value = .arr schemas → False) :
    Expr.ofSchema (.obj members) =
      match value.listed? with
      | none => .error .misfit
      | some [] => .ok .never
      | some (node :: _) => .error (.unsupported node) := by
  cases members with
  | nil => cases hchoices
  | cons entry rest =>
      rw [Expr.ofSchema, hconst, henum]
      · simp only
        split
        next schemas heq =>
          exact (hvalue schemas (Option.some.inj (hchoices.symm.trans heq))).elim
        next heq =>
          cases hchoices.symm.trans heq
          rfl
        next heq => cases hchoices.symm.trans heq
      · exact fun heq => by cases heq

theorem ofType_object : ofType members (some (.str "object")) = ofObject members := by
  rw [ofType]

theorem ofType_array : ofType members (some (.str "array")) =
    match Table.get? members "items" with
    | none => .ok (.array .any)
    | some items => (Expr.ofSchema items).bind fun items => .ok (.array items) := by
  rw [ofType]
  split
  next heq => rw [heq]
  next heq =>
    rw [heq]
    rfl

theorem ofObject_others {others : List (String × Json)}
    (h : Table.get? members "additionalProperties" = some (.obj others)) :
    ofObject members =
      if (Json.filled? (Table.get? members "properties")).isNone then
        (Expr.ofSchema (.obj others)).bind fun values => .ok (.record values)
      else
        (ofProperties members).bind fun fields =>
          (Expr.ofSchema (.obj others)).bind fun values => .ok (.openObject fields values) := by
  rw [ofObject]
  split
  next found hfound =>
    obtain rfl := Json.obj.inj (Option.some.inj (h.symm.trans hfound))
    rfl
  next hclosed => cases h.symm.trans hclosed
  next hnone _ => exact absurd h (hnone others)

theorem ofObject_plain
    (hothers : ∀ others, Table.get? members "additionalProperties" = some (.obj others) → False)
    (hclosed : Table.get? members "additionalProperties" = some (.bool false) → False) :
    ofObject members = (ofProperties members).bind fun fields => .ok (.object fields) := by
  rw [ofObject]
  split
  next others hothers' => exact (hothers others hothers').elim
  next hclosed' => exact (hclosed hclosed').elim
  next => rfl

end Members

/-! ## What means a tree is written as its sentence -/

/-- There is an expression, and its text is a sentence that says the tree. -/
def WrittenAs (result : Except Fault Expr) (tree : Tree) : Prop :=
  ∃ expr, result = .ok expr ∧ Sentence expr.text tree

/-- Texts of fields, each in a sentence that says its tree. -/
def FieldsWrittenAs (texts : List (List Char)) (fields : List (Field Tree)) : Prop :=
  ∃ written : List WrittenField, texts = written.map WrittenField.text ∧
    fields = written.map WrittenField.field ∧
    (∀ part ∈ written, QuotedAs part.name part.field.name) ∧
    ∀ part ∈ written, Sentence part.value part.field.value

theorem memberTexts_eq_map (members : List Expr) : memberTexts members = members.map Expr.text := by
  induction members with
  | nil => rfl
  | cons member members ih => exact congrArg (member.text :: ·) ih

theorem sentence_string (format : Option Format) :
    Sentence (Expr.string format).text (.string format) := by
  cases format with
  | none => exact .string
  | some format => exact .formatted format

theorem sentence_union {members : List (Expr × Tree)} (hlength : 2 ≤ members.length)
    (h : ∀ member ∈ members, Sentence member.1.text member.2) :
    Sentence (Expr.union (members.map Prod.fst)).text (.union (members.map Prod.snd)) := by
  have hwritten : ∀ written ∈ members.map fun member => (member.1.text, member.2),
      Sentence written.1 written.2 := List.forall_mem_map.mpr h
  have hsentence := Sentence.union (by simpa using hlength) hwritten
  have htext : (Expr.union (members.map Prod.fst)).text =
      listCall "z.union" ((members.map Prod.fst).map Expr.text) :=
    congrArg (listCall "z.union") (memberTexts_eq_map _)
  rw [htext, List.map_map]
  rw [List.map_map, List.map_map] at hsentence
  exact hsentence

theorem sentence_ofMembers {members : List (Expr × Tree)}
    (h : ∀ member ∈ members, Sentence member.1.text member.2) :
    Sentence (Expr.ofMembers (members.map Prod.fst)).text
      (Tree.ofMembers (members.map Prod.snd)) := by
  match members with
  | [] => exact .never
  | [member] => exact h member List.mem_cons_self
  | first :: second :: later => exact sentence_union (by simp) h

theorem sentence_enumeration {texts : List String} (hne : texts ≠ []) :
    Sentence (Expr.enumeration texts).text (.enumeration texts) := by
  have hquoted : ∀ written ∈ texts.map fun text => (quotedText text, text),
      QuotedAs written.1 written.2 :=
    List.forall_mem_map.mpr fun text _ => quotedAs_quotedText text
  have hsentence := Sentence.enumeration (by simpa using hne) hquoted
  have hsame : texts.map (Prod.snd ∘ fun text => (quotedText text, text)) = texts :=
    List.map_id texts
  rw [List.map_map, List.map_map, hsame] at hsentence
  exact hsentence

section Fields

variable {texts : List (List Char)} {fields : List (Field Tree)}

theorem FieldsWrittenAs.object (h : FieldsWrittenAs texts fields) :
    Sentence (objectCall texts) (.object fields) := by
  obtain ⟨written, rfl, rfl, hnames, hvalues⟩ := h
  exact .object hnames hvalues

theorem FieldsWrittenAs.strictObject (h : FieldsWrittenAs texts fields) :
    Sentence (objectCall texts ++ ".strict()".toList) (.strictObject fields) := by
  obtain ⟨written, rfl, rfl, hnames, hvalues⟩ := h
  exact .strictObject hnames hvalues

theorem FieldsWrittenAs.openObject (h : FieldsWrittenAs texts fields) {text : List Char}
    {others : Tree} (hothers : Sentence text others) :
    Sentence (objectCall texts ++ call ".catchall" text) (.openObject fields others) := by
  obtain ⟨written, rfl, rfl, hnames, hvalues⟩ := h
  exact .openObject hnames hvalues hothers

theorem ofFields_writtenAs {names : List Json} {properties : List MeantProperty}
    (hoptional : ∀ property ∈ properties,
      property.field.optional = !names.contains (.str property.field.name))
    (h : ∀ property ∈ properties, WrittenAs (Expr.ofSchema property.schema) property.field.value) :
    ∃ fields, ofFields names
        (properties.map fun property => (property.field.name, property.schema)) = .ok fields ∧
      FieldsWrittenAs (fieldTexts fields) (properties.map MeantProperty.field) := by
  induction properties with
  | nil => exact ⟨[], by rw [List.map_nil, ofFields], [], rfl, rfl, nofun, nofun⟩
  | cons property properties ih =>
      obtain ⟨hfirst, hlater⟩ := List.forall_mem_cons.mp hoptional
      obtain ⟨⟨expr, hexpr, hsentence⟩, hrest⟩ := List.forall_mem_cons.mp h
      obtain ⟨fields, hfields, written, htexts, hwritten, hnames, hvalues⟩ := ih hlater hrest
      refine ⟨⟨property.field.name, property.field.optional, expr⟩ :: fields, ?_,
        ⟨quotedText property.field.name, expr.text, property.field⟩ :: written, ?_, ?_,
        List.forall_mem_cons.mpr ⟨quotedAs_quotedText _, hnames⟩,
        List.forall_mem_cons.mpr ⟨hsentence, hvalues⟩⟩
      · rw [List.map_cons, ofFields, hexpr, hfields, hfirst]
        rfl
      · rw [fieldTexts, htexts]
        rfl
      · rw [List.map_cons, hwritten]
        rfl

theorem HasProperties.writtenAs {members : List (String × Json)} {properties : List MeantProperty}
    (hproperties : HasProperties members properties)
    (h : ∀ property ∈ properties, WrittenAs (Expr.ofSchema property.schema) property.field.value) :
    ∃ fields, ofProperties members = .ok fields ∧
      FieldsWrittenAs (fieldTexts fields) (properties.map MeantProperty.field) := by
  obtain ⟨hodd, hlisted, names, hnames, hoptional⟩ := hproperties
  rw [ofProperties, hnames, hlisted]
  simp only [hodd, Bool.false_eq_true, if_false]
  exact ofFields_writtenAs hoptional h

end Fields

/-- The union of several expressions is written as the union of their trees. -/
theorem members_writtenAs {one : Json → Except Fault Expr}
    {all : List Json → Except Fault (List Expr)} (hnil : all [] = .ok [])
    (hcons : ∀ node nodes, all (node :: nodes) =
      (one node).bind fun expr => (all nodes).bind fun exprs => .ok (expr :: exprs))
    {nodes : List (Json × Tree)} (h : ∀ node ∈ nodes, WrittenAs (one node.1) node.2) :
    ∃ exprs, all (nodes.map Prod.fst) = .ok exprs ∧
      Sentence (Expr.ofMembers exprs).text (.ofMembers (nodes.map Prod.snd)) := by
  have hmembers : ∃ members : List (Expr × Tree),
      all (nodes.map Prod.fst) = .ok (members.map Prod.fst) ∧
      members.map Prod.snd = nodes.map Prod.snd ∧
      ∀ member ∈ members, Sentence member.1.text member.2 := by
    induction nodes with
    | nil => exact ⟨[], hnil, rfl, List.forall_mem_nil _⟩
    | cons node nodes ih =>
        obtain ⟨⟨expr, hexpr, hsentence⟩, hrest⟩ := List.forall_mem_cons.mp h
        obtain ⟨members, hmembers, htrees, hsentences⟩ := ih hrest
        refine ⟨(expr, node.2) :: members, ?_, by rw [List.map_cons, List.map_cons, htrees],
          List.forall_mem_cons.mpr ⟨hsentence, hsentences⟩⟩
        rw [List.map_cons, hcons, hexpr, hmembers]
        rfl
  obtain ⟨members, hmembers, htrees, hsentences⟩ := hmembers
  exact ⟨members.map Prod.fst, hmembers, htrees ▸ sentence_ofMembers hsentences⟩

theorem writtenAs_values {values : Json} {items : List Json} (hlisted : values.listed? = some items)
    (hmixed : ∀ texts, texts ≠ [] → items ≠ texts.map .str) :
    WrittenAs (Expr.ofEnum values) (.ofMembers (items.map fun item => .literal item.text)) := by
  have hliterals : ∀ member ∈ items.map fun item => (Expr.literal item, Tree.literal item.text),
      Sentence member.1.text member.2 :=
    List.forall_mem_map.mpr fun item _ => .literal (jsonText_text item)
  have hsentence := sentence_ofMembers hliterals
  rw [List.map_map, List.map_map] at hsentence
  refine ⟨.ofMembers (items.map .literal), ?_, hsentence⟩
  rw [Expr.ofEnum, hlisted]
  cases items with
  | nil => rfl
  | cons item items =>
      have hnone : texts? (item :: items) = none := by
        refine Option.eq_none_iff_forall_ne_some.mpr fun texts hsome => ?_
        have heq := texts?_eq_some.mp hsome
        exact hmixed texts (by rintro rfl; cases heq) heq
      simp only [hnone]

theorem writtenAs_enumeration {values : Json} {texts : List String}
    (hlisted : values.listed? = some (texts.map .str)) (hne : texts ≠ []) :
    WrittenAs (Expr.ofEnum values) (.enumeration texts) := by
  refine ⟨.enumeration texts, ?_, sentence_enumeration hne⟩
  obtain ⟨text, later, rfl⟩ := List.exists_cons_of_ne_nil hne
  have hsome := texts?_eq_some.mpr (Eq.refl ((text :: later).map Json.str))
  rw [Expr.ofEnum, hlisted]
  simp only [List.map_cons] at hsome ⊢
  simp only [hsome]

/-- The expression that a subject denotes. -/
def Subject.expr : Subject → Except Fault Expr
  | .schema node => Expr.ofSchema node
  | .typed members type => ofType members type

/-- What means a tree denotes an expression, and the text of the expression says the
tree. -/
theorem Means.writtenAs {subject : Subject} {tree : Tree} (h : Means subject tree) :
    WrittenAs subject.expr tree := by
  induction h with
  | everything => exact ⟨.any, by rw [Subject.expr, Expr.ofSchema], .any⟩
  | nothing => exact ⟨.never, by rw [Subject.expr, Expr.ofSchema], .never⟩
  | empty => exact ⟨.any, by rw [Subject.expr, Json.empty, Expr.ofSchema], .any⟩
  | literal hconst => exact ⟨_, ofSchema_of_const hconst, .literal (jsonText_text _)⟩
  | enumeration hconst henum hlisted hne =>
      rw [Subject.expr, ofSchema_of_enum hconst henum]
      exact writtenAs_enumeration hlisted hne
  | values hconst henum hlisted hmixed =>
      rw [Subject.expr, ofSchema_of_enum hconst henum]
      exact writtenAs_values hlisted hmixed
  | choices hconst henum hchoices _ ih =>
      obtain ⟨exprs, hexprs, hsentence⟩ := @members_writtenAs Expr.ofSchema ofSchemas
        (by rw [ofSchemas]) (fun _ _ => by rw [ofSchemas]; rfl) _ ih
      rw [Subject.expr, ofSchema_of_choices hconst henum hchoices, hexprs]
      exact ⟨_, rfl, hsentence⟩
  | @noChoice members value hconst henum hchoices hlisted =>
      -- An empty array is gone through as alternatives, all else that lists nothing is not.
      by_cases harray : ∃ schemas, value = .arr schemas
      · obtain ⟨schemas, rfl⟩ := harray
        obtain rfl := Option.some.inj hlisted
        rw [Subject.expr, ofSchema_of_choices hconst henum hchoices, ofSchemas]
        exact ⟨.never, rfl, .never⟩
      · rw [Subject.expr, ofSchema_of_listed hconst henum hchoices
          (fun schemas heq => harray ⟨schemas, heq⟩), hlisted]
        exact ⟨.never, rfl, .never⟩
  | typed hne hconst henum hchoices _ ih =>
      rw [Subject.expr, ofSchema_of_type hne hconst henum hchoices]
      exact ih
  | @several members types _ ih =>
      obtain ⟨exprs, hexprs, hsentence⟩ := @members_writtenAs (fun type => ofType members (some type))
        (ofTypes members) (by rw [ofTypes]) (fun _ _ => by rw [ofTypes]; rfl) _ ih
      rw [Subject.expr, ofType, hexprs]
      exact ⟨_, rfl, hsentence⟩
  | items hitems _ ih =>
      obtain ⟨expr, hexpr, hsentence⟩ := ih
      rw [Subject.expr] at hexpr
      refine ⟨.array expr, ?_, .array hsentence⟩
      rw [Subject.expr, ofType_array, hitems]
      simp only [hexpr]
      rfl
  | anyItems hitems =>
      refine ⟨.array .any, ?_, .array .any⟩
      rw [Subject.expr, ofType_array, hitems]
  | record hothers hvacant _ ih =>
      obtain ⟨expr, hexpr, hsentence⟩ := ih
      refine ⟨.record expr, ?_, .record hsentence⟩
      rw [Subject.expr] at hexpr
      rw [Subject.expr, ofType_object, ofObject_others hothers, hvacant, hexpr]
      rfl
  | openObject hothers hfilled hproperties _ _ ih ihothers =>
      obtain ⟨fields, hfields, hwritten⟩ := hproperties.writtenAs ih
      obtain ⟨expr, hexpr, hsentence⟩ := ihothers
      refine ⟨.openObject fields expr, ?_, hwritten.openObject hsentence⟩
      rw [Subject.expr] at hexpr
      rw [Subject.expr, ofType_object, ofObject_others hothers,
        if_neg (by simpa using hfilled), hfields, hexpr]
      rfl
  | strictObject hclosed hproperties _ ih =>
      obtain ⟨fields, hfields, hwritten⟩ := hproperties.writtenAs ih
      refine ⟨.strictObject fields, ?_, hwritten.strictObject⟩
      rw [Subject.expr, ofType_object, ofObject_closed hclosed, hfields]
      rfl
  | object hothers hclosed hproperties _ ih =>
      obtain ⟨fields, hfields, hwritten⟩ := hproperties.writtenAs ih
      refine ⟨.object fields, ?_, hwritten.object⟩
      rw [Subject.expr, ofType_object, ofObject_plain hothers hclosed, hfields]
      rfl
  | format hformat =>
      refine ⟨.string _, ?_, sentence_string _⟩
      rw [Subject.expr, ofType_ofScalar (by decide) (by decide), Expr.ofScalar, hformat]
  | string hformat =>
      refine ⟨.string none, ?_, .string⟩
      rw [Subject.expr, ofType_ofScalar (by decide) (by decide), Expr.ofScalar]
      split
      next name heq => exact absurd rfl ((hformat _ heq).2 name)
      next heq => cases (hformat _ heq).1
      next heq => cases (hformat _ heq).1
      next => rfl
  | integer => exact ⟨.integer, @ofType_ofScalar _ "integer" (by decide) (by decide), .integer⟩
  | number => exact ⟨.number, @ofType_ofScalar _ "number" (by decide) (by decide), .number⟩
  | boolean => exact ⟨.boolean, @ofType_ofScalar _ "boolean" (by decide) (by decide), .boolean⟩
  | null => exact ⟨.null, ofType_null, .null⟩
  | untyped members hnames htypes =>
      refine ⟨.any, ?_, .any⟩
      rw [Subject.expr, ofType]
      · unfold Expr.ofScalar
        split
        next => exact absurd rfl (hnames "string" (by decide))
        next => exact absurd rfl (hnames "integer" (by decide))
        next => exact absurd rfl (hnames "number" (by decide))
        next => exact absurd rfl (hnames "boolean" (by decide))
        next => exact absurd rfl (hnames "null" (by decide))
        next => rfl
      · exact htypes
      · exact hnames "object" (by decide)
      · exact hnames "array" (by decide)

/-! ## What denotes an expression means a tree -/

theorem exists_means_of_ofEnum {members : List (String × Json)} {values : Json} {expr : Expr}
    (hconst : Table.get? members "const" = none) (henum : Table.get? members "enum" = some values)
    (h : Expr.ofEnum values = .ok expr) : ∃ tree, Means (.schema (.obj members)) tree := by
  rw [Expr.ofEnum] at h
  cases hlisted : values.listed? with
  | none =>
      rw [hlisted] at h
      cases h
  | some items =>
      by_cases htexts : ∃ texts, texts ≠ [] ∧ items = texts.map .str
      · obtain ⟨texts, hne, rfl⟩ := htexts
        exact ⟨_, .enumeration hconst henum hlisted hne⟩
      · exact ⟨_, .values hconst henum hlisted fun texts hne heq => htexts ⟨texts, hne, heq⟩⟩

theorem exists_means_of_listed {members : List (String × Json)} {value : Json} {expr : Expr}
    (hconst : Table.get? members "const" = none) (henum : Table.get? members "enum" = none)
    (hchoices : choices? members = some value) (hvalue : ∀ schemas, value = .arr schemas → False)
    (h : Expr.ofSchema (.obj members) = .ok expr) :
    ∃ tree, Means (.schema (.obj members)) tree := by
  rw [ofSchema_of_listed hconst henum hchoices hvalue] at h
  split at h
  · cases h
  next hlisted => exact ⟨.never, .noChoice hconst henum hchoices hlisted⟩
  · cases h

theorem exists_means_of_ofScalar {members : List (String × Json)} {type : Option Json} {expr : Expr}
    (harray : type ≠ some (.str "array")) (hobject : type ≠ some (.str "object"))
    (hlist : ∀ types, type ≠ some (.arr types)) (h : Expr.ofScalar members type = .ok expr) :
    ∃ tree, Means (.typed members type) tree := by
  unfold Expr.ofScalar at h
  split at h
  next =>
    split at h
    next hformat => exact ⟨_, .format hformat⟩
    next => cases h
    next => cases h
    next htext hitems hmembers =>
      refine ⟨_, .string fun format hformat => ⟨?_, ?_⟩⟩
      · cases format with
        | arr items => exact absurd hformat (hitems items)
        | obj members => exact absurd hformat (hmembers members)
        | _ => rfl
      · rintro name rfl
        exact htext name hformat
  next => exact ⟨_, .integer members⟩
  next => exact ⟨_, .number members⟩
  next => exact ⟨_, .boolean members⟩
  next => exact ⟨_, .null members⟩
  next hstring hinteger hnumber hboolean hnull =>
    refine ⟨_, .untyped members ?_ hlist⟩
    simp only [typeNames, List.forall_mem_cons]
    exact ⟨hobject, harray, hstring, hinteger, hnumber, hboolean, hnull, List.forall_mem_nil _⟩

/-- A schema that denotes an expression means a tree. -/
theorem exists_means_of_ofSchema : ∀ schema expr, Expr.ofSchema schema = .ok expr →
    ∃ tree, Means (.schema schema) tree := by
  apply Expr.ofSchema.induct
    (fun schema => ∀ expr, Expr.ofSchema schema = .ok expr → ∃ tree, Means (.schema schema) tree)
    (fun members type => ∀ expr, ofType members type = .ok expr →
      ∃ tree, Means (.typed members type) tree)
    (fun members => ∀ expr, ofObject members = .ok expr →
      ∃ tree, Means (.typed members (some (.str "object"))) tree)
    (fun members => ∀ fields, ofProperties members = .ok fields →
      ∃ properties, HasProperties members properties ∧
        ∀ property ∈ properties, Means (.schema property.schema) property.field.value)
    (fun required listed => ∀ fields, ofFields required listed = .ok fields →
      ∃ properties : List MeantProperty,
        listed = (properties.map fun property => (property.field.name, property.schema)) ∧
        (∀ property ∈ properties,
          property.field.optional = !required.contains (.str property.field.name)) ∧
        ∀ property ∈ properties, Means (.schema property.schema) property.field.value)
    (fun members listed => ∀ exprs, ofTypes members listed = .ok exprs →
      ∃ types : List (Json × Tree), listed = types.map Prod.fst ∧
        ∀ type ∈ types, Means (.typed members (some type.1)) type.2)
    (fun listed => ∀ exprs, ofSchemas listed = .ok exprs →
      ∃ schemas : List (Json × Tree), listed = schemas.map Prod.fst ∧
        ∀ schema ∈ schemas, Means (.schema schema.1) schema.2)
  -- In the order of the recursion: schemas up to 11, a type up to 16, objects up to 20, their
  -- properties up to 23, several types, several schemas.
  case case1 => exact fun _ _ => ⟨_, .everything⟩
  case case2 => exact fun _ _ => ⟨_, .nothing⟩
  case case3 => exact fun _ _ => ⟨_, .empty⟩
  case case4 => exact fun members _ value hconst _ _ => ⟨_, .literal hconst⟩
  case case5 =>
    intro members _ values henum hconst expr h
    rw [ofSchema_of_enum hconst henum] at h
    exact exists_means_of_ofEnum hconst henum h
  case case6 =>
    intro members _ henum hconst listed hchoices ih expr h
    rw [ofSchema_of_choices hconst henum hchoices] at h
    obtain ⟨exprs, hexprs, _⟩ := bind_eq_ok h
    obtain ⟨schemas, rfl, hmeans⟩ := ih exprs hexprs
    exact ⟨_, .choices hconst henum hchoices hmeans⟩
  case case7 | case8 =>
    intro members _ henum hconst value hvalue hchoices _ expr h
    exact exists_means_of_listed hconst henum hchoices hvalue h
  case case9 =>
    intro members _ henum hconst value hvalue hchoices _ _ _ expr h
    exact exists_means_of_listed hconst henum hchoices hvalue h
  case case10 =>
    intro members hne henum hconst hchoices ih expr h
    rw [ofSchema_of_type hne hconst henum hchoices] at h
    obtain ⟨tree, hmeans⟩ := ih expr h
    exact ⟨tree, .typed hne hconst henum hchoices hmeans⟩
  case case11 =>
    intro node htrue hfalse hempty hobject expr h
    rw [Expr.ofSchema] at h
    · cases h
    · exact htrue
    · exact hfalse
    · exact hempty
    · exact hobject
  case case12 =>
    intro members listed ih expr h
    rw [ofType] at h
    obtain ⟨exprs, hexprs, _⟩ := bind_eq_ok h
    obtain ⟨types, rfl, hmeans⟩ := ih exprs hexprs
    exact ⟨_, .several hmeans⟩
  case case13 =>
    intro members ih expr h
    rw [ofType] at h
    exact ih expr h
  case case14 => exact fun members hitems _ _ => ⟨_, .anyItems hitems⟩
  case case15 =>
    intro members items hitems ih expr h
    rw [ofType_array, hitems] at h
    obtain ⟨inner, hinner, _⟩ := bind_eq_ok h
    obtain ⟨tree, hmeans⟩ := ih inner hinner
    exact ⟨_, .items hitems hmeans⟩
  case case16 =>
    intro members type hlist hobject harray expr h
    rw [ofType] at h
    · exact exists_means_of_ofScalar harray hobject hlist h
    · exact hlist
    · exact hobject
    · exact harray
  case case17 =>
    intro members others hothers hvacant ih expr h
    rw [ofObject_others hothers, if_pos hvacant] at h
    obtain ⟨inner, hinner, _⟩ := bind_eq_ok h
    obtain ⟨tree, hmeans⟩ := ih inner hinner
    exact ⟨_, .record hothers (Option.isNone_iff_eq_none.mp hvacant) hmeans⟩
  case case18 =>
    intro members others hothers hfilled ihproperties ih expr h
    rw [ofObject_others hothers, if_neg hfilled] at h
    obtain ⟨fields, hfields, h⟩ := bind_eq_ok h
    obtain ⟨inner, hinner, _⟩ := bind_eq_ok h
    obtain ⟨properties, hproperties, hmeant⟩ := ihproperties fields hfields
    obtain ⟨tree, hmeans⟩ := ih inner hinner
    exact ⟨_, .openObject hothers (by simpa using hfilled) hproperties hmeant hmeans⟩
  case case19 =>
    intro members hclosed ih expr h
    rw [ofObject_closed hclosed] at h
    obtain ⟨fields, hfields, _⟩ := bind_eq_ok h
    obtain ⟨properties, hproperties, hmeant⟩ := ih fields hfields
    exact ⟨_, .strictObject hclosed hproperties hmeant⟩
  case case20 =>
    intro members hothers hclosed ih expr h
    rw [ofObject_plain hothers hclosed] at h
    obtain ⟨fields, hfields, _⟩ := bind_eq_ok h
    obtain ⟨properties, hproperties, hmeant⟩ := ih fields hfields
    exact ⟨_, .object hothers hclosed hproperties hmeant⟩
  case case21 =>
    intro members ih fields h
    rw [ofProperties] at h
    obtain ⟨names, hnames, h⟩ := bind_eq_ok h
    split at h
    next => cases h
    next hodd =>
      obtain ⟨properties, hlisted, hoptional, hmeant⟩ := ih names fields h
      exact ⟨properties, ⟨by simpa using hodd, hlisted, names, hnames, hoptional⟩, hmeant⟩
  case case22 => exact fun _ _ _ => ⟨[], rfl, List.forall_mem_nil _, List.forall_mem_nil _⟩
  case case23 =>
    intro required name schema listed ih ihlater fields h
    rw [ofFields] at h
    obtain ⟨value, hvalue, h⟩ := bind_eq_ok h
    obtain ⟨later, hlater, _⟩ := bind_eq_ok h
    obtain ⟨tree, hmeans⟩ := ih value hvalue
    obtain ⟨properties, rfl, hoptional, hmeant⟩ := ihlater later hlater
    exact ⟨⟨schema, name, !required.contains (.str name), tree⟩ :: properties, rfl,
      List.forall_mem_cons.mpr ⟨rfl, hoptional⟩, List.forall_mem_cons.mpr ⟨hmeans, hmeant⟩⟩
  case case24 => exact fun _ _ _ => ⟨[], rfl, List.forall_mem_nil _⟩
  case case25 =>
    intro members type listed ih ihlater exprs h
    rw [ofTypes] at h
    obtain ⟨first, hfirst, h⟩ := bind_eq_ok h
    obtain ⟨later, hlater, _⟩ := bind_eq_ok h
    obtain ⟨tree, hmeans⟩ := ih first hfirst
    obtain ⟨types, rfl, hmeant⟩ := ihlater later hlater
    exact ⟨(type, tree) :: types, rfl, List.forall_mem_cons.mpr ⟨hmeans, hmeant⟩⟩
  case case26 => exact fun _ _ => ⟨[], rfl, List.forall_mem_nil _⟩
  case case27 =>
    intro schema listed ih ihlater exprs h
    rw [ofSchemas] at h
    obtain ⟨first, hfirst, h⟩ := bind_eq_ok h
    obtain ⟨later, hlater, _⟩ := bind_eq_ok h
    obtain ⟨tree, hmeans⟩ := ih first hfirst
    obtain ⟨schemas, rfl, hmeant⟩ := ihlater later hlater
    exact ⟨(schema, tree) :: schemas, rfl, List.forall_mem_cons.mpr ⟨hmeans, hmeant⟩⟩

/-- A schema means one tree, and the text of what it denotes says this tree. -/
theorem exists_sentence_of_ofSchema {schema : Json} {expr : Expr}
    (h : Expr.ofSchema schema = .ok expr) :
    ∃ tree, Sentence expr.text tree ∧ ∀ other, Means (.schema schema) other ↔ other = tree := by
  have hwritten {other : Tree} (hmeans : Means (.schema schema) other) :
      Sentence expr.text other := by
    obtain ⟨found, hfound, hsentence⟩ := hmeans.writtenAs
    obtain rfl := Except.ok.inj (h.symm.trans hfound)
    exact hsentence
  obtain ⟨tree, hmeans⟩ := exists_means_of_ofSchema schema expr h
  refine ⟨tree, hwritten hmeans, fun other => ⟨fun hother => ?_, ?_⟩⟩
  · exact (hwritten hother).unique (hwritten hmeans)
  · rintro rfl
    exact hmeans

end RequestShapes.Zod
