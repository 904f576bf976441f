import RequestShapes.Proofs.Schema.Marking
import RequestShapes.Zod.Expr

/-!
# What the nodes of a sample denote

Every traced node denotes an expression. The parts of the expression correspond to
the schemas inside of the node, and where a part accepts everything the schema is
the empty one.
-/

namespace RequestShapes.Zod

open Schema

/-! ## Places -/

/-- A turn from a schema to one directly inside of it, or from an expression to
one. -/
inductive Turn where
  | property (name : String)
  | items
  | alternative (index : Nat)
  /-- The schema of all other properties. -/
  | others
deriving DecidableEq, Repr

/-- The hops in a sample that a turn stands for. Alternatives describe what is
found without a further hop. -/
def Turn.hops : Turn → List Hop
  | .property name => [.key name]
  | .items => [.element]
  | .alternative _ | .others => []

/-- A place is reached by one turn after the other. -/
inductive Along {α : Type} (Inner : α → Turn → α → Prop) : α → List Turn → α → Prop
  | here (start : α) : Along Inner start [] start
  | turn {start middle found : α} {turn : Turn} {place : List Turn} : Inner start turn middle →
      Along Inner middle place found → Along Inner start (turn :: place) found

/-- A schema stands directly inside of a node. -/
inductive Inside (node : Json) : Turn → Json → Prop
  | property {properties : List (String × Json)} {name : String} {inner : Json} :
      node.get? "properties" = some (.obj properties) → (name, inner) ∈ properties →
      Inside node (.property name) inner
  | items {inner : Json} : node.get? "items" = some inner → Inside node .items inner
  | alternative {alternatives : List Json} {index : Nat} {inner : Json} :
      choices? node.members = some (.arr alternatives) → alternatives[index]? = some inner →
      Inside node (.alternative index) inner
  | others {inner : Json} : node.get? "additionalProperties" = some inner →
      Inside node .others inner

/-- An expression stands directly inside of another one. -/
inductive Expr.Inside : Expr → Turn → Expr → Prop
  | alternative {members : List Expr} {index : Nat} {inner : Expr} :
      members[index]? = some inner → Expr.Inside (.union members) (.alternative index) inner
  | items (items : Expr) : Expr.Inside (.array items) .items items
  | values (values : Expr) : Expr.Inside (.record values) .others values
  | property {fields : List (Field Expr)} {field : Field Expr} : field ∈ fields →
      Expr.Inside (.object fields) (.property field.name) field.value
  | strictProperty {fields : List (Field Expr)} {field : Field Expr} : field ∈ fields →
      Expr.Inside (.strictObject fields) (.property field.name) field.value
  | openProperty {fields : List (Field Expr)} {others : Expr} {field : Field Expr} :
      field ∈ fields → Expr.Inside (.openObject fields others) (.property field.name) field.value
  | others (fields : List (Field Expr)) (others : Expr) :
      Expr.Inside (.openObject fields others) .others others

/-- A place of an expression accepts everything. -/
def Expr.AnyAt (expr : Expr) (place : List Turn) : Prop := Along Expr.Inside expr place .any

/-- A place of a schema holds the empty schema. -/
def EmptyAt (node : Json) (place : List Turn) : Prop := Along Inside node place .empty

/-! ## Expressions of schemas -/

/-- The schema of a type denotes what its type does. -/
theorem ofSchema_of_type {members : List (String × Json)} (hne : members ≠ [])
    (hconst : Table.get? members "const" = none) (henum : Table.get? members "enum" = none)
    (hchoices : choices? members = none) :
    Expr.ofSchema (.obj members) = ofType members (Table.get? members "type") := by
  cases members with
  | nil => exact absurd rfl hne
  | cons entry rest =>
      rw [Expr.ofSchema]
      · rw [hconst, henum]
        simp only
        split
        next heq => rw [hchoices] at heq; cases heq
        next heq => rw [hchoices] at heq; cases heq
        next => rfl
      · exact fun heq => (by cases heq)

theorem ofSchema_of_choices {members : List (String × Json)} {alternatives : List Json}
    (hconst : Table.get? members "const" = none) (henum : Table.get? members "enum" = none)
    (hchoices : choices? members = some (.arr alternatives)) :
    Expr.ofSchema (.obj members) =
      (ofSchemas alternatives).bind fun exprs => .ok (.ofMembers exprs) := by
  cases members with
  | nil => cases hchoices
  | cons entry rest =>
      rw [Expr.ofSchema]
      · rw [hconst, henum]
        simp only
        split
        next heq =>
          cases hchoices.symm.trans heq
          rfl
        next hnot heq =>
          cases hchoices.symm.trans heq
          exact absurd rfl (hnot _)
        next heq => rw [hchoices] at heq; cases heq
      · exact fun heq => (by cases heq)

/-! ## Expressions that accept nothing at all -/

/-- No place of an expression accepts everything. -/
def Expr.NeverAny (expr : Expr) : Prop := ∀ place, ¬ expr.AnyAt place

theorem Expr.neverAny_of_inside {expr : Expr} (hne : expr ≠ .any)
    (h : ∀ turn inner, Expr.Inside expr turn inner → inner.NeverAny) : expr.NeverAny := by
  intro place hany
  cases hany with
  | here => exact hne rfl
  | turn hinside hrest => exact h _ _ hinside _ hrest

theorem Expr.neverAny_literal (value : Json) : Expr.NeverAny (.literal value) :=
  neverAny_of_inside (by simp) fun _ _ hinside => by cases hinside

/-- An expression of one type that nests no other. -/
inductive Expr.IsLeaf : Expr → Prop
  | string (format : Option Format) : Expr.IsLeaf (.string format)
  | integer : Expr.IsLeaf .integer
  | number : Expr.IsLeaf .number
  | boolean : Expr.IsLeaf .boolean
  | null : Expr.IsLeaf .null

theorem Expr.IsLeaf.neverAny {expr : Expr} (h : expr.IsLeaf) : expr.NeverAny :=
  neverAny_of_inside (by cases h <;> simp) fun _ _ hinside => by cases h <;> cases hinside

section Plain

variable {members rest : List (String × Json)} {type : String}

theorem ofType_ofScalar (harray : type ≠ "array") (hobject : type ≠ "object") :
    ofType members (some (.str type)) = Expr.ofScalar members (some (.str type)) := by
  rw [ofType]
  · exact fun _ heq => (by cases heq)
  · exact fun heq => hobject (Json.str.inj (Option.some.inj heq))
  · exact fun heq => harray (Json.str.inj (Option.some.inj heq))

theorem ofType_null : ofType members (some (.str "null")) = .ok .null :=
  ofType_ofScalar (by decide) (by decide)

theorem ofType_scalar (h : Scalar type rest)
    (hformat : Table.get? members "format" = Table.get? rest "format") :
    ∃ expr, ofType members (some (.str type)) = .ok expr ∧ expr.IsLeaf := by
  rw [ofType_ofScalar (by rintro rfl; exact absurd h.mem (by decide))
    (by rintro rfl; exact absurd h.mem (by decide))]
  cases h with
  | plain hmem =>
      simp only [List.mem_cons, List.not_mem_nil, or_false] at hmem
      rcases hmem with rfl | rfl | rfl | rfl
      · exact ⟨.boolean, rfl, .boolean⟩
      · exact ⟨.integer, rfl, .integer⟩
      · exact ⟨.number, rfl, .number⟩
      · exact ⟨.string none, by rw [Expr.ofScalar, hformat]; rfl, .string none⟩
  | format format =>
      exact ⟨.string (Format.ofName? format.name), by rw [Expr.ofScalar, hformat]; rfl, .string _⟩

theorem ofType_nullable (h : Scalar type rest)
    (hformat : Table.get? members "format" = Table.get? rest "format") :
    ∃ expr, ofType members (some (.arr [.str type, .str "null"])) = .ok (.union [expr, .null]) ∧
      expr.IsLeaf := by
  obtain ⟨expr, hexpr, hleaf⟩ := ofType_scalar h hformat
  refine ⟨expr, ?_, hleaf⟩
  rw [ofType, ofTypes, hexpr, ofTypes, ofType_null, ofTypes]
  rfl

end Plain

/-! ## Traced nodes -/

/-- Members hold what a node holds, but for the dialect. -/
def LooksLike (members : List (String × Json)) (node : Json) : Prop :=
  ∀ name, name ≠ "$schema" → Table.get? members name = node.get? name

theorem looksLike_self (members : List (String × Json)) : LooksLike members (.obj members) :=
  fun _ _ => rfl

theorem looksLike_declared {root : Json} (hobject : root.isObject = true) :
    LooksLike (("$schema", .str dialect) :: root.members) root :=
  fun _ hname => get?_declared hobject hname

/-- A node denotes an expression. Where a place of it accepts everything the schema
in the same place is empty, and stands for the items of arrays that have none. -/
def Rendered (sample : Json) (hops : List Hop) (node : Json) : Prop :=
  ∃ expr, Expr.ofSchema node = .ok expr ∧ ∀ place, expr.AnyAt place → EmptyAt node place ∧
    ∃ outer, hops ++ place.flatMap Turn.hops = outer ++ [.element] ∧ EmptyArraysAt sample outer

section Nodes

variable {sample : Json} {hops : List Hop} {members : List (String × Json)}

theorem rendered_empty {outer : List Hop} (h : EmptyArraysAt sample outer) :
    Rendered sample (outer ++ [.element]) .empty := by
  refine ⟨.any, by rw [Json.empty, Expr.ofSchema], fun place hany => ?_⟩
  cases hany with
  | here => exact ⟨.here _, outer, by simp, h⟩
  | turn hinside => cases hinside

theorem rendered_of_neverAny {node : Json} {expr : Expr} (hexpr : Expr.ofSchema node = .ok expr)
    (h : expr.NeverAny) : Rendered sample hops node :=
  ⟨expr, hexpr, fun place hany => absurd hany (h place)⟩

theorem LooksLike.ne_nil {node : Json} (h : LooksLike members node) {name : String} {value : Json}
    (hname : name ≠ "$schema") (hget : node.get? name = some value) : members ≠ [] := by
  rintro rfl
  rw [← h name hname] at hget
  cases hget

/-- What a node looks like decides what it denotes. -/
theorem LooksLike.ofSchema {node : Json} (h : LooksLike members node) {type : Json}
    (htype : node.get? "type" = some type)
    (hnone : ∀ name ∈ ["const", "enum", "anyOf", "oneOf"], node.get? name = none) :
    Expr.ofSchema (.obj members) = ofType members (some type) := by
  have hget {name : String} (hmem : name ∈ ["const", "enum", "anyOf", "oneOf"]) :
      Table.get? members name = none := by
    rw [h name, hnone name hmem]
    rintro rfl
    exact absurd hmem (by decide)
  rw [ofSchema_of_type (h.ne_nil (by decide) htype) (hget (by decide)) (hget (by decide)),
    h "type" (by decide), htype]
  rw [choices?, hget (by decide), hget (by decide), Option.or_none]

/-- A plain node denotes a leaf, or a leaf or null. -/
theorem LooksLike.ofSchema_plain {node : Json} (hlike : LooksLike members node) (h : Plain node) :
    ∃ leaf expr, leaf.IsLeaf ∧ Expr.ofSchema (.obj members) = .ok expr ∧
      (expr = leaf ∨ expr = .union [leaf, .null]) := by
  have hformat {type : Json} {rest : List (String × Json)}
      (hlike : LooksLike members (.obj (("type", type) :: rest))) :
      Table.get? members "format" = Table.get? rest "format" := by
    rw [hlike _ (by decide)]
    rfl
  have hnone {type : Json} {name : String} {rest : List (String × Json)} (h : Scalar name rest) :
      ∀ name ∈ ["const", "enum", "anyOf", "oneOf"],
        Json.get? (.obj (("type", type) :: rest)) name = none := by
    cases h <;> simp [Json.get?, Table.get?]
  cases h with
  | null =>
      refine ⟨.null, .null, .null, ?_, .inl rfl⟩
      rw [hlike.ofSchema rfl (by simp [nullType, Schema.ofType, Json.get?, Table.get?]),
        ofType_null]
  | scalar hscalar =>
      obtain ⟨leaf, hexpr, hleaf⟩ := ofType_scalar hscalar (hformat hlike)
      exact ⟨leaf, leaf, hleaf, (hlike.ofSchema rfl (hnone hscalar)).trans hexpr, .inl rfl⟩
  | nullable hscalar =>
      obtain ⟨leaf, hexpr, hleaf⟩ := ofType_nullable hscalar (hformat hlike)
      exact ⟨leaf, _, hleaf, (hlike.ofSchema rfl (hnone hscalar)).trans hexpr, .inr rfl⟩

/-- A marker denotes a literal. -/
theorem LooksLike.ofSchema_marker {constant : String}
    (hlike : LooksLike members (marker constant)) :
    Expr.ofSchema (.obj members) = .ok (.literal (.str (markerLead ++ constant))) := by
  have hconst : Table.get? members "const" = some (.str (markerLead ++ constant)) :=
    hlike "const" (by decide)
  cases members with
  | nil => cases hconst
  | cons entry rest =>
      rw [Expr.ofSchema, hconst]
      exact fun heq => by cases heq

theorem LooksLike.ofSchema_array {items : Json} {expr : Expr}
    (hlike : LooksLike members (ofArray items)) (hexpr : Expr.ofSchema items = .ok expr) :
    Expr.ofSchema (.obj members) = .ok (.array expr) := by
  have hitems : Table.get? members "items" = some items := hlike "items" (by decide)
  have htype : (ofArray items).get? "type" = some (.str "array") := rfl
  rw [hlike.ofSchema htype (by simp [ofArray, Json.get?, Table.get?]), ofType]
  split
  next heq => rw [hitems] at heq; cases heq
  next heq =>
    cases hitems.symm.trans heq
    rw [hexpr]
    rfl

theorem LooksLike.choices {alternatives : List Json}
    (hlike : LooksLike members (anyOf alternatives)) :
    choices? members = some (.arr alternatives) := by
  rw [choices?, hlike "anyOf" (by decide)]
  rfl

theorem LooksLike.ofSchema_anyOf {alternatives : List Json} {exprs : List Expr}
    (hlike : LooksLike members (anyOf alternatives)) (hexprs : ofSchemas alternatives = .ok exprs)
    (hlength : 2 ≤ exprs.length) : Expr.ofSchema (.obj members) = .ok (.union exprs) := by
  rw [ofSchema_of_choices (hlike "const" (by decide)) (hlike "enum" (by decide)) hlike.choices,
    hexprs]
  rcases exprs with - | ⟨first, - | ⟨second, rest⟩⟩
  · simp only [List.length_nil] at hlength
    omega
  · simp only [List.length_nil, List.length_cons] at hlength
    omega
  · rfl

theorem rendered_plain {node : Json} (h : Plain node) (hlike : LooksLike members node) :
    Rendered sample hops (.obj members) := by
  obtain ⟨leaf, expr, hleaf, hexpr, rfl | rfl⟩ := hlike.ofSchema_plain h
  · exact rendered_of_neverAny hexpr hleaf.neverAny
  · refine rendered_of_neverAny hexpr (Expr.neverAny_of_inside (by simp) ?_)
    rintro _ _ (@⟨_, index, inner, hget⟩)
    rcases List.mem_pair.mp (List.mem_of_getElem? hget) with rfl | rfl
    · exact hleaf.neverAny
    · exact Expr.IsLeaf.null.neverAny

theorem rendered_marker {constant : String} (hlike : LooksLike members (marker constant)) :
    Rendered sample hops (.obj members) :=
  rendered_of_neverAny hlike.ofSchema_marker (Expr.neverAny_literal _)

theorem rendered_array {items : Json} (h : Rendered sample (hops ++ [.element]) items)
    (hlike : LooksLike members (ofArray items)) : Rendered sample hops (.obj members) := by
  obtain ⟨expr, hexpr, hplaces⟩ := h
  have hitems : Table.get? members "items" = some items := hlike "items" (by decide)
  refine ⟨.array expr, hlike.ofSchema_array hexpr, fun place hany => ?_⟩
  cases hany with
  | turn hinside hrest =>
      cases hinside
      obtain ⟨hempty, outer, heq, harrays⟩ := hplaces _ hrest
      refine ⟨.turn (.items hitems) hempty, outer, ?_, harrays⟩
      simpa [Turn.hops] using heq

theorem ofSchemas_rendered {nodes : List Json} (h : ∀ node ∈ nodes, Rendered sample hops node) :
    ∃ exprs : List Expr, ofSchemas nodes = .ok exprs ∧ exprs.length = nodes.length ∧
      ∀ (index : Nat) (expr : Expr), exprs[index]? = some expr → ∃ node, nodes[index]? = some node ∧
        ∀ place, expr.AnyAt place → EmptyAt node place ∧ ∃ outer,
          hops ++ place.flatMap Turn.hops = outer ++ [.element] ∧ EmptyArraysAt sample outer := by
  induction nodes with
  | nil => exact ⟨[], by rw [ofSchemas], rfl, fun _ _ hget => by simp at hget⟩
  | cons node rest ih =>
      obtain ⟨⟨expr, hexpr, hplaces⟩, hrest⟩ := List.forall_mem_cons.mp h
      obtain ⟨exprs, hexprs, hlength, hall⟩ := ih hrest
      refine ⟨expr :: exprs, ?_, congrArg (· + 1) hlength, fun index other hget => ?_⟩
      · rw [ofSchemas, hexpr, ok_bind, hexprs, ok_bind]
      · cases index with
        | zero =>
            cases hget
            exact ⟨node, rfl, hplaces⟩
        | succ index => exact hall index other hget

theorem rendered_anyOf {alternatives : List Json} (hlength : 2 ≤ alternatives.length)
    (h : ∀ node ∈ alternatives, Rendered sample hops node)
    (hlike : LooksLike members (anyOf alternatives)) : Rendered sample hops (.obj members) := by
  obtain ⟨exprs, hexprs, hcount, hall⟩ := ofSchemas_rendered h
  refine ⟨.union exprs, hlike.ofSchema_anyOf hexprs (hcount ▸ hlength), fun place hany => ?_⟩
  cases hany with
  | turn hinside hrest =>
      cases hinside with
      | alternative hget =>
          obtain ⟨node, hnode, hplaces⟩ := hall _ _ hget
          obtain ⟨hempty, houter⟩ := hplaces _ hrest
          exact ⟨.turn (.alternative hlike.choices hnode) hempty, houter⟩

theorem ofFields_rendered (required : List Json) {properties : List (String × Json)}
    (h : ∀ entry ∈ properties, Rendered sample (hops ++ [.key entry.1]) entry.2) :
    ∃ fields, ofFields required properties = .ok fields ∧
      ∀ field ∈ fields, ∃ node, (field.name, node) ∈ properties ∧
        ∀ place, field.value.AnyAt place → EmptyAt node place ∧ ∃ outer,
          hops ++ [.key field.name] ++ place.flatMap Turn.hops = outer ++ [.element] ∧
            EmptyArraysAt sample outer := by
  induction properties with
  | nil => exact ⟨[], by rw [ofFields], fun _ hmem => (nomatch hmem)⟩
  | cons entry rest ih =>
      obtain ⟨name, node⟩ := entry
      obtain ⟨⟨expr, hexpr, hplaces⟩, hrest⟩ := List.forall_mem_cons.mp h
      obtain ⟨fields, hfields, hall⟩ := ih hrest
      refine ⟨⟨name, !required.contains (.str name), expr⟩ :: fields, ?_,
        List.forall_mem_cons.mpr ⟨⟨node, List.mem_cons_self, hplaces⟩, fun field hmem => ?_⟩⟩
      · rw [ofFields, hexpr, ok_bind, hfields, ok_bind]
      · obtain ⟨other, hother, hplaces⟩ := hall field hmem
        exact ⟨other, List.mem_cons_of_mem _ hother, hplaces⟩

theorem ofObject_closed (h : Table.get? members "additionalProperties" = some (.bool false)) :
    ofObject members = (ofProperties members).bind fun fields => .ok (.strictObject fields) := by
  rw [ofObject]
  split
  next heq =>
    rw [h] at heq
    cases heq
  next => rfl
  next hnot => exact absurd h hnot

theorem ofProperties_eq {properties : List (String × Json)} {required : List String}
    (hproperties : Table.get? members "properties" = some (.obj properties))
    (hrequired : Table.get? members "required" = some (.arr (required.map .str))) :
    ofProperties members = ofFields (required.map .str) properties := by
  have hnames : requiredNames members = .ok (required.map .str) := by
    have hplain : (required.map Json.str).any Json.isContainer = false := by
      simp [Json.isContainer]
    rw [requiredNames, hrequired]
    simp only [Json.listed?, hplain]
    rfl
  have hodd : hasOddProperties members = false := by
    rw [hasOddProperties, hproperties]
    simp [Json.isObject]
  have hshown : propertiesOf members = properties := by
    rw [propertiesOf, hproperties]
    rfl
  rw [ofProperties, hnames, ok_bind, if_neg (by simp [hodd]), hshown]

theorem LooksLike.ofSchema_object {properties : List (String × Json)} {required : List String}
    {title : String} {fields : List (Field Expr)}
    (hlike : LooksLike members (closedObject properties (.arr (required.map .str)) title))
    (hfields : ofFields (required.map .str) properties = .ok fields) :
    Expr.ofSchema (.obj members) = .ok (.strictObject fields) := by
  have hproperties : Table.get? members "properties" = some (.obj properties) :=
    hlike "properties" (by decide)
  have hrequired : Table.get? members "required" = some (.arr (required.map .str)) :=
    hlike "required" (by decide)
  have hclosed : Table.get? members "additionalProperties" = some (.bool false) :=
    hlike "additionalProperties" (by decide)
  have htype : (closedObject properties (.arr (required.map .str)) title).get? "type" =
      some (.str "object") := rfl
  have hnone : ∀ name ∈ ["const", "enum", "anyOf", "oneOf"],
      (closedObject properties (.arr (required.map .str)) title).get? name = none := by
    intro name hname
    simp only [List.mem_cons, List.not_mem_nil, or_false] at hname
    rcases hname with rfl | rfl | rfl | rfl <;> rfl
  rw [hlike.ofSchema htype hnone, ofType, ofObject_closed hclosed,
    ofProperties_eq hproperties hrequired, hfields]
  rfl

theorem rendered_object {properties : List (String × Json)} {required : List String} {title : String}
    (h : ∀ entry ∈ properties, Rendered sample (hops ++ [.key entry.1]) entry.2)
    (hlike : LooksLike members (closedObject properties (.arr (required.map .str)) title)) :
    Rendered sample hops (.obj members) := by
  obtain ⟨fields, hfields, hall⟩ := ofFields_rendered (required.map .str) h
  have hproperties : Table.get? members "properties" = some (.obj properties) :=
    hlike "properties" (by decide)
  refine ⟨.strictObject fields, hlike.ofSchema_object hfields, fun place hany => ?_⟩
  cases hany with
  | turn hinside hrest =>
      cases hinside with
      | strictProperty hfield =>
          obtain ⟨node, hnode, hplaces⟩ := hall _ hfield
          obtain ⟨hempty, outer, heq, harrays⟩ := hplaces _ hrest
          refine ⟨.turn (.property hproperties hnode) hempty, outer, ?_, harrays⟩
          simpa [Turn.hops] using heq

end Nodes

/-- What holds of all that looks like a node holds of the node. -/
theorem holds_of_looksLike {P : Json → Prop} {node : Json} (hobject : node.isObject = true)
    (h : ∀ {members : List (String × Json)}, LooksLike members node →
      (node.isVacant = true → members = []) → P (.obj members)) : P node := by
  cases node with
  | obj members =>
      refine h (looksLike_self members) fun hvacant => ?_
      cases members with
      | nil => rfl
      | cons => cases hvacant
  | _ => cases hobject

/-- What looks like a traced node denotes an expression. -/
theorem rendered_of_looksLike {constants : List String} {sample : Json} {hops : List Hop}
    {node : Json} (h : Traced (IsMarker constants) sample hops node)
    {members : List (String × Json)} (hlike : LooksLike members node)
    (hempty : node.isVacant = true → members = []) : Rendered sample hops (.obj members) := by
  induction h generalizing members with
  | empty harrays =>
      obtain rfl := hempty rfl
      exact rendered_empty harrays
  | plain hplain => exact rendered_plain hplain hlike
  | stands hmarker =>
      obtain ⟨constant, _, rfl⟩ := hmarker
      exact rendered_marker hlike
  | array hitems ih =>
      exact rendered_array (holds_of_looksLike (hitems.isObject IsMarker.isObject) ih) hlike
  | anyOf hlength halternatives ih =>
      refine rendered_anyOf hlength (fun node hmem => ?_) hlike
      exact holds_of_looksLike ((halternatives node hmem).isObject IsMarker.isObject) (ih node hmem)
  | object hproperties ih =>
      refine rendered_object (fun entry hmem => ?_) hlike
      exact holds_of_looksLike ((hproperties entry hmem).isObject IsMarker.isObject) (ih entry hmem)

/-- Every traced node denotes an expression. -/
theorem rendered_of_traced {constants : List String} {sample : Json} {hops : List Hop}
    {node : Json} (h : Traced (IsMarker constants) sample hops node) : Rendered sample hops node :=
  holds_of_looksLike (h.isObject IsMarker.isObject) (rendered_of_looksLike h)

/-- So does a root, which says what the node in it does. -/
theorem exists_rendered_of_tracedRoot {constants : List String} {sample root : Json}
    (h : TracedRoot (IsMarker constants) sample root) : ∃ hops, Rendered sample hops root := by
  obtain ⟨root, hops, rfl, _, hfilled, htraced⟩ := h
  refine ⟨hops, rendered_of_looksLike htraced
    (looksLike_declared (htraced.isObject IsMarker.isObject)) fun hvacant => ?_⟩
  rw [hfilled] at hvacant
  cases hvacant

end RequestShapes.Zod
