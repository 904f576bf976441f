import RequestShapes.Json.Message
import RequestShapes.Json.Writer
import RequestShapes.Schema.Format

/-!
# Zod expressions

The expressions that build a Zod schema, the expression that a JSON schema
denotes, and its text. A schema denotes an expression unless some node in a
place of a schema is neither a boolean nor an object, or a member that lists
something does not.
-/

namespace RequestShapes.Zod

/-- A property of an object expression. -/
structure Field (α : Type) where
  name : String
  optional : Bool
  value : α

/-- An expression that builds a schema. -/
inductive Expr where
  | any
  | never
  | string (format : Option Format)
  | integer
  | number
  | boolean
  | null
  /-- A literal of any JSON value. -/
  | literal (value : Json)
  /-- One of several texts. -/
  | enumeration (texts : List String)
  | union (members : List Expr)
  | array (items : Expr)
  /-- An object whose values all have one schema. -/
  | record (values : Expr)
  /-- An object that ignores other properties. -/
  | object (fields : List (Field Expr))
  /-- An object that refuses other properties. -/
  | strictObject (fields : List (Field Expr))
  /-- An object whose other properties have a schema of their own. -/
  | openObject (fields : List (Field Expr)) (others : Expr)
deriving Inhabited

/-- Why a schema denotes no expression. -/
inductive Fault where
  /-- A node in the place of a schema that is none. -/
  | unsupported (node : Json)
  /-- The properties of a schema are no object. -/
  | noObject
  /-- A member holds a value of a kind that it cannot hold. -/
  | misfit
deriving DecidableEq

/-- The wording of a fault. -/
def Fault.message : Fault → String
  | unsupported node => "Unsupported schema node: " ++ String.ofList (Json.shown node)
  | noObject => "The properties of a schema are no object"
  | misfit => "A schema member has the wrong kind"

/-- The union of expressions: no member accepts nothing, one stands for
itself. -/
def Expr.ofMembers : List Expr → Expr
  | [] => .never
  | [member] => member
  | members => .union members

/-- The texts among values, if all are texts. -/
def texts? : List Json → Option (List String)
  | [] => some []
  | .str text :: values => (texts? values).map (text :: ·)
  | _ => none

/-- The expression of listed values: an enumeration of texts, or else a union
of literals. -/
def Expr.ofEnum (values : Json) : Except Fault Expr :=
  match values.listed? with
  | none => .error .misfit
  | some [] => .ok .never
  | some items =>
      match texts? items with
      | some texts => .ok (.enumeration texts)
      | none => .ok (.ofMembers (items.map .literal))

/-- The names that an object schema requires. -/
def requiredNames (members : List (String × Json)) : Except Fault (List Json) :=
  match Table.get? members "required" with
  | none => .ok []
  | some value =>
      match value.listed? with
      | none => .error .misfit
      | some names =>
          if names.any Json.isContainer then .error .misfit
          else .ok names

/-- The properties of an object schema; none if they are vacant. -/
def propertiesOf (members : List (String × Json)) : List (String × Json) :=
  ((Table.get? members "properties").map Json.members).getD []

/-- Whether the properties of an object schema hold something else. -/
def hasOddProperties (members : List (String × Json)) : Bool :=
  match Table.get? members "properties" with
  | some value => !value.isVacant && !value.isObject
  | none => false

/-- The expression of a schema whose type nests no schema. An unknown type, or
none, accepts everything. -/
def Expr.ofScalar (members : List (String × Json)) : Option Json → Except Fault Expr
  | some (.str "string") =>
      match Table.get? members "format" with
      | some (.str name) => .ok (.string (Format.ofName? name))
      | some (.arr _) | some (.obj _) => .error .misfit
      | _ => .ok (.string none)
  | some (.str "integer") => .ok .integer
  | some (.str "number") => .ok .number
  | some (.str "boolean") => .ok .boolean
  | some (.str "null") => .ok .null
  | _ => .ok .any

/-- The alternatives of a schema, whether any or one of them has to hold. -/
def choices? (members : List (String × Json)) : Option Json :=
  (Table.get? members "anyOf").or (Table.get? members "oneOf")

theorem sizeOf_choices_lt {members : List (String × Json)} {value : Json}
    (h : choices? members = some value) : sizeOf value < sizeOf members := by
  simp only [choices?, Option.or_eq_some_iff] at h
  rcases h with h | ⟨_, h⟩ <;> exact Json.sizeOf_lt_of_lookup h

theorem sizeOf_propertiesOf_lt (members : List (String × Json)) :
    sizeOf (propertiesOf members) < sizeOf (Json.obj members) := by
  unfold propertiesOf
  cases h : Table.get? members "properties" with
  | none =>
      cases members <;>
        simp only [Option.map_none, Option.getD_none, List.nil.sizeOf_spec,
          List.cons.sizeOf_spec, Json.obj.sizeOf_spec] <;>
        omega
  | some value =>
      have hlt := Json.sizeOf_lt_of_lookup h
      have hpos : 1 ≤ sizeOf members := by omega
      cases value <;>
        simp only [Option.map_some, Option.getD_some, Json.members, List.nil.sizeOf_spec,
          Json.obj.sizeOf_spec] at hlt ⊢ <;>
        omega

mutual

/-- The expression that a schema denotes. -/
def Expr.ofSchema (schema : Json) : Except Fault Expr :=
  match schema with
  | .bool true => .ok .any
  | .bool false => .ok .never
  | .obj [] => .ok .any
  | .obj members =>
      match Table.get? members "const", Table.get? members "enum" with
      | some value, _ => .ok (.literal value)
      | none, some values => Expr.ofEnum values
      | none, none =>
          match _h : choices? members with
          | some (.arr schemas) => do .ok (.ofMembers (← ofSchemas schemas))
          | some other =>
              match other.listed? with
              | none => .error .misfit
              | some [] => .ok .never
              | some (node :: _) => .error (.unsupported node)
          | none => ofType members (Table.get? members "type")
  | node => .error (.unsupported node)
termination_by (sizeOf schema, 1, 0)
decreasing_by
  · have hlt := sizeOf_choices_lt _h
    simp only [Json.arr.sizeOf_spec] at hlt
    exact Prod.Lex.left _ _ (by simp only [Json.obj.sizeOf_spec]; omega)
  · exact Prod.Lex.right _ (Prod.Lex.left _ _ (by omega))

/-- The expressions that schemas denote, the first fault winning. -/
def ofSchemas (schemas : List Json) : Except Fault (List Expr) :=
  match schemas with
  | [] => .ok []
  | schema :: schemas => do
      let expr ← Expr.ofSchema schema
      .ok (expr :: (← ofSchemas schemas))
termination_by (sizeOf schemas, 0, 0)
decreasing_by
  · exact Prod.Lex.left _ _ (by simp only [List.cons.sizeOf_spec]; omega)
  · exact Prod.Lex.left _ _ (by simp only [List.cons.sizeOf_spec]; omega)

/-- The expression of a schema read with a given type. Several types denote
their union. -/
def ofType (members : List (String × Json)) (type : Option Json) : Except Fault Expr :=
  match type with
  | some (.arr types) => do .ok (.ofMembers (← ofTypes members types))
  | some (.str "object") => ofObject members
  | some (.str "array") =>
      match _h : Table.get? members "items" with
      | none => .ok (.array .any)
      | some items => do .ok (.array (← Expr.ofSchema items))
  | other => Expr.ofScalar members other
termination_by (sizeOf (Json.obj members), 0, 2 * sizeOf type)
decreasing_by
  · exact Prod.Lex.right _ (Prod.Lex.right _ (by
      simp only [Option.some.sizeOf_spec, Json.arr.sizeOf_spec]
      omega))
  · exact Prod.Lex.right _ (Prod.Lex.right _ (by
      simp only [Option.some.sizeOf_spec, Json.str.sizeOf_spec]
      omega))
  · have hlt := Json.sizeOf_lt_of_lookup _h
    exact Prod.Lex.left _ _ (by simp only [Json.obj.sizeOf_spec]; omega)

/-- The expressions of a schema read with each of several types. -/
def ofTypes (members : List (String × Json)) (types : List Json) : Except Fault (List Expr) :=
  match types with
  | [] => .ok []
  | type :: types => do
      let expr ← ofType members (some type)
      .ok (expr :: (← ofTypes members types))
termination_by (sizeOf (Json.obj members), 0, 2 * sizeOf types + 1)
decreasing_by
  · exact Prod.Lex.right _ (Prod.Lex.right _ (by
      simp only [List.cons.sizeOf_spec, Option.some.sizeOf_spec]
      omega))
  · exact Prod.Lex.right _ (Prod.Lex.right _ (by
      simp only [List.cons.sizeOf_spec]
      omega))

/-- The expression of an object schema. Without properties and with a schema
for all others it is a record. -/
def ofObject (members : List (String × Json)) : Except Fault Expr :=
  match _h : Table.get? members "additionalProperties" with
  | some (.obj others) =>
      if (Json.filled? (Table.get? members "properties")).isNone then do
        .ok (.record (← Expr.ofSchema (.obj others)))
      else do
        let fields ← ofProperties members
        .ok (.openObject fields (← Expr.ofSchema (.obj others)))
  | some (.bool false) => do .ok (.strictObject (← ofProperties members))
  | _ => do .ok (.object (← ofProperties members))
termination_by (sizeOf (Json.obj members), 0, 2)
decreasing_by
  · have hlt := Json.sizeOf_lt_of_lookup _h
    exact Prod.Lex.left _ _ (by simp only [Json.obj.sizeOf_spec] at hlt ⊢; omega)
  · exact Prod.Lex.right _ (Prod.Lex.right _ (by omega))
  · have hlt := Json.sizeOf_lt_of_lookup _h
    exact Prod.Lex.left _ _ (by simp only [Json.obj.sizeOf_spec] at hlt ⊢; omega)
  · exact Prod.Lex.right _ (Prod.Lex.right _ (by omega))
  · exact Prod.Lex.right _ (Prod.Lex.right _ (by omega))

/-- The fields of an object schema. -/
def ofProperties (members : List (String × Json)) : Except Fault (List (Field Expr)) := do
  let names ← requiredNames members
  if hasOddProperties members then .error .noObject
  else ofFields names (propertiesOf members)
termination_by (sizeOf (Json.obj members), 0, 1)
decreasing_by
  exact Prod.Lex.left _ _ (sizeOf_propertiesOf_lt members)

/-- The fields of properties. What is not required is optional. -/
def ofFields (required : List Json) (properties : List (String × Json)) :
    Except Fault (List (Field Expr)) :=
  match properties with
  | [] => .ok []
  | (name, schema) :: properties => do
      let value ← Expr.ofSchema schema
      .ok (⟨name, !required.contains (.str name), value⟩ :: (← ofFields required properties))
termination_by (sizeOf properties, 0, 0)
decreasing_by
  · exact Prod.Lex.left _ _ (by simp only [List.cons.sizeOf_spec, Prod.mk.sizeOf_spec]; omega)
  · exact Prod.Lex.left _ _ (by simp only [List.cons.sizeOf_spec]; omega)

end

end RequestShapes.Zod
