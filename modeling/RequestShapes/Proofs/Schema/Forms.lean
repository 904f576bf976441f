import Mathlib.Data.List.Forall2
import RequestShapes.Proofs.Schema.Acceptance

/-!
# The forms of inferred schemas

Inferred schemas are of a few forms, and merging stays within them. What such a
schema describes follows its form.
-/

namespace RequestShapes.Schema

/-- What the schema of a scalar type says beside its type. -/
inductive Scalar : String → List (String × Json) → Prop
  | plain {type : String} :
      type ∈ ["boolean", "integer", "number", "string"] → Scalar type []
  | format (format : Format) : Scalar "string" [("format", .str format.name)]

/-- A schema of one type. -/
def HasSingleType (schema : Json) : Prop := ∃ type, schema.get? "type" = some (.str type)

/-- A schema as inference builds it, with nested shapes inline. -/
inductive Normal : Json → Prop
  | empty : Normal .empty
  | null : Normal nullType
  | scalar {type : String} {rest : List (String × Json)} :
      Scalar type rest → Normal (.obj (("type", .str type) :: rest))
  | nullable {type : String} {rest : List (String × Json)} :
      Scalar type rest → Normal (.obj (("type", .arr [.str type, .str "null"]) :: rest))
  | object {properties : List (String × Json)} {required : List String} :
      (Table.names properties).Nodup → (∀ entry ∈ properties, Normal entry.2) →
      Normal (ofObject properties required)
  | array {schema : Json} : Normal schema → Normal (ofArray schema)
  | anyOf {alternatives : List Json} : (∀ schema ∈ alternatives, Normal schema) →
      (∀ schema ∈ alternatives, HasSingleType schema) → Normal (anyOf alternatives)

/-- An inferred schema describes a value. Objects have no names but those of
their properties. -/
inductive Fits : Json → Json → Prop
  | null : Fits nullType .null
  | scalar {type : String} {value : Json} :
      Scalar type [] → HasType value type → Fits (ofType (.str type)) value
  | format {format : Format} {text : String} : Format.detect? text = some format →
      Fits (.obj [("type", .str "string"), ("format", .str format.name)]) (.str text)
  | nullable {type : String} {rest : List (String × Json)} {value : Json} : Scalar type rest →
      Fits (.obj (("type", .str type) :: rest)) value →
      Fits (.obj (("type", .arr [.str type, .str "null"]) :: rest)) value
  | absent {type : String} {rest : List (String × Json)} : Scalar type rest →
      Fits (.obj (("type", .arr [.str type, .str "null"]) :: rest)) .null
  | object {properties members : List (String × Json)} {required : List String} :
      (∀ name ∈ required, name ∈ Table.names members) →
      (∀ name ∈ Table.names members, name ∈ Table.names properties) →
      (∀ name inner schema, Table.get? members name = some inner →
        Table.get? properties name = some schema → Fits schema inner) →
      Fits (ofObject properties required) (.obj members)
  | array {schema : Json} {items : List Json} : (∀ item ∈ items, Fits schema item) →
      Fits (ofArray schema) (.arr items)
  | anyOf {alternatives : List Json} {schema value : Json} : schema ∈ alternatives →
      Fits schema value → Fits (anyOf alternatives) value

theorem Scalar.mem {type : String} {rest : List (String × Json)} (h : Scalar type rest) :
    type ∈ ["boolean", "integer", "number", "string"] := by
  cases h with
  | plain hmem => exact hmem
  | format => decide

theorem Scalar.ne_null {type : String} {rest : List (String × Json)} (h : Scalar type rest) :
    type ≠ "null" := by
  rintro rfl
  exact absurd h.mem (by decide)

theorem not_fits_empty (value : Json) : ¬ Fits .empty value := by
  intro h
  cases h

theorem Fits.of_nullable {type : String} {rest : List (String × Json)} {value : Json}
    (h : Fits (.obj (("type", .arr [.str type, .str "null"]) :: rest)) value) :
    value = .null ∨ Fits (.obj (("type", .str type) :: rest)) value := by
  generalize hschema : Json.obj (("type", .arr [.str type, .str "null"]) :: rest) = schema at h
  cases h with
  | nullable _ hfits =>
      simp only [Json.obj.injEq, List.cons.injEq, Prod.mk.injEq, Json.arr.injEq,
        Json.str.injEq] at hschema
      obtain ⟨⟨_, rfl, _⟩, rfl⟩ := hschema
      exact .inr hfits
  | absent => exact .inl rfl
  | _ => simp [nullType, ofType, ofObject, ofArray, Schema.anyOf] at hschema

theorem Fits.of_anyOf {alternatives : List Json} {value : Json}
    (h : Fits (Schema.anyOf alternatives) value) : ∃ schema ∈ alternatives, Fits schema value := by
  generalize hschema : Schema.anyOf alternatives = schema at h
  cases h with
  | anyOf hmem hfits =>
      simp only [Schema.anyOf, Json.obj.injEq, List.cons.injEq, Prod.mk.injEq, Json.arr.injEq]
        at hschema
      exact ⟨_, hschema.1.2 ▸ hmem, hfits⟩
  | _ => simp [nullType, ofType, ofObject, ofArray, Schema.anyOf] at hschema

theorem ofObject_inj {properties properties' : List (String × Json)}
    {required required' : List String}
    (h : ofObject properties required = ofObject properties' required') :
    properties = properties' ∧ required = required' := by
  simp only [ofObject, Json.obj.injEq, List.cons.injEq, Prod.mk.injEq, Json.arr.injEq] at h
  obtain ⟨_, ⟨_, hproperties⟩, ⟨_, hrequired⟩, _⟩ := h
  exact ⟨hproperties, List.map_injective_iff.mpr (fun _ _ heq => Json.str.inj heq) hrequired⟩

theorem Fits.of_object {properties : List (String × Json)} {required : List String} {value : Json}
    (h : Fits (ofObject properties required) value) : ∃ members, value = .obj members ∧
      (∀ name ∈ required, name ∈ Table.names members) ∧
      (∀ name ∈ Table.names members, name ∈ Table.names properties) ∧
      ∀ name inner schema, Table.get? members name = some inner →
        Table.get? properties name = some schema → Fits schema inner := by
  generalize hschema : ofObject properties required = schema at h
  cases h with
  | @object found members names hrequired hnames hinner =>
      obtain ⟨rfl, rfl⟩ := ofObject_inj hschema
      exact ⟨members, rfl, hrequired, hnames, hinner⟩
  | _ => simp [nullType, ofType, ofObject, ofArray, Schema.anyOf] at hschema

theorem Fits.of_array {schema value : Json} (h : Fits (ofArray schema) value) :
    ∃ items, value = .arr items ∧ ∀ item ∈ items, Fits schema item := by
  generalize hschema : ofArray schema = found at h
  cases h with
  | @array inner items hitems =>
      simp only [ofArray, Json.obj.injEq, List.cons.injEq, Prod.mk.injEq] at hschema
      obtain ⟨_, ⟨_, rfl⟩, _⟩ := hschema
      exact ⟨items, rfl, hitems⟩
  | _ => simp [nullType, ofType, ofObject, ofArray, Schema.anyOf] at hschema

theorem Fits.of_scalar {type : String} {rest : List (String × Json)} {value : Json}
    (hscalar : Scalar type rest) (h : Fits (.obj (("type", .str type) :: rest)) value) :
    HasType value type ∧ ∀ format text, rest = [("format", .str (Format.name format))] →
      value = .str text → (Format.detect? text).map Format.name = some format.name := by
  generalize hschema : Json.obj (("type", .str type) :: rest) = schema at h
  cases h with
  | @scalar found value _ htype =>
      simp only [ofType, Json.obj.injEq, List.cons.injEq, Prod.mk.injEq, Json.str.injEq] at hschema
      obtain ⟨⟨_, rfl⟩, rfl⟩ := hschema
      exact ⟨htype, fun _ _ heq => (nomatch heq)⟩
  | @format found text hdetect =>
      simp only [Json.obj.injEq, List.cons.injEq, Prod.mk.injEq, Json.str.injEq] at hschema
      obtain ⟨⟨_, rfl⟩, rfl⟩ := hschema
      refine ⟨.str text, fun other text' heq htext => ?_⟩
      cases htext
      rw [hdetect, Option.map_some]
      simpa using heq
  | null =>
      simp only [nullType, ofType, Json.obj.injEq, List.cons.injEq, Prod.mk.injEq,
        Json.str.injEq] at hschema
      exact absurd hschema.1.2 hscalar.ne_null
  | object =>
      simp only [ofObject, Json.obj.injEq, List.cons.injEq, Prod.mk.injEq, Json.str.injEq]
        at hschema
      obtain ⟨⟨_, rfl⟩, _⟩ := hschema
      exact absurd hscalar.mem (by decide)
  | array =>
      simp only [ofArray, Json.obj.injEq, List.cons.injEq, Prod.mk.injEq, Json.str.injEq]
        at hschema
      obtain ⟨⟨_, rfl⟩, _⟩ := hschema
      exact absurd hscalar.mem (by decide)
  | _ => simp [Schema.anyOf] at hschema

theorem Normal.isObject {schema : Json} (h : Normal schema) : schema.isObject = true := by
  cases h <;> rfl

theorem Normal.eq_empty {schema : Json} (h : Normal schema) (hvacant : schema.isVacant = true) :
    schema = .empty := by
  cases h with
  | empty => rfl
  | _ => cases hvacant

/-! ## Forms by type -/

section Forms

variable {schema : Json}

theorem Normal.of_scalar (h : Normal schema) {type : String}
    (htype : schema.get? "type" = some (.str type)) (hnull : type ≠ "null")
    (hobject : type ≠ "object") (harray : type ≠ "array") :
    ∃ rest, Scalar type rest ∧ schema = .obj (("type", .str type) :: rest) := by
  cases h with
  | @scalar found rest hscalar =>
      obtain rfl : found = type := by simpa [Json.get?, Table.get?] using htype
      exact ⟨rest, hscalar, rfl⟩
  | null => exact absurd (by simpa [nullType, ofType, Json.get?, Table.get?] using htype.symm) hnull
  | object =>
      exact absurd (by simpa [ofObject, Json.get?, Table.get?] using htype.symm) hobject
  | array => exact absurd (by simpa [ofArray, Json.get?, Table.get?] using htype.symm) harray
  | _ => simp [Json.empty, Schema.anyOf, Json.get?, Table.get?] at htype

theorem Fits.hasType {value : Json} (h : Fits schema value) {type : String}
    (htype : schema.get? "type" = some (.str type)) : HasType value type := by
  cases h with
  | null =>
      obtain rfl : "null" = type := by simpa [nullType, ofType, Json.get?, Table.get?] using htype
      exact .null
  | @scalar found value _ hhas =>
      obtain rfl : found = type := by simpa [ofType, Json.get?, Table.get?] using htype
      exact hhas
  | format =>
      obtain rfl : "string" = type := by simpa [Json.get?, Table.get?] using htype
      exact .str _
  | object =>
      obtain rfl : "object" = type := by simpa [ofObject, Json.get?, Table.get?] using htype
      exact .obj _
  | array =>
      obtain rfl : "array" = type := by simpa [ofArray, Json.get?, Table.get?] using htype
      exact .arr _
  | _ => simp [Schema.anyOf, Json.get?, Table.get?] at htype

theorem HasType.number_of_integer {value : Json} (h : HasType value "integer") : HasType value "number" := by
  generalize htype : "integer" = type at h
  cases h with
  | int count => exact .number count
  | whole => exact .float _
  | _ => simp at htype

theorem Normal.depth_pos (h : Normal schema) : 0 < schema.depth := by
  have hobject := h.isObject
  cases schema with
  | obj members => simp [Json.depth]
  | _ => simp [Json.isObject] at hobject

end Forms

/-! ## Nesting -/

theorem depth_le_depthItems {items : List Json} {item : Json} (h : item ∈ items) :
    item.depth ≤ Json.depthItems items := by
  induction items with
  | nil => cases h
  | cons first rest ih =>
      rw [Json.depthItems]
      rcases List.mem_cons.mp h with rfl | hmem
      · exact Nat.le_max_left _ _
      · exact Nat.le_trans (ih hmem) (Nat.le_max_right _ _)

theorem depth_le_depthMembers {members : List (String × Json)} {entry : String × Json}
    (h : entry ∈ members) : entry.2.depth ≤ Json.depthMembers members := by
  induction members with
  | nil => cases h
  | cons first rest ih =>
      rw [Json.depthMembers]
      rcases List.mem_cons.mp h with rfl | hmem
      · exact Nat.le_max_left _ _
      · exact Nat.le_trans (ih hmem) (Nat.le_max_right _ _)

/-! ## Steps that may fail -/

theorem ok_bind {α β ε : Type} (value : α) (next : α → Except ε β) :
    (Except.ok value >>= next) = next value := rfl

theorem exists_bind_ok_iff {ε α β : Type} {first : Except ε α} {next : α → Except ε β} :
    (∃ result, (first >>= next) = .ok result) ↔
      ∃ value, first = .ok value ∧ ∃ result, next value = .ok result := by
  cases first with
  | error fault =>
      refine ⟨fun h => ?_, fun h => ?_⟩
      · obtain ⟨result, h⟩ := h
        cases h
      · obtain ⟨value, h, -⟩ := h
        cases h
  | ok value => simp [ok_bind]

theorem exists_map_ok_iff {ε α β : Type} {first : Except ε α} {change : α → β} :
    (∃ result, first.map change = .ok result) ↔ ∃ value, first = .ok value := by
  cases first with
  | error fault => simp [Except.map]
  | ok value => simp [Except.map]

theorem mapM_ok {α β ε : Type} {f : α → Except ε β} {R : α → β → Prop} {items : List α}
    (h : ∀ item ∈ items, ∃ out, f item = .ok out ∧ R item out) :
    ∃ outs, items.mapM f = .ok outs ∧ List.Forall₂ R items outs := by
  induction items with
  | nil => exact ⟨[], rfl, .nil⟩
  | cons item items ih =>
      obtain ⟨hitem, hitems⟩ := List.forall_mem_cons.mp h
      obtain ⟨out, hout, hrel⟩ := hitem
      obtain ⟨outs, houts, hrels⟩ := ih hitems
      refine ⟨out :: outs, ?_, .cons hrel hrels⟩
      simp only [List.mapM_cons, hout, houts, bind, Except.bind, pure, Except.pure]

theorem exists_right_of_forall₂ {α β : Type} {R : α → β → Prop} {items : List α} {others : List β}
    (h : List.Forall₂ R items others) {item : α} (hmem : item ∈ items) :
    ∃ other ∈ others, R item other := by
  induction h with
  | nil => cases hmem
  | @cons first second _ _ hrel _ ih =>
      rcases List.mem_cons.mp hmem with rfl | hmem
      · exact ⟨second, List.mem_cons_self, hrel⟩
      · obtain ⟨other, hother, hrel⟩ := ih hmem
        exact ⟨other, List.mem_cons_of_mem _ hother, hrel⟩

theorem exists_left_of_forall₂ {α β : Type} {R : α → β → Prop} {items : List α} {others : List β}
    (h : List.Forall₂ R items others) {other : β} (hmem : other ∈ others) :
    ∃ item ∈ items, R item other :=
  exists_right_of_forall₂ h.flip hmem

/-- Entries that correspond one by one are found under the same names. -/
theorem get?_of_forall₂ {α β : Type} {R : α → β → Prop} {table : Table α} {others : Table β}
    (h : List.Forall₂ (fun entry other => other.1 = entry.1 ∧ R entry.2 other.2) table others) :
    Table.names others = Table.names table ∧
      ∀ name value, Table.get? table name = some value →
        ∃ other, Table.get? others name = some other ∧ R value other := by
  induction h with
  | nil => exact ⟨rfl, fun _ _ hget => (nomatch hget)⟩
  | @cons entry other table others hentry hrest ih =>
      obtain ⟨key, first⟩ := entry
      obtain ⟨key', second⟩ := other
      obtain ⟨rfl, hrel⟩ := hentry
      obtain ⟨hnames, hget?⟩ := ih
      refine ⟨?_, fun name value hget => ?_⟩
      · simpa [Table.names] using hnames
      · rw [Table.get?] at hget ⊢
        split
        next heq =>
          rw [if_pos heq] at hget
          exact ⟨second, rfl, Option.some.inj hget ▸ hrel⟩
        next heq =>
          rw [if_neg heq] at hget
          exact hget? name value hget

/-- The order of entries does not matter for what is found. -/
theorem get?_eq_of_perm {α : Type} {first second : Table α} (hperm : first.Perm second)
    (hnodup : (Table.names first).Nodup) (name : String) :
    Table.get? first name = Table.get? second name := by
  have hnodup' : (Table.names second).Nodup := (hperm.map Prod.fst).nodup_iff.mp hnodup
  cases hget : Table.get? first name with
  | some value =>
      exact (Table.get?_of_mem hnodup' (hperm.mem_iff.mp (Table.mem_of_get? hget))).symm
  | none =>
      cases hother : Table.get? second name with
      | none => rfl
      | some value =>
          rw [Table.get?_of_mem hnodup (hperm.mem_iff.mpr (Table.mem_of_get? hother))] at hget
          cases hget

/-! ## Parts of merging -/

theorem collapseNumbers_cases (groups : List (Json × List Json)) :
    collapseNumbers groups = groups ∨
      (collapseNumbers groups = [(.str "number", [ofType (.str "number")])] ∧ groups ≠ [] ∧
        ∀ entry ∈ groups, entry.1 = .str "integer" ∨ entry.1 = .str "number") := by
  have hentries {first second : Json} (heq : groups.map Prod.fst = [first, second]) :
      groups ≠ [] ∧ ∀ entry ∈ groups, entry.1 = first ∨ entry.1 = second := by
    refine ⟨fun hnil => by simp [hnil] at heq, fun entry hmem => ?_⟩
    have hkey : entry.1 ∈ groups.map Prod.fst := List.mem_map_of_mem hmem
    rw [heq] at hkey
    simpa using hkey
  unfold collapseNumbers
  split
  next heq => exact .inr ⟨rfl, hentries heq⟩
  next heq =>
    obtain ⟨hnonempty, hkeys⟩ := hentries heq
    exact .inr ⟨rfl, hnonempty, fun entry hmem => (hkeys entry hmem).symm⟩
  next => exact .inl rfl

theorem requires_ofObject (properties : List (String × Json)) (required : List String)
    (name : String) :
    requires (ofObject properties required) name = .ok (decide (name ∈ required)) := by
  have hget : (ofObject properties required).get? "required" =
      some (.arr (required.map Json.str)) := rfl
  have hmem : (required.map Json.str).contains (.str name) = decide (name ∈ required) := by
    rw [Bool.eq_iff_iff, List.contains_iff_mem, decide_eq_true_iff]
    simp
  simp only [requires, hget, hmem]

/-- A common format is the one that every schema has, whatever text it is. -/
theorem commonFormat?_texts {schemas : List Json}
    (h : ∀ schema ∈ schemas, schema.get? "format" = none ∨
      ∃ format, schema.get? "format" = some (.str format)) :
    commonFormat? schemas = .ok none ∨ ∃ format, commonFormat? schemas = .ok (some (.str format)) ∧
      ∀ schema ∈ schemas, schema.get? "format" = some (.str format) := by
  have hany : (schemas.map fun schema => (schema.get? "format").getD .null).any
      Json.isContainer = false := by
    rw [List.any_eq_false]
    intro value hvalue
    obtain ⟨schema, hmem, rfl⟩ := List.mem_map.mp hvalue
    rcases h schema hmem with hnone | ⟨format, hformat⟩
    · simp [hnone, Json.isContainer]
    · simp [hformat, Json.isContainer]
  cases schemas with
  | nil => exact .inl rfl
  | cons schema rest =>
      obtain ⟨hfirst, hrest⟩ := List.forall_mem_cons.mp h
      unfold commonFormat?
      simp only [hany, Bool.false_eq_true, if_false]
      rcases hfirst with hnone | ⟨format, hformat⟩
      · simp [hnone]
      · simp only [List.map_cons, hformat, Option.getD_some]
        by_cases hall : (rest.map fun schema => (schema.get? "format").getD .null).all
            (Json.sameKey (.str format)) = true
        · refine .inr ⟨format, by rw [if_pos hall],
            List.forall_mem_cons.mpr ⟨hformat, fun other hmem => ?_⟩⟩
          have hsame := List.all_eq_true.mp hall _ (List.mem_map_of_mem hmem)
          rcases hrest other hmem with hnone | ⟨found, hfound⟩
          · rw [hnone] at hsame
            cases hsame
          · obtain rfl : format = found := by simpa [hfound] using hsame
            exact hfound
        · exact .inl (by rw [if_neg hall])

/-- A common format of schemas with the known formats is one of these. -/
theorem commonFormat?_ok {schemas : List Json}
    (h : ∀ schema ∈ schemas, ∃ rest, Scalar "string" rest ∧
      schema = .obj (("type", .str "string") :: rest)) :
    commonFormat? schemas = .ok none ∨ ∃ format, commonFormat? schemas =
      .ok (some (.str (Format.name format))) ∧ ∀ schema ∈ schemas,
        schema = .obj [("type", .str "string"), ("format", .str format.name)] := by
  have hformats : ∀ schema ∈ schemas, schema.get? "format" = none ∨ ∃ format,
      schema = .obj [("type", .str "string"), ("format", .str (Format.name format))] := by
    intro schema hmem
    obtain ⟨rest, hscalar, rfl⟩ := h schema hmem
    cases hscalar with
    | plain => exact .inl rfl
    | format format => exact .inr ⟨format, rfl⟩
  rcases commonFormat?_texts fun schema hmem => (hformats schema hmem).imp_right
    fun ⟨format, heq⟩ => ⟨format.name, heq ▸ rfl⟩ with hnone | ⟨text, hcommon, hall⟩
  · exact .inl hnone
  cases schemas with
  | nil => exact .inl rfl
  | cons first rest =>
      have hform : ∀ schema ∈ first :: rest,
          schema = .obj [("type", .str "string"), ("format", .str text)] := by
        intro schema hmem
        have htext := hall schema hmem
        rcases hformats schema hmem with hnone | ⟨format, rfl⟩
        · rw [hnone] at htext
          cases htext
        · rw [Json.str.inj (Option.some.inj htext)]
      rcases hformats first List.mem_cons_self with hnone | ⟨format, rfl⟩
      · rw [hall first List.mem_cons_self] at hnone
        cases hnone
      · obtain rfl : format.name = text :=
          Json.str.inj (Option.some.inj (hall _ List.mem_cons_self))
        exact .inr ⟨format, hcommon, hform⟩

end RequestShapes.Schema
