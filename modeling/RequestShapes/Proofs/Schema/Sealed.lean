import RequestShapes.Proofs.Schema.Inferring
import RequestShapes.Proofs.Schema.Sharing

/-!
# Inferred schemas accept their samples

A schema can be reworked together with all schemas inside of it. Sealing makes
every object schema refuse names that are not among its properties. The schema
that is inferred from several samples accepts each of them even if it is sealed.
-/

namespace RequestShapes.Schema

/-! ## Reworking all schemas inside of a schema -/

section Rework

variable (rework : List (String × Json) → List (String × Json))

mutual

/-- A schema whose members are reworked, after those of the schemas inside of
it: properties, items and alternatives. -/
def reworked : Json → Json
  | .obj members => .obj (rework (reworkedMembers members))
  | node => node

/-- Members with the schemas that stand in them reworked. -/
def reworkedMembers : List (String × Json) → List (String × Json)
  | [] => []
  | (name, value) :: rest => (name, reworkedUnder name value) :: reworkedMembers rest

/-- The value of a member with the schemas that stand in it reworked. -/
def reworkedUnder (name : String) : Json → Json
  | .obj members =>
      if name = "items" then .obj (rework (reworkedMembers members))
      else if name = "properties" then .obj (reworkedProperties members)
      else .obj members
  | .arr items => if name = "anyOf" then .arr (reworkedItems items) else .arr items
  | scalar => scalar

/-- Every property reworked. -/
def reworkedProperties : List (String × Json) → List (String × Json)
  | [] => []
  | (name, schema) :: rest => (name, reworked schema) :: reworkedProperties rest

/-- Every alternative reworked. -/
def reworkedItems : List Json → List Json
  | [] => []
  | schema :: rest => reworked schema :: reworkedItems rest

end

theorem reworkedItems_eq_map (schemas : List Json) :
    reworkedItems rework schemas = schemas.map (reworked rework) := by
  induction schemas with
  | nil => rfl
  | cons schema rest ih => rw [reworkedItems, ih, List.map_cons]

theorem reworkedProperties_eq_map (properties : List (String × Json)) :
    reworkedProperties rework properties =
      properties.map fun entry => (entry.1, reworked rework entry.2) := by
  induction properties with
  | nil => rfl
  | cons entry rest ih => rw [reworkedProperties, ih, List.map_cons]

theorem isObject_reworked (schema : Json) :
    (reworked rework schema).isObject = schema.isObject := by
  cases schema <;> rfl

theorem reworked_ofArray (schema : Json) :
    reworked rework (ofArray schema) =
      .obj (rework [("type", .str "array"), ("items", reworked rework schema)]) := by
  cases schema <;> rfl

theorem reworked_anyOf (alternatives : List Json) :
    reworked rework (anyOf alternatives) =
      .obj (rework [("anyOf", .arr (alternatives.map (reworked rework)))]) := by
  rw [← reworkedItems_eq_map]
  rfl

theorem reworked_ofObject (properties : List (String × Json)) (required : List String) :
    reworked rework (ofObject properties required) =
      .obj (rework [("type", .str "object"),
        ("properties", .obj (properties.map fun entry => (entry.1, reworked rework entry.2))),
        ("required", .arr (required.map .str))]) := by
  rw [← reworkedProperties_eq_map]
  rfl

end Rework

/-! ## Sealing -/

/-- Let an object schema refuse names that are not among its properties. -/
def sealMembers (members : List (String × Json)) : List (String × Json) :=
  if Table.get? members "type" = some (.str "object") then
    Table.set members "additionalProperties" (.bool false)
  else members

/-- The schema in which every object schema is closed to names that are not
among its properties. -/
def sealed (schema : Json) : Json := reworked sealMembers schema

theorem sealed_ofArray (schema : Json) : sealed (ofArray schema) = ofArray (sealed schema) :=
  reworked_ofArray sealMembers schema

theorem sealed_anyOf (alternatives : List Json) :
    sealed (anyOf alternatives) = anyOf (alternatives.map sealed) :=
  reworked_anyOf sealMembers alternatives

theorem sealed_ofObject (properties : List (String × Json)) (required : List String) :
    sealed (ofObject properties required) =
      .obj [("type", .str "object"),
        ("properties", .obj (properties.map fun entry => (entry.1, sealed entry.2))),
        ("required", .arr (required.map .str)), ("additionalProperties", .bool false)] :=
  reworked_ofObject sealMembers properties required

/-- A schema of a scalar type is sealed as it is. -/
theorem sealed_flat {type : Json} {name : String} {rest : List (String × Json)}
    (h : Scalar name rest) (htype : Flat type) :
    sealed (.obj (("type", type) :: rest)) = .obj (("type", type) :: rest) := by
  have hopen : type ≠ .str "object" := by
    cases htype with
    | one _ hne => exact fun heq => hne (Json.str.inj heq)
    | nullable => exact nofun
  have hunder : reworkedMembers sealMembers (("type", type) :: rest) = ("type", type) :: rest := by
    cases h <;> cases htype <;> rfl
  rw [sealed, reworked, hunder, sealMembers, if_neg (by simpa [Table.get?] using hopen)]

/-- Nothing but keywords counts in an object schema. -/
theorem accepts_of_get?_eq {definitions : Table Json} {first second : List (String × Json)}
    {value : Json} (hfirst : target? (.obj first) = none) (hsecond : target? (.obj second) = none)
    (htype : isArray (.obj first) = false)
    (hsame : ∀ name ∈ keywords, Table.get? first name = Table.get? second name)
    (h : Accepts (unfolding definitions (.obj first)) value) :
    Accepts (unfolding definitions (.obj second)) value := by
  have htype' : isArray (.obj second) = false := by
    rw [← htype, isArray, isArray, Json.get?, Json.get?, hsame "type" (by decide)]
  refine h.congr ((unfolding_nil hsecond _).mpr rfl) fun name hname rest => ?_
  have hchild : child? (.obj first) (.member name) = child? (.obj second) (.member name) := by
    simp only [child?, htype, htype', Bool.false_and, Bool.false_eq_true, if_false, Json.get?,
      hsame name hname]
  funext shown
  apply propext
  rw [unfolding_cons hfirst, unfolding_cons hsecond, hchild]

theorem get?_sealed (properties : List (String × Json)) (name : String) :
    Table.get? (properties.map fun entry => (entry.1, sealed entry.2)) name =
      (Table.get? properties name).map sealed :=
  Table.get?_mapValues properties (fun _ => sealed) name

/-- An object is accepted by a sealed schema if the names that are required are
there and its members are accepted under their names. -/
theorem accepts_sealed_ofObject {definitions : Table Json} {properties : List (String × Json)}
    {required : List String} {members : List (String × Json)}
    (hobjects : ∀ entry ∈ properties, entry.2.isObject = true)
    (hrequired : ∀ name ∈ required, name ∈ Table.names members)
    (h : ∀ name inner, Table.get? members name = some inner → ∃ schema,
      Table.get? properties name = some schema ∧
        Accepts (unfolding definitions (sealed schema)) inner) :
    Accepts (unfolding definitions (sealed (ofObject properties required))) (.obj members) := by
  have hobject {name : String} {schema : Json}
      (hget : Table.get? (properties.map fun entry => (entry.1, sealed entry.2)) name =
        some schema) : schema.isObject = true := by
    rw [get?_sealed] at hget
    obtain ⟨inner, hinner, rfl⟩ := Option.map_eq_some_iff.mp hget
    exact (isObject_reworked _ _).trans (hobjects _ (Table.mem_of_get? hinner))
  have hnone : target? (.obj (properties.map fun entry => (entry.1, sealed entry.2))) = none := by
    rw [target?, Json.get?]
    split
    next hget => exact absurd (hobject hget) (by simp [Json.isObject])
    next => rfl
  have harray : isArray (.obj (properties.map fun entry => (entry.1, sealed entry.2))) = false := by
    rw [isArray, decide_eq_false_iff_not]
    exact fun hget => absurd (hobject hget) (by simp [Json.isObject])
  have hclosed := @accepts_closedObject definitions _ required "" members hrequired (fun name inner hget => by
    obtain ⟨schema, hschema, haccepts⟩ := h name inner hget
    exact ⟨sealed schema, by rw [get?_sealed, hschema, Option.map_some], haccepts⟩) hnone harray
  rw [sealed_ofObject]
  -- the members of a closed object stand in another order, and it has a title
  refine accepts_of_get?_eq rfl rfl rfl (fun name hname => ?_) hclosed
  simp only [keywords, List.mem_cons, List.not_mem_nil, or_false] at hname
  rcases hname with rfl | rfl | rfl | rfl | rfl | rfl | rfl <;> rfl

/-- What a schema describes it accepts even if it is sealed. -/
theorem Normal.accepts_sealed {schema : Json} (h : Normal schema) (definitions : Table Json) :
    ∀ value, Fits schema value → Accepts (unfolding definitions (sealed schema)) value := by
  induction h with
  | empty => exact fun value hfits => absurd hfits (not_fits_empty value)
  | null => exact fun value hfits => hfits.accepts_null definitions
  | scalar hscalar =>
      intro value hfits
      rw [sealed_flat hscalar hscalar.flat]
      exact hfits.accepts_scalar hscalar definitions
  | nullable hscalar =>
      intro value hfits
      rw [sealed_flat hscalar (.nullable _)]
      exact hfits.accepts_nullable hscalar definitions
  | object hnodup hproperties ih =>
      intro value hfits
      obtain ⟨members, rfl, hrequired, hknown, hinner⟩ := hfits.of_object
      refine accepts_sealed_ofObject (fun entry hmem => (hproperties entry hmem).isObject) hrequired
        fun name inner hget => ?_
      obtain ⟨schema, hschema⟩ :=
        Table.exists_get?_of_mem_names (hknown name (Table.mem_names_of_get? hget))
      exact ⟨schema, hschema,
        ih _ (Table.mem_of_get? hschema) inner (hinner name inner schema hget hschema)⟩
  | array hinner ih =>
      intro value hfits
      obtain ⟨items, rfl, hitems⟩ := hfits.of_array
      rw [sealed_ofArray]
      exact accepts_ofArray ((isObject_reworked _ _).trans hinner.isObject) fun item hmem =>
        ih item (hitems item hmem)
  | anyOf _ _ ih =>
      intro value hfits
      obtain ⟨schema, hmem, hfits⟩ := hfits.of_anyOf
      rw [sealed_anyOf]
      exact accepts_anyOf (List.mem_map_of_mem hmem) (ih schema hmem value hfits)

/-- A sealed schema has no definitions of its own, so it unfolds without any. -/
theorem Normal.treeOf_sealed {schema : Json} (h : Normal schema) :
    treeOf (sealed schema) = unfolding [] (sealed schema) := by
  have hnone : (sealed schema).get? "definitions" = none := by
    cases h with
    | scalar hscalar => rw [sealed_flat hscalar hscalar.flat]; cases hscalar <;> rfl
    | nullable hscalar => rw [sealed_flat hscalar (.nullable _)]; cases hscalar <;> rfl
    | object => rw [sealed_ofObject]; rfl
    | array => rw [sealed_ofArray]; rfl
    | anyOf => rw [sealed_anyOf]; rfl
    | _ => rfl
  have hroot : rootOf (sealed schema) = sealed schema := by
    generalize sealed schema = node at hnone ⊢
    cases node with
    | obj members =>
        rw [rootOf, Json.erase, Table.erase_of_not_mem (Table.get?_eq_none_iff.mp hnone)]
    | _ => rfl
  rw [treeOf, hroot, definitionsOf, hnone, Option.map_none, Option.getD_none]

/-! ## Several samples -/

/-- Every list of samples has a schema, and even if it is sealed it accepts each
of the samples. -/
theorem ofSamples_accepts (samples : List Json) (h : ∀ sample ∈ samples, Distinct sample) :
    ∃ schema, ofSamples samples = .ok schema ∧
      ∀ sample ∈ samples, Validates (sealed schema) sample := by
  obtain ⟨schema, hschema, hnormal, hfits⟩ := ofSamples_ok h
  refine ⟨schema, hschema, fun sample hmem => ?_⟩
  rw [Validates, hnormal.treeOf_sealed]
  exact hnormal.accepts_sealed [] sample (hfits sample hmem)

/-- An empty list, one with a gap, and nothing at all. -/
def tagSamples : List Json :=
  [.obj [("tags", .arr [])],
    .obj [("tags", .arr [.int 1, .null]), ("since", .str "2024-01-02")],
    .null]

def tagSchema : Json :=
  anyOf [ofObject [("tags", ofArray (.obj [("type", .arr [.str "integer", .str "null"])])),
    ("since", .obj [("type", .str "string"), ("format", .str "date")])] ["tags"], nullType]

theorem tagSchema_accepts :
    (∀ sample ∈ tagSamples, Distinct sample) ∧ ofSamples tagSamples = .ok tagSchema ∧
      ∀ sample ∈ tagSamples, Validates (sealed tagSchema) sample := by
  have hdistinct : ∀ sample ∈ tagSamples, Distinct sample := by decide
  have hschema : ofSamples tagSamples = .ok tagSchema := by decide +kernel
  obtain ⟨schema, hinferred, hvalid⟩ := ofSamples_accepts tagSamples hdistinct
  obtain rfl := Except.ok.inj (hschema.symm.trans hinferred)
  exact ⟨hdistinct, hschema, hvalid⟩

end RequestShapes.Schema
