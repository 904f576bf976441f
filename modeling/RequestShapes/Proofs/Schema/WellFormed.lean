import RequestShapes.Proofs.Schema.Reordering

/-!
# Well-formed schemas

Merging reads schemas by the names of their members and relies on their form: a
schema says nothing, or has one type, or a scalar type and null, or is a choice of
schemas of one type each. The schema of every value has such a form, and schemas of
these forms merge without fault to one of these forms. This does not depend on the
order of members, and texts may have any formats.
-/

namespace RequestShapes.Schema

/-! ## Forms -/

/-- A schema has the members of another one, in any order. -/
inductive Reordered : Json → Json → Prop
  | members {members others : List (String × Json)} : members.Perm others →
      Reordered (.obj members) (.obj others)

/-- What a schema of a scalar type says beside the type: of a text possibly the
format. -/
inductive Detail (formats : String → Prop) : String → List (String × Json) → Prop
  | plain {type : String} : type ∈ ["null", "boolean", "integer", "number", "string"] →
      Detail formats type []
  | format {format : String} : formats format → Detail formats "string" [("format", .str format)]

/-- A schema in normal form, given the formats that texts may have. -/
inductive WellFormed (formats : String → Prop) : Json → Prop
  | empty : WellFormed formats .empty
  | scalar {schema : Json} {type : String} {rest : List (String × Json)} :
      Detail formats type rest → Reordered schema (.obj (("type", .str type) :: rest)) →
      WellFormed formats schema
  | nullable {schema : Json} {type : String} {rest : List (String × Json)} :
      Detail formats type rest → type ≠ "null" →
      Reordered schema (.obj (("type", .arr [.str type, .str "null"]) :: rest)) →
      WellFormed formats schema
  | array {schema items : Json} : WellFormed formats items → Reordered schema (ofArray items) →
      WellFormed formats schema
  | object {schema : Json} {properties : List (String × Json)} {required : List String} :
      (Table.names properties).Nodup → required.Sublist (Table.names properties) →
      (∀ entry ∈ properties, entry.2 ≠ .empty) →
      (∀ entry ∈ properties, WellFormed formats entry.2) →
      Reordered schema (ofObject properties required) → WellFormed formats schema
  | anyOf {alternatives : List Json} : 2 ≤ alternatives.length →
      (∀ schema ∈ alternatives, WellFormed formats schema) →
      (∀ schema ∈ alternatives, HasSingleType schema) →
      (alternatives.map fun schema => schema.get? "type").Nodup →
      (∀ schema ∈ alternatives.dropLast, schema.get? "type" ≠ some (.str "null")) →
      WellFormed formats (anyOf alternatives)

variable {formats : String → Prop} {schema other : Json}

theorem Reordered.refl (members : List (String × Json)) :
    Reordered (.obj members) (.obj members) :=
  .members (.refl members)

/-- Members are read by name, so their order does not matter. -/
theorem Reordered.get?_eq (h : Reordered schema other)
    (hnodup : (Table.names other.members).Nodup) : schema.get? = other.get? := by
  obtain ⟨hperm⟩ := h
  exact funext fun name => (get?_eq_of_perm hperm.symm hnodup name).symm

theorem perm_set {first second : Table Json} (h : first.Perm second)
    (hnodup : (Table.names first).Nodup) (name : String) (value : Json) :
    (Table.set first name value).Perm (Table.set second name value) := by
  induction h with
  | nil => exact .refl _
  | @cons entry _ _ hrest ih =>
      obtain ⟨key, old⟩ := entry
      by_cases hkey : key = name
      · simpa only [Table.set, hkey, if_true] using hrest.cons _
      · simpa only [Table.set, hkey, if_false] using (ih (List.nodup_cons.mp hnodup).2).cons _
  | swap first second rest =>
      obtain ⟨key, old⟩ := first
      obtain ⟨key', old'⟩ := second
      -- Of two entries under distinct names at most one is replaced.
      have hne : key' ≠ key := fun heq => (List.nodup_cons.mp hnodup).1 (by simp [heq])
      by_cases hkey : key = name
      · subst hkey
        simpa only [Table.set, hne, if_true, if_false] using .swap _ _ _
      by_cases hkey' : key' = name
      · simpa only [Table.set, hkey, hkey', if_true, if_false] using .swap _ _ _
      · simpa only [Table.set, hkey, hkey', if_false] using .swap _ _ _
  | trans hfirst _ ih ih' =>
      exact (ih hnodup).trans (ih' ((hfirst.map Prod.fst).nodup_iff.mp hnodup))

theorem Reordered.set (h : Reordered schema other)
    (hnodup : (Table.names other.members).Nodup) (name : String) (value : Json) :
    Reordered (schema.set name value) (other.set name value) := by
  obtain ⟨hperm⟩ := h
  exact .members (perm_set hperm ((hperm.map Prod.fst).nodup_iff.mpr hnodup) name value)

theorem Reordered.ne_empty {first : String × Json} {rest : List (String × Json)}
    (h : Reordered schema (.obj (first :: rest))) : schema ≠ .empty := by
  obtain ⟨hperm⟩ := h
  intro heq
  rw [Json.obj.inj heq] at hperm
  exact absurd hperm.length_eq (by simp)

theorem Detail.mem {type : String} {rest : List (String × Json)} (h : Detail formats type rest) :
    type ∈ ["null", "boolean", "integer", "number", "string"] := by
  cases h with
  | plain hmem => exact hmem
  | format => decide

theorem Detail.nodup {type : String} {rest : List (String × Json)} (h : Detail formats type rest)
    (value : Json) : (Table.names (("type", value) :: rest)).Nodup := by
  cases h <;> simp [Table.names]

theorem Detail.get?_anyOf {type : String} {rest : List (String × Json)}
    (h : Detail formats type rest) (value : Json) :
    Json.get? (.obj (("type", value) :: rest)) "anyOf" = none := by
  cases h <;> rfl

theorem Reordered.get?_ofArray {items : Json} (h : Reordered schema (ofArray items)) :
    schema.get? = (ofArray items).get? :=
  h.get?_eq (by simp [ofArray, Json.members, Table.names])

theorem Reordered.get?_ofObject {properties : List (String × Json)} {required : List String}
    (h : Reordered schema (ofObject properties required)) :
    schema.get? = (ofObject properties required).get? :=
  h.get?_eq (by simp [ofObject, Json.members, Table.names])

/-! ## Parts -/

/-- The shape of a well-formed object schema that is nested at most so deeply. -/
structure WellFormedShape (formats : String → Prop) (bound : Nat) (shape : Shape) : Prop where
  nodup : (Table.names shape.properties).Nodup
  sublist : shape.required.Sublist (Table.names shape.properties)
  filled : ∀ entry ∈ shape.properties, entry.2 ≠ .empty
  inner : ∀ entry ∈ shape.properties, WellFormed formats entry.2 ∧ entry.2.depth < bound

/-- What a well-formed schema of one type other than null is, with a bound on the depth
of what is inside. -/
inductive WellFormedPart (formats : String → Prop) (bound : Nat) : String → Json → Prop
  | scalar {schema : Json} {type : String} {rest : List (String × Json)} :
      Detail formats type rest → type ≠ "null" →
      Reordered schema (.obj (("type", .str type) :: rest)) →
      WellFormedPart formats bound type schema
  | array {schema items : Json} : WellFormed formats items → items.depth < bound →
      Reordered schema (ofArray items) → WellFormedPart formats bound "array" schema
  | object {schema : Json} {shape : Shape} : WellFormedShape formats bound shape →
      Reordered schema shape.schema → WellFormedPart formats bound "object" schema

theorem depth_lt_of_get? {node inner : Json} {name : String} (h : node.get? name = some inner) :
    inner.depth < node.depth := by
  cases node with
  | obj members =>
      have hle : inner.depth ≤ _ := depth_le_depthMembers (Table.mem_of_get? h)
      simp only [Json.depth]
      omega
  | _ => cases h

theorem WellFormed.part {type : String} {bound : Nat} (h : WellFormed formats schema)
    (hdepth : schema.depth ≤ bound) (htype : schema.get? "type" = some (.str type))
    (hnull : type ≠ "null") : WellFormedPart formats bound type schema := by
  cases h with
  | empty => cases htype
  | @scalar _ found rest hdetail hordered =>
      obtain rfl : found = type := by
        rw [hordered.get?_eq (hdetail.nodup _)] at htype
        simpa [Json.get?, Table.get?] using htype
      exact .scalar hdetail hnull hordered
  | nullable hdetail _ hordered =>
      rw [hordered.get?_eq (hdetail.nodup _)] at htype
      simp [Json.get?, Table.get?] at htype
  | @array _ items hitems hordered =>
      have hget := hordered.get?_ofArray
      have hitemsDepth : items.depth < schema.depth :=
        @depth_lt_of_get? _ _ "items" (by rw [hget]; rfl)
      obtain rfl : "array" = type := by
        rw [hget] at htype
        simpa [ofArray, Json.get?, Table.get?] using htype
      exact .array hitems (by omega) hordered
  | @object _ properties required hnodup hsub hfilled hinner hordered =>
      have hget := hordered.get?_ofObject
      have hpropertiesDepth : (Json.obj properties).depth < schema.depth :=
        @depth_lt_of_get? _ _ "properties" (by rw [hget]; rfl)
      obtain rfl : "object" = type := by
        rw [hget] at htype
        simpa [ofObject, Json.get?, Table.get?] using htype
      have hbelow : ∀ entry ∈ properties, entry.2.depth < bound := fun entry hmem => by
        have hle := depth_le_depthMembers hmem
        simp only [Json.depth] at hpropertiesDepth
        omega
      exact @WellFormedPart.object _ _ _ ⟨properties, required⟩
        ⟨hnodup, hsub, hfilled, fun entry hmem => ⟨hinner entry hmem, hbelow entry hmem⟩⟩ hordered
  | anyOf => cases htype

theorem WellFormedPart.of_object {bound : Nat} (h : WellFormedPart formats bound "object" schema) :
    ∃ shape : Shape, schema.get? = shape.schema.get? ∧ WellFormedShape formats bound shape := by
  generalize htype : "object" = type at h
  cases h with
  | scalar hdetail => exact absurd (htype ▸ hdetail.mem) (by decide)
  | array => exact absurd htype (by decide)
  | object hshape hordered => exact ⟨_, hordered.get?_ofObject, hshape⟩

theorem WellFormedPart.of_array {bound : Nat} (h : WellFormedPart formats bound "array" schema) :
    ∃ items, schema.get? = (ofArray items).get? ∧
      (WellFormed formats items ∧ items.depth < bound) := by
  generalize htype : "array" = type at h
  cases h with
  | scalar hdetail => exact absurd (htype ▸ hdetail.mem) (by decide)
  | array hitems hdepth hordered => exact ⟨_, hordered.get?_ofArray, hitems, hdepth⟩
  | object => exact absurd htype (by decide)

theorem WellFormedPart.of_other {type : String} {bound : Nat}
    (h : WellFormedPart formats bound type schema) (hobject : type ≠ "object")
    (harray : type ≠ "array") :
    ∃ rest, Detail formats type rest ∧ Reordered schema (.obj (("type", .str type) :: rest)) := by
  cases h with
  | scalar hdetail _ hordered => exact ⟨_, hdetail, hordered⟩
  | array => exact absurd rfl harray
  | object => exact absurd rfl hobject

/-- What a well-formed schema falls into. -/
structure Separates (formats : String → Prop) (bound : Nat) (schema : Json) (pieces : List Json) :
    Prop where
  alternatives : alternatives schema = .ok pieces
  single : ∀ piece ∈ pieces, IsSingle piece
  part : ∀ piece ∈ pieces, ∀ type, piece.get? "type" = some (.str type) → type ≠ "null" →
    WellFormedPart formats bound type piece
  filled : schema ≠ .empty → ∃ piece ∈ pieces, HasSingleType piece

theorem alternatives_of_type {type : String} (hany : schema.get? "anyOf" = none)
    (htype : schema.get? "type" = some (.str type)) : alternatives schema = .ok [schema] := by
  cases schema with
  | obj members =>
      rw [Json.get?] at hany htype
      rw [alternatives, hany, htype]
  | _ => cases htype

theorem alternatives_of_types {types : List Json} (hany : schema.get? "anyOf" = none)
    (htypes : schema.get? "type" = some (.arr types)) :
    alternatives schema = .ok (types.map fun type => schema.set "type" type) := by
  cases schema with
  | obj members =>
      rw [Json.get?] at hany htypes
      rw [alternatives, hany, htypes]
  | _ => cases htypes

/-- A schema of one type is its own and only alternative. -/
theorem WellFormed.separates_self {type : String} {bound : Nat} (h : WellFormed formats schema)
    (hdepth : schema.depth ≤ bound) (hany : schema.get? "anyOf" = none)
    (htype : schema.get? "type" = some (.str type)) : Separates formats bound schema [schema] :=
  ⟨alternatives_of_type hany htype, List.forall_mem_singleton.mpr (.typed ⟨type, htype⟩),
    List.forall_mem_singleton.mpr fun _ => h.part hdepth,
    fun _ => ⟨schema, List.mem_singleton_self schema, type, htype⟩⟩

/-- A scalar type beside null falls into the two types. -/
theorem Detail.separates_nullable {type : String} {rest : List (String × Json)} {bound : Nat}
    (h : Detail formats type rest)
    (hordered : Reordered schema (.obj (("type", .arr [.str type, .str "null"]) :: rest))) :
    Separates formats bound schema
      [schema.set "type" (.str type), schema.set "type" (.str "null")] := by
  have hget := hordered.get?_eq (h.nodup _)
  have hpiece (found : String) : Reordered (schema.set "type" (.str found))
      (.obj (("type", .str found) :: rest)) :=
    hordered.set (h.nodup _) "type" (.str found)
  have htyped (found : String) :
      (schema.set "type" (.str found)).get? "type" = some (.str found) := by
    rw [(hpiece found).get?_eq (h.nodup _)]
    rfl
  have hsame {given found : String}
      (hfound : (schema.set "type" (.str given)).get? "type" = some (.str found)) :
      given = found :=
    Json.str.inj (Option.some.inj ((htyped given).symm.trans hfound))
  refine ⟨alternatives_of_types (by rw [hget, h.get?_anyOf]) (by rw [hget]; rfl),
    List.forall_mem_cons.mpr ⟨.typed ⟨type, htyped type⟩,
      List.forall_mem_singleton.mpr (.typed ⟨"null", htyped "null"⟩)⟩,
    List.forall_mem_cons.mpr ⟨fun found hfound hne => ?_,
      List.forall_mem_singleton.mpr fun found hfound hne => absurd (hsame hfound).symm hne⟩,
    fun _ => ⟨_, List.mem_cons_self, type, htyped type⟩⟩
  obtain rfl := hsame hfound
  exact .scalar h hne (hpiece _)

theorem WellFormed.exists_separates {bound : Nat} (h : WellFormed formats schema)
    (hdepth : schema.depth ≤ bound) : ∃ pieces, Separates formats bound schema pieces := by
  have hself {type : String} (hany : schema.get? "anyOf" = none)
      (htype : schema.get? "type" = some (.str type)) : Separates formats bound schema [schema] :=
    h.separates_self hdepth hany htype
  cases h with
  | empty =>
      exact ⟨[.empty], rfl, List.forall_mem_singleton.mpr .empty,
        List.forall_mem_singleton.mpr fun _ htype => (nomatch htype), fun hne => absurd rfl hne⟩
  | scalar hdetail hordered =>
      have hget := hordered.get?_eq (hdetail.nodup _)
      exact ⟨[schema], hself (by rw [hget, hdetail.get?_anyOf]) (by rw [hget]; rfl)⟩
  | nullable hdetail _ hordered => exact ⟨_, hdetail.separates_nullable hordered⟩
  | array hitems hordered =>
      have hget := hordered.get?_ofArray
      exact ⟨[schema], hself (by rw [hget]; rfl) (by rw [hget]; rfl)⟩
  | object hnodup hsub hfilled hinner hordered =>
      have hget := hordered.get?_ofObject
      exact ⟨[schema], hself (by rw [hget]; rfl) (by rw [hget]; rfl)⟩
  | @anyOf alternatives hlength hall hsingle =>
      refine ⟨alternatives, rfl, fun piece hmem => .typed (hsingle piece hmem),
        fun piece hmem type => (hall piece hmem).part ?_, fun _ => ?_⟩
      · have hle := depth_le_depthItems hmem
        simp only [Schema.anyOf, Json.depth, Json.depthMembers] at hdepth
        omega
      · obtain ⟨piece, hmem⟩ :=
          List.exists_mem_of_length_pos (Nat.lt_of_lt_of_le (by decide) hlength)
        exact ⟨piece, hmem, hsingle piece hmem⟩

theorem WellFormed.fallsApart (h : WellFormed formats schema) : FallsApart schema := by
  obtain ⟨pieces, hpieces⟩ := h.exists_separates (Nat.le_refl _)
  have hsingles := singles_singleton hpieces.alternatives
  exact ⟨hsingles ▸ hpieces.alternatives, hsingles ▸ hpieces.single⟩

/-- What says something has a type. -/
theorem WellFormed.exists_single (h : WellFormed formats schema) (hne : schema ≠ .empty) :
    ∃ piece ∈ singles [schema], HasSingleType piece := by
  obtain ⟨pieces, hpieces⟩ := h.exists_separates (Nat.le_refl _)
  rw [singles_singleton hpieces.alternatives]
  exact hpieces.filled hne

theorem wellFormedPart_of_mem_singlesOf {schemas : List Json} {bound : Nat} {type : String}
    (hne : type ≠ "null")
    (h : ∀ schema ∈ schemas, WellFormed formats schema ∧ schema.depth ≤ bound) :
    ∀ piece ∈ singlesOf type schemas, WellFormedPart formats bound type piece := by
  intro piece hmem
  obtain ⟨hsingle, hof⟩ := List.mem_filter.mp hmem
  obtain ⟨schema, hschema, hpiece⟩ := mem_singles.mp hsingle
  obtain ⟨hwell, hdepth⟩ := h schema hschema
  obtain ⟨pieces, hpieces⟩ := hwell.exists_separates hdepth
  rw [singles_singleton hpieces.alternatives] at hpiece
  exact hpieces.part piece hpiece type (isOf_iff.mp hof) hne

/-! ## Schemas of one type -/

section Congruence

variable {group others : List Json}
  (h : List.Forall₂ (fun schema other => schema.get? = other.get?) group others)

include h

theorem foldlM_properties_congr (gathered : Table (List Json)) :
    (group.foldlM (fun gathered schema => do .ok (gather gathered (← properties schema)))
      gathered : Except Fault _) =
    others.foldlM (fun gathered schema => do .ok (gather gathered (← properties schema)))
      gathered := by
  induction h generalizing gathered with
  | nil => rfl
  | @cons schema other _ _ hget _ ih =>
      have hproperties : properties schema = properties other := by
        rw [properties, properties, hget]
      simp only [List.foldlM_cons, hproperties, ih]

theorem allRequire_congr : allRequire group = allRequire others := by
  funext name
  induction h with
  | nil => rfl
  | cons hget _ ih => simp only [allRequire, requires, hget, ih]

theorem map_get?_congr {α : Type} (read : Option Json → α) (name : String) :
    (group.map fun schema => read (schema.get? name)) =
      others.map fun schema => read (schema.get? name) := by
  induction h with
  | nil => rfl
  | cons hget _ ih => simp only [List.map_cons, hget, ih]

/-- Merging schemas of one type depends on nothing but the members that are found. -/
theorem mergeGroup_congr (merge : List Json → Except Fault Json) (type : Json) :
    mergeGroup merge type group = mergeGroup merge type others := by
  have hitems : (group.filterMap fun schema => Json.filled? (schema.get? "items")) =
      others.filterMap fun schema => Json.filled? (schema.get? "items") := by
    have hmap := congrArg (List.filterMap id) (map_get?_congr h Json.filled? "items")
    simpa only [List.filterMap_map, Function.comp_def, id] using hmap
  simp only [mergeGroup, commonFormat?, foldlM_properties_congr h, allRequire_congr h, hitems,
    map_get?_congr h (·.getD .null) "format"]

end Congruence

/-- Schemas that each read like one of a form read like a list of this form. -/
theorem exists_forms {α : Type} {form : α → Json} {P : α → Prop} {group : List Json}
    (h : ∀ piece ∈ group, ∃ source, piece.get? = (form source).get? ∧ P source) :
    ∃ sources : List α,
      List.Forall₂ (fun schema other => schema.get? = other.get?) group (sources.map form) ∧
        ∀ source ∈ sources, P source := by
  obtain ⟨sources, hsources, hall⟩ := exists_map_of_forall
    (f := fun source => (form source).get?) (List.forall_mem_map.mpr h)
  rw [← List.forall₂_eq_eq_eq, List.forall₂_map_left_iff, List.forall₂_map_right_iff] at hsources
  exact ⟨sources, List.forall₂_map_right_iff.mpr hsources, hall⟩

/-- Well-formed schemas that are nested less deeply merge into a well-formed one, which
says nothing only if none of them does. -/
def MergesWellFormed (formats : String → Prop) :
    (List Json → Except Fault Json) → Nat → Prop :=
  MergesTo (WellFormed formats) fun schemas merged =>
    WellFormed formats merged ∧ (merged = .empty → ∀ schema ∈ schemas, schema = .empty)

section Groups

variable {merge : List Json → Except Fault Json} {bound : Nat}
  (hmerge : MergesWellFormed formats merge bound)

include hmerge

theorem mergeObjects_wellFormed {shapes : List Shape}
    (h : ∀ shape ∈ shapes, WellFormedShape formats bound shape) :
    ∃ merged, mergeGroup merge (.str "object") (shapes.map Shape.schema) = .ok merged ∧
      WellFormed formats merged ∧ merged.get? "type" = some (.str "object") := by
  have hunder : ∀ entry ∈ collected shapes, ∃ merged, merge entry.2 = .ok merged ∧
      (WellFormed formats merged ∧ merged ≠ .empty) := by
    intro entry hentry
    obtain ⟨hsome, hstand⟩ :=
      exists_of_mem_collected (fun shape hmem => (h shape hmem).nodup) hentry
    obtain ⟨merged, hmerged, hwell, hempty⟩ := hmerge entry.2 fun schema hmem => by
      obtain ⟨shape, hshape, hproperty⟩ := hstand schema hmem
      exact (h shape hshape).inner _ hproperty
    -- Under each name some schema stands, and it says something.
    obtain ⟨schema, hmem⟩ := List.exists_mem_of_ne_nil _ hsome
    obtain ⟨shape, hshape, hproperty⟩ := hstand schema hmem
    exact ⟨merged, hmerged, hwell,
      fun heq => (h shape hshape).filled _ hproperty (hempty heq schema hmem)⟩
  obtain ⟨shape, hmerged, hkeys, hproperties, hrequired⟩ := mergeGroup_object_forall
    (P := fun _ merged => WellFormed formats merged ∧ merged ≠ .empty) hunder
  refine ⟨shape.schema, hmerged, .object (hkeys ▸ nodup_names_collected shapes) ?_
    (fun entry hmem => (hproperties entry hmem).2) (fun entry hmem => (hproperties entry hmem).1)
    (.refl _), rfl⟩
  rw [hrequired, hkeys]
  exact List.filter_sublist

theorem mergeArrays_wellFormed {items : List Json}
    (h : ∀ item ∈ items, WellFormed formats item ∧ item.depth < bound) :
    ∃ merged, mergeGroup merge (.str "array") (items.map ofArray) = .ok merged ∧
      WellFormed formats merged ∧ merged.get? "type" = some (.str "array") := by
  obtain ⟨merged, hmerged, hwell, _⟩ := hmerge (items.filter fun item => !item.isVacant)
    fun item hmem => h item (List.mem_of_mem_filter hmem)
  exact ⟨ofArray merged, mergeGroup_array hmerged, .array hwell (.refl _), rfl⟩

omit hmerge in
/-- A format remains if all texts have it. -/
theorem mergeStrings_wellFormed {group : List Json} (hsome : group ≠ [])
    (h : ∀ piece ∈ group, WellFormedPart formats bound "string" piece) :
    ∃ merged, mergeGroup merge (.str "string") group = .ok merged ∧
      WellFormed formats merged ∧ merged.get? "type" = some (.str "string") := by
  have hformats : ∀ piece ∈ group, piece.get? "format" = none ∨
      ∃ format, piece.get? "format" = some (.str format) ∧ formats format := by
    intro piece hmem
    obtain ⟨rest, hdetail, hordered⟩ := (h piece hmem).of_other (by decide) (by decide)
    rw [hordered.get?_eq (hdetail.nodup _)]
    cases hdetail with
    | plain => exact .inl rfl
    | format hformat => exact .inr ⟨_, rfl, hformat⟩
  simp only [mergeGroup]
  rcases commonFormat?_texts fun piece hmem => (hformats piece hmem).imp_right
    (Exists.imp fun _ => And.left) with hnone | ⟨format, hcommon, hall⟩
  · rw [hnone, ok_bind]
    exact ⟨_, rfl, .scalar (.plain (by decide)) (.refl _), rfl⟩
  · have hformat : formats format := by
      obtain ⟨first, hfirst⟩ := List.exists_mem_of_ne_nil _ hsome
      have hget := hall first hfirst
      rcases hformats first hfirst with hnone | ⟨found, hfound, hformat⟩
      · rw [hnone] at hget
        cases hget
      · rwa [← Json.str.inj (Option.some.inj (hfound.symm.trans hget))]
    rw [hcommon, ok_bind]
    exact ⟨_, rfl, .scalar (.format hformat) (.refl _), rfl⟩

/-- Parts of one type merge into a well-formed schema of this type. -/
theorem mergeGroup_wellFormed {type : String} {group : List Json} (hsome : group ≠ [])
    (h : ∀ piece ∈ group, WellFormedPart formats bound type piece) :
    ∃ merged, mergeGroup merge (.str type) group = .ok merged ∧
      WellFormed formats merged ∧ merged.get? "type" = some (.str type) := by
  by_cases hobject : type = "object"
  · subst hobject
    obtain ⟨shapes, hsame, hshapes⟩ := exists_forms fun piece hmem => (h piece hmem).of_object
    rw [mergeGroup_congr hsame]
    exact mergeObjects_wellFormed hmerge hshapes
  by_cases harray : type = "array"
  · subst harray
    obtain ⟨items, hsame, hitems⟩ := exists_forms fun piece hmem => (h piece hmem).of_array
    rw [mergeGroup_congr hsame]
    exact mergeArrays_wellFormed hmerge hitems
  by_cases hstring : type = "string"
  · subst hstring
    exact mergeStrings_wellFormed hsome h
  obtain ⟨first, hfirst⟩ := List.exists_mem_of_ne_nil _ hsome
  obtain ⟨_, hdetail, _⟩ := (h first hfirst).of_other hobject harray
  refine ⟨ofType (.str type), ?_, .scalar (.plain hdetail.mem) (.refl _), rfl⟩
  simp [mergeGroup, hobject, harray, hstring]

end Groups

/-! ## All types -/

theorem wellFormed_nullType : WellFormed formats nullType :=
  .scalar (.plain (by decide)) (.refl _)

/-- Parts of distinct types, and null after them, are alternatives. -/
theorem wellFormed_anyOf {parts : List Json} (h : ∀ part ∈ parts, WellFormed formats part)
    (hapart : Apart parts) {nullable : Bool} (hlength : 2 ≤ (parts ++ nulls nullable).length) :
    WellFormed formats (anyOf (parts ++ nulls nullable)) := by
  have hnulls : ∀ schema ∈ nulls nullable, schema = nullType := by
    cases nullable <;> simp [nulls]
  have hparts : ∀ part ∈ parts, part.get? "type" ≠ some (.str "null") := by
    intro part hmem hnull
    obtain ⟨type, htype, hne⟩ := hapart.typed part hmem
    exact hne (Json.str.inj (Option.some.inj (htype.symm.trans hnull)))
  refine .anyOf hlength
    (List.forall_mem_append.mpr ⟨h, fun schema hmem => hnulls schema hmem ▸ wellFormed_nullType⟩)
    (List.forall_mem_append.mpr ⟨fun part hmem => (hapart.typed part hmem).imp fun _ => And.left,
      fun schema hmem => hnulls schema hmem ▸ ⟨"null", rfl⟩⟩) ?_ fun schema hmem => ?_
  · cases nullable with
    | false => simpa [nulls] using hapart.nodup
    | true =>
        rw [List.map_append, List.nodup_append]
        refine ⟨hapart.nodup, by simp [nulls], List.forall_mem_map.mpr fun part hmem => ?_⟩
        simpa [nulls, nullType, ofType, Json.get?, Table.get?] using hparts part hmem
  · refine hparts schema ?_
    cases nullable with
    | false => exact (List.dropLast_sublist parts).subset (by simpa [nulls] using hmem)
    | true => simpa [nulls] using hmem

/-- Null joins a scalar type. -/
theorem Detail.reordered_combine {type : String} {rest : List (String × Json)} {part : Json}
    (h : Detail formats type rest)
    (hordered : Reordered part (.obj (("type", .str type) :: rest))) :
    Reordered (combine [part] true)
      (.obj (("type", .arr [.str type, .str "null"]) :: rest)) := by
  have htype : part.get? "type" = some (.str type) := by
    rw [hordered.get?_eq (h.nodup _)]
    rfl
  have hobject : type ≠ "object" := fun heq => absurd h.mem (heq ▸ by decide)
  have harray : type ≠ "array" := fun heq => absurd h.mem (heq ▸ by decide)
  have heq : combine [part] true = part.set "type" (.arr [.str type, .str "null"]) := by
    simp [combine, htype, hobject, harray]
  exact heq ▸ hordered.set (h.nodup _) "type" _

/-- What parts of distinct types are put together to says nothing only if there is
nothing to put together. -/
theorem combine_wellFormed {parts : List Json} (h : ∀ part ∈ parts, WellFormed formats part)
    (hapart : Apart parts) (nullable : Bool) :
    WellFormed formats (combine parts nullable) ∧
      (combine parts nullable = .empty → parts = [] ∧ nullable = false) := by
  have hanyOf (hlength : 2 ≤ (parts ++ nulls nullable).length) :
      WellFormed formats (anyOf (parts ++ nulls nullable)) ∧
        (anyOf (parts ++ nulls nullable) = .empty → parts = [] ∧ nullable = false) :=
    ⟨wellFormed_anyOf h hapart hlength, fun heq => by simp [Schema.anyOf, Json.empty] at heq⟩
  rcases parts with - | ⟨part, - | ⟨second, rest⟩⟩
  · cases nullable with
    | false => exact ⟨.empty, fun _ => ⟨rfl, rfl⟩⟩
    | true => exact ⟨wellFormed_nullType, fun heq => by cases heq⟩
  · have hpart := h part List.mem_cons_self
    obtain ⟨type, htype, hne⟩ := hapart.typed part List.mem_cons_self
    cases nullable with
    | false =>
        refine ⟨hpart, ?_⟩
        rintro rfl
        cases htype
    | true =>
        by_cases hcontainer : type = "object" ∨ type = "array"
        · have heq : combine [part] true = anyOf ([part] ++ nulls true) := by
            rcases hcontainer with rfl | rfl <;> simp [combine, htype, nulls]
          exact heq ▸ hanyOf (by simp [nulls])
        · obtain ⟨hobject, harray⟩ := not_or.mp hcontainer
          obtain ⟨rest, hdetail, hordered⟩ :=
            (hpart.part (Nat.le_refl _) htype hne).of_other hobject harray
          have hnullable := hdetail.reordered_combine hordered
          exact ⟨.nullable hdetail hne hnullable, fun hempty => absurd hempty hnullable.ne_empty⟩
  · exact hanyOf (by simp)

/-- Every group merges, into parts of distinct types, of which there are some if any type
other than null occurs. -/
theorem mapM_mergeGroup_wellFormed {merge : List Json → Except Fault Json} {bound : Nat}
    (hmerge : MergesWellFormed formats merge bound) {schemas : List Json}
    (h : ∀ schema ∈ schemas, WellFormed formats schema ∧ schema.depth ≤ bound) :
    ∃ parts, (collapseNumbers (sortedOf (singles schemas)).groups).mapM
        (fun entry => mergeGroup merge entry.1 entry.2) = .ok parts ∧
      (∀ part ∈ parts, WellFormed formats part) ∧ Apart parts ∧
      (parts = [] → typesOf (singles schemas) = []) := by
  rcases collapseNumbers_cases (sortedOf (singles schemas)).groups with heq | ⟨heq, _, _⟩ <;>
    rw [heq]
  · have hgroup : ∀ type ∈ typesOf (singles schemas), ∃ part,
        mergeGroup merge (.str type) (singlesOf type schemas) = .ok part ∧
          (WellFormed formats part ∧ part.get? "type" = some (.str type)) := by
      intro type hmem
      obtain ⟨hoccurs, hne⟩ := mem_typesOf_iff_occurs.mp hmem
      obtain ⟨piece, hpiece⟩ := occurs_iff.mp hoccurs
      exact mergeGroup_wellFormed hmerge (List.ne_nil_of_mem hpiece)
        (wellFormedPart_of_mem_singlesOf hne h)
    obtain ⟨parts, hparts, hrel⟩ := mapM_ok hgroup
    have htyped := hrel.imp fun _ _ hpart => hpart.2
    refine ⟨parts, ?_, fun part hmem => ?_, apart_of_forall₂ htyped (nodup_typesOf _)
      fun type hmem => (mem_typesOf_iff_occurs.mp hmem).2, fun hnil => ?_⟩
    · rw [sortedOf, List.mapM_map]
      exact hparts
    · obtain ⟨_, _, hwell, _⟩ := exists_left_of_forall₂ hrel hmem
      exact hwell
    · subst hnil
      exact List.forall₂_nil_right_iff.mp hrel
  · refine ⟨[ofType (.str "number")], rfl, ?_, ⟨?_, by simp⟩, fun hnil => absurd hnil (by simp)⟩
    · exact List.forall_mem_singleton.mpr (.scalar (.plain (by decide)) (.refl _))
    · exact List.forall_mem_singleton.mpr ⟨"number", rfl, by decide⟩

theorem mergeWithin_wellFormed (fuel : Nat) :
    MergesWellFormed formats (mergeWithin fuel) fuel := by
  refine mergeWithin_induction ⟨.empty, fun _ => List.forall_mem_nil _⟩
    (fun schema h => ⟨h, fun heq => List.forall_mem_singleton.mpr heq⟩)
    (fun schema h => h.fallsApart) (fun merge bound hmerge schemas h => ?_) fuel
  obtain ⟨parts, hparts, hwell, hapart, hsome⟩ := mapM_mergeGroup_wellFormed hmerge h
  obtain ⟨hcombined, hempty⟩ :=
    combine_wellFormed hwell hapart ((singles schemas).any (isOf "null"))
  refine ⟨parts, hparts, hcombined, fun heq schema hmem => ?_⟩
  -- If nothing remains, no type occurs, so every schema says nothing.
  obtain ⟨hnil, hnull⟩ := hempty heq
  by_contra hne
  obtain ⟨piece, hpiece, type, htype⟩ := (h schema hmem).1.exists_single hne
  have hsingle : piece ∈ singles schemas := mem_singles.mpr ⟨schema, hmem, hpiece⟩
  by_cases hnulls : type = "null"
  · subst hnulls
    exact List.any_eq_false.mp hnull piece hsingle (isOf_iff.mpr htype)
  · have hoccurs := mem_typesOf_iff_occurs.mpr ⟨⟨piece, hsingle, isOf_iff.mpr htype⟩, hnulls⟩
    exact List.not_mem_nil (hsome hnil ▸ hoccurs)

/-! ## Schemas of values -/

/-- The name of a known format. -/
def IsFormatName (text : String) : Prop :=
  ∃ format : Format, format.name = text

theorem Scalar.detail {type : String} {rest : List (String × Json)} (h : Scalar type rest) :
    Detail IsFormatName type rest := by
  cases h with
  | plain hmem => exact .plain (List.mem_cons_of_mem _ hmem)
  | format format => exact .format ⟨format, rfl⟩

/-- What merging builds is well-formed. -/
theorem Tidy.wellFormed {settled : Prop} (h : Tidy settled schema) :
    WellFormed IsFormatName schema := by
  induction h with
  | scalar hscalar => exact .scalar hscalar.detail (.refl _)
  | object hnodup hsub hfilled _ ih => exact .object hnodup hsub hfilled ih (.refl _)
  | array _ ih => exact .array ih (.refl _)
  | combined nullable _ hapart _ ih => exact (combine_wellFormed ih hapart nullable).1
  | anyOf _ _ hapart hlength ih => exact wellFormed_anyOf ih hapart hlength

/-- Every value without repeated names has a well-formed schema that says something.
Well-formed schemas, whatever formats their texts have, merge without fault to a
well-formed one. -/
theorem wellFormed_infer_merge :
    (∀ value, Distinct value → ∃ schema, infer value = .ok schema ∧ schema ≠ .empty ∧
      WellFormed IsFormatName schema) ∧
    ∀ (formats : String → Prop) (schemas : List Json),
      (∀ schema ∈ schemas, WellFormed formats schema) →
        ∃ merged, merge schemas = .ok merged ∧ WellFormed formats merged := by
  constructor
  · intro value h
    obtain ⟨schema, hschema, htidy, hne⟩ := @infer_tidy True value h
    exact ⟨schema, hschema, hne, htidy.wellFormed⟩
  · intro formats schemas h
    obtain ⟨merged, hmerged, hwell, _⟩ := mergeWithin_wellFormed _ schemas fun schema hmem =>
      ⟨h schema hmem, Nat.lt_succ_of_le (depth_le_depthItems hmem)⟩
    exact ⟨merged, hmerged, hwell⟩

/-- A value with null among texts, and schemas with the members in another order, with
alternatives and without anything to say. -/
theorem wellFormed_infer_merge_mixed :
    (∃ schema, infer (.obj [("at", .str "2024-01-31"), ("tags", .arr [.str "a", .null])]) =
      .ok schema ∧ schema ≠ .empty ∧ WellFormed IsFormatName schema) ∧
    ∃ merged, merge
      [.obj [("format", .str "hostname"), ("type", .arr [.str "string", .str "null"])],
        anyOf [ofArray .empty, nullType], .empty] = .ok merged ∧
      WellFormed (· = "hostname") merged := by
  obtain ⟨hinfer, hmerge⟩ := wellFormed_infer_merge
  refine ⟨hinfer _ (by decide), hmerge (· = "hostname") _ fun schema hmem => ?_⟩
  simp only [List.mem_cons, List.not_mem_nil, or_false] at hmem
  rcases hmem with rfl | rfl | rfl
  · exact .nullable (.format rfl) (by decide) (.members (.swap _ _ _))
  · refine .anyOf (by decide) ?_ ?_ (by decide) (by decide)
    · simpa using ⟨.array .empty (.refl _), wellFormed_nullType⟩
    · simpa using ⟨⟨"array", rfl⟩, ⟨"null", rfl⟩⟩
  · exact .empty

end RequestShapes.Schema
