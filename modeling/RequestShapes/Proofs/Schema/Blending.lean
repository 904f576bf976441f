import RequestShapes.Proofs.Schema.Agreeing
import RequestShapes.Proofs.Schema.Summarizing

/-!
# Merged schemas say what was merged

Tidy schemas merge into a tidy schema that says in every position what the schemas
say together. So what is merged does not depend on the order of the schemas or on
how often each of them occurs.
-/

namespace RequestShapes.Schema

/-- Tidy schemas that are nested less deeply merge into a tidy one that says the
same. -/
def MergesTidy (settled : Prop) (merge : List Json → Except Fault Json) (bound : Nat) : Prop :=
  ∀ schemas, (∀ schema ∈ schemas, Tidy settled schema ∧ schema.depth < bound) →
    ∃ merged, merge schemas = .ok merged ∧ Tidy settled merged ∧ Agree schemas [merged]

variable {settled : Prop}

/-! ## Integers and numbers -/

theorem mem_typesOf_iff_occurs {pieces : List Json} {type : String} :
    type ∈ typesOf pieces ↔ Occurs type pieces ∧ type ≠ "null" := by
  simp only [mem_typesOf, typeOf?_eq_some, Occurs, ← and_assoc, exists_and_right]

/-- Only numbers occur if there is a group of integers and one of numbers. -/
theorem onlyNumbers_iff_perm {pieces : List Json} :
    OnlyNumbers pieces ↔ (typesOf pieces).Perm ["integer", "number"] := by
  rw [List.perm_ext_iff_of_nodup (nodup_typesOf pieces) (by decide)]
  constructor
  · intro honly type
    rw [mem_typesOf_iff_occurs]
    constructor
    · rintro ⟨hoccurs, hne⟩
      have hmem := honly.others type hoccurs
      simp only [List.mem_cons, List.not_mem_nil, or_false] at hmem ⊢
      tauto
    · intro hmem
      simp only [List.mem_cons, List.not_mem_nil, or_false] at hmem
      rcases hmem with rfl | rfl
      · exact ⟨honly.integer, by decide⟩
      · exact ⟨honly.number, by decide⟩
  · intro htypes
    refine ⟨(mem_typesOf_iff_occurs.mp ((htypes "integer").mpr (by decide))).1,
      (mem_typesOf_iff_occurs.mp ((htypes "number").mpr (by decide))).1, fun type hoccurs => ?_⟩
    by_cases hne : type = "null"
    · subst hne
      decide
    · have hmem := (htypes type).mp (mem_typesOf_iff_occurs.mpr ⟨hoccurs, hne⟩)
      exact List.mem_append_left ["null"] hmem

theorem eq_or_eq_of_perm_pair {α : Type} {items : List α} {first second : α}
    (h : items.Perm [first, second]) : items = [first, second] ∨ items = [second, first] := by
  match items, h.length_eq with
  | [a, b], _ =>
      have ha : a = first ∨ a = second := by simpa using h.subset List.mem_cons_self
      rcases ha with rfl | rfl
      · exact .inl (by simpa using h)
      · have hswap := h.trans (List.Perm.swap _ _ [])
        exact .inr (by simpa using hswap)

variable {pieces : List Json} {group : String → List Json}

theorem collapseNumbers_of_onlyNumbers (h : OnlyNumbers pieces) :
    collapseNumbers ((typesOf pieces).map fun type => (.str type, group type)) =
      [(.str "number", [ofType (.str "number")])] := by
  rcases eq_or_eq_of_perm_pair (onlyNumbers_iff_perm.mp h) with heq | heq <;> rw [heq] <;> rfl

theorem collapseNumbers_of_not (h : ¬ OnlyNumbers pieces) :
    collapseNumbers ((typesOf pieces).map fun type => (.str type, group type)) =
      (typesOf pieces).map fun type => (.str type, group type) := by
  have htypes {first second : String} (heq : ((typesOf pieces).map fun type =>
      ((.str type : Json), group type)).map Prod.fst = [.str first, .str second]) :
      typesOf pieces = [first, second] := by
    rw [List.map_map] at heq
    exact List.map_injective_iff.mpr (fun _ _ => Json.str.inj)
      (show _ = [first, second].map Json.str from heq)
  unfold collapseNumbers
  split
  next heq => exact absurd (onlyNumbers_iff_perm.mpr (htypes heq ▸ .refl _)) h
  next heq => exact absurd (onlyNumbers_iff_perm.mpr (htypes heq ▸ .swap _ _ [])) h
  next => rfl

/-! ## Schemas of one type -/

/-- The shape of a tidy object schema. -/
structure TidyShape (settled : Prop) (shape : Shape) : Prop where
  nodup : (Table.names shape.properties).Nodup
  sublist : shape.required.Sublist (Table.names shape.properties)
  filled : ∀ entry ∈ shape.properties, entry.2 ≠ .empty
  inner : ∀ entry ∈ shape.properties, Tidy settled entry.2

theorem TidyPart.of_object {schema : Json} (h : TidyPart settled "object" schema) :
    ∃ shape : Shape, schema = shape.schema ∧ TidyShape settled shape := by
  generalize htype : "object" = type at h
  cases h with
  | scalar hscalar => exact absurd (htype ▸ hscalar.mem) (by decide)
  | @object properties required hnodup hsub hfilled hinner =>
      exact ⟨⟨properties, required⟩, rfl, hnodup, hsub, hfilled, hinner⟩
  | array => exact absurd htype (by decide)

theorem TidyPart.of_array {schema : Json} (h : TidyPart settled "array" schema) :
    ∃ items, schema = ofArray items ∧ Tidy settled items := by
  generalize htype : "array" = type at h
  cases h with
  | scalar hscalar => exact absurd (htype ▸ hscalar.mem) (by decide)
  | object => exact absurd htype (by decide)
  | array hitems => exact ⟨_, rfl, hitems⟩

theorem TidyPart.of_other {type : String} {schema : Json} (h : TidyPart settled type schema)
    (hobject : type ≠ "object") (harray : type ≠ "array") :
    ∃ rest, Scalar type rest ∧ schema = .obj (("type", .str type) :: rest) := by
  cases h with
  | scalar hscalar => exact ⟨_, hscalar, rfl⟩
  | object => exact absurd rfl hobject
  | array => exact absurd rfl harray

theorem sameContent_of_other {type : String} (hobject : type ≠ "object") (harray : type ≠ "array")
    (hstring : type ≠ "string") (pieces others : List Json) : SameContent type pieces others := by
  refine ⟨?_, ?_⟩
  · rintro (_ | _ | _) rfl
    · exact absurd rfl hstring
    · exact absurd rfl hobject
    · exact absurd rfl hobject
  · rintro (_ | _) rfl
    · exact absurd rfl hobject
    · exact absurd rfl harray

theorem Agree.exists_occurs {schemas others : List Json} (h : Agree schemas others)
    (hsome : ∃ type, Occurs type (singles schemas)) : ∃ type, Occurs type (singles others) := by
  obtain ⟨type, hoccurs⟩ := hsome
  obtain ⟨found, hremains⟩ : ∃ found, Remains found schemas := by
    by_cases honly : OnlyNumbers (singles schemas)
    · exact ⟨"number", honly.number, by simp⟩
    · exact ⟨type, hoccurs, fun hboth => honly hboth.2⟩
  exact ⟨found, (((h []).types found).mp hremains).1⟩

/-- Array schemas have the same content if their items agree. -/
theorem sameContent_array {items others : List Json} (h : Agree items others) :
    SameContent "array" (items.map ofArray) (others.map ofArray) := by
  have hitems (items : List Json) :
      (items.map ofArray).filterMap Stage.elements.inner? = items := by
    rw [List.filterMap_map]
    exact List.filterMap_some
  refine ⟨?_, ?_⟩
  · rintro (_ | _ | _) htype <;> exact absurd htype (by simp [Trait.type])
  · rintro (_ | _) htype
    · exact absurd htype (by simp [Stage.type])
    · rwa [hitems, hitems]

theorem filterMap_under (shapes : List Shape) (name : String) :
    (shapes.map Shape.schema).filterMap (Stage.under name).inner? =
      column (shapes.map Shape.properties) name := by
  rw [List.filterMap_map, column, List.filterMap_map]
  rfl

theorem required_holds_iff {shapes : List Shape} {name : String} :
    (Trait.required name).Holds (shapes.map Shape.schema) ↔
      ∀ shape ∈ shapes, name ∈ shape.required := by
  rw [Trait.Holds, List.forall_mem_map]
  refine forall₂_congr fun shape _ => ?_
  rw [Shape.schema, requires_ofObject]
  simp

theorem property_holds_iff {shapes : List Shape} {name : String} :
    (Trait.property name).Holds (shapes.map Shape.schema) ↔
      ∃ shape ∈ shapes, name ∈ Table.names shape.properties := by
  rw [Trait.Holds]
  simp only [List.mem_map, exists_exists_and_eq_and, ← Table.has_iff_mem_names]
  rfl

/-- Object schemas have the content of one that requires the same names and says the
same under each name. -/
theorem sameContent_object_iff {shapes : List Shape} {shape : Shape} :
    SameContent "object" (shapes.map Shape.schema) [shape.schema] ↔
      (∀ name, (∀ other ∈ shapes, name ∈ other.required) ↔ name ∈ shape.required) ∧
      (∀ name, (∃ other ∈ shapes, name ∈ Table.names other.properties) ↔
        name ∈ Table.names shape.properties) ∧
      ∀ name, Agree (column (shapes.map Shape.properties) name)
        (Table.get? shape.properties name).toList := by
  have hone : [shape.schema] = [shape].map Shape.schema := rfl
  have hrequired (name : String) :
      (Trait.required name).Holds [shape.schema] ↔ name ∈ shape.required := by
    rw [hone, required_holds_iff, List.forall_mem_singleton]
  have hproperty (name : String) :
      (Trait.property name).Holds [shape.schema] ↔ name ∈ Table.names shape.properties := by
    rw [hone, property_holds_iff]
    simp
  have hunder (name : String) : [shape.schema].filterMap (Stage.under name).inner? =
      (Table.get? shape.properties name).toList := by
    rw [hone, filterMap_under]
    cases hget : Table.get? shape.properties name <;> simp [column, hget]
  constructor
  · refine fun h => ⟨fun name => ?_, fun name => ?_, fun name => ?_⟩
    · rw [← required_holds_iff, ← hrequired]
      exact h.traits (.required name) rfl
    · rw [← property_holds_iff, ← hproperty]
      exact h.traits (.property name) rfl
    · rw [← filterMap_under, ← hunder]
      exact h.stages (.under name) rfl
  · rintro ⟨hneeded, hnames, hagree⟩
    refine ⟨?_, ?_⟩
    · rintro (_ | name | name) htype
      · exact absurd htype (by simp [Trait.type])
      · rw [required_holds_iff, hrequired, hneeded]
      · rw [property_holds_iff, hproperty, hnames]
    · rintro (name | _) htype
      · rw [filterMap_under, hunder]
        exact hagree name
      · exact absurd htype (by decide)

section Groups

variable {merge : List Json → Except Fault Json} {bound : Nat}
  (hmerge : MergesTidy settled merge bound)

include hmerge

theorem mergeObjects_tidy {shapes : List Shape} (hsome : shapes ≠ [])
    (hshapes : ∀ shape ∈ shapes, TidyShape settled shape)
    (hdepth : ∀ shape ∈ shapes, shape.schema.depth ≤ bound) :
    ∃ part, mergeGroup merge (.str "object") (shapes.map Shape.schema) = .ok part ∧
      TidyPart settled "object" part ∧ SameContent "object" (shapes.map Shape.schema) [part] := by
  have hunder : ∀ entry ∈ collected shapes, ∃ merged, merge entry.2 = .ok merged ∧
      Tidy settled merged ∧ merged ≠ .empty ∧
      Agree (column (shapes.map Shape.properties) entry.1) [merged] := by
    intro entry hentry
    have hnodup : ∀ shape ∈ shapes, (Table.names shape.properties).Nodup :=
      fun shape hmem => (hshapes shape hmem).nodup
    have hcolumn := eq_column_of_mem_collected hnodup hentry
    obtain ⟨hsome, hstand⟩ := exists_of_mem_collected hnodup hentry
    have hinner : ∀ schema ∈ entry.2,
        (Tidy settled schema ∧ schema ≠ .empty) ∧ schema.depth < bound := by
      intro schema hmem
      obtain ⟨shape, hshape, hproperty⟩ := hstand schema hmem
      have hle := hdepth shape hshape
      have hbelow : schema.depth ≤ _ := depth_le_depthMembers hproperty
      simp only [Shape.schema, ofObject, Json.depth, Json.depthMembers] at hle
      exact ⟨⟨(hshapes shape hshape).inner _ hproperty, (hshapes shape hshape).filled _ hproperty⟩,
        by omega⟩
    obtain ⟨merged, hmerged, htidy, hagree⟩ :=
      hmerge entry.2 fun schema hmem => ⟨(hinner schema hmem).1.1, (hinner schema hmem).2⟩
    -- Where a property stands some schema says something, so some type remains of it and
    -- the merged schema is not empty.
    have hoccurs : ∃ type, Occurs type (singles entry.2) := by
      obtain ⟨schema, hmem⟩ := List.exists_mem_of_ne_nil _ hsome
      obtain ⟨⟨htidy, hfilled⟩, _⟩ := hinner schema hmem
      obtain ⟨type, piece, hpiece, hof⟩ := htidy.exists_occurs hfilled
      exact ⟨type, piece, mem_singles.mpr ⟨schema, hmem, hpiece⟩, hof⟩
    refine ⟨merged, hmerged, htidy, ?_, hcolumn ▸ hagree⟩
    rintro rfl
    obtain ⟨type, piece, hpiece, hof⟩ := hagree.exists_occurs hoccurs
    have hnone : singlesOf type [.empty] = [] := singlesOf_vacant rfl type
    exact List.not_mem_nil (hnone ▸ List.mem_filter.mpr ⟨hpiece, hof⟩)
  obtain ⟨shape, hmerged, hkeys, hproperties, hrequired⟩ := mergeGroup_object_forall
    (P := fun name merged => Tidy settled merged ∧ merged ≠ .empty ∧
      Agree (column (shapes.map Shape.properties) name) [merged]) hunder
  have hnames {name : String} : name ∈ Table.names shape.properties ↔
      ∃ shape ∈ shapes, name ∈ Table.names shape.properties := by
    rw [hkeys, mem_names_collected]
  refine ⟨shape.schema, hmerged, .object (hkeys ▸ nodup_names_collected shapes) ?_
    (fun entry hentry => (hproperties entry hentry).2.1)
    (fun entry hentry => (hproperties entry hentry).1),
    sameContent_object_iff.mpr ⟨fun name => ?_, fun name => hnames.symm, fun name => ?_⟩⟩
  · rw [hrequired, hkeys]
    exact List.filter_sublist
  · rw [hrequired, List.mem_filter, decide_eq_true_iff]
    refine (and_iff_right_of_imp fun hall => ?_).symm
    obtain ⟨first, hfirst⟩ := List.exists_mem_of_ne_nil _ hsome
    exact mem_names_collected.mpr
      ⟨first, hfirst, (hshapes first hfirst).sublist.subset (hall first hfirst)⟩
  · cases hget : Table.get? shape.properties name with
    | none =>
        have hcolumn : column (shapes.map Shape.properties) name = [] := by
          refine List.filterMap_eq_nil_iff.mpr (List.forall_mem_map.mpr fun other hother => ?_)
          exact Table.get?_eq_none_iff.mpr fun hname =>
            Table.get?_eq_none_iff.mp hget (hnames.mpr ⟨other, hother, hname⟩)
        exact hcolumn ▸ .refl _
    | some merged => exact (hproperties _ (Table.mem_of_get? hget)).2.2

theorem mergeArrays_tidy {items : List Json} (hitems : ∀ item ∈ items, Tidy settled item)
    (hdepth : ∀ item ∈ items, (ofArray item).depth ≤ bound) :
    ∃ part, mergeGroup merge (.str "array") (items.map ofArray) = .ok part ∧
      TidyPart settled "array" part ∧ SameContent "array" (items.map ofArray) [part] := by
  obtain ⟨merged, hmerged, htidy, hagree⟩ := hmerge (items.filter fun item => !item.isVacant)
    fun item hmem => by
      have hitem := List.mem_of_mem_filter hmem
      have hle := hdepth item hitem
      simp only [ofArray, Json.depth, Json.depthMembers] at hle
      exact ⟨hitems item hitem, by omega⟩
  exact ⟨ofArray merged, mergeGroup_array hmerged, .array htidy,
    @sameContent_array items [merged] ((agree_filled items).trans hagree)⟩

end Groups

/-- A format that every schema has is the common one. -/
theorem commonFormat?_of_forall {schemas : List Json} {format : String} (hsome : schemas ≠ [])
    (h : ∀ schema ∈ schemas, schema.get? "format" = some (.str format)) :
    commonFormat? schemas = .ok (some (.str format)) := by
  have hformats : (schemas.map fun schema => (schema.get? "format").getD .null) =
      List.replicate schemas.length (.str format) := by
    refine List.eq_replicate_iff.mpr
      ⟨List.length_map _, List.forall_mem_map.mpr fun schema hmem => ?_⟩
    rw [h schema hmem, Option.getD_some]
  obtain ⟨count, hcount⟩ := Nat.exists_eq_add_one.mpr (List.length_pos_of_ne_nil hsome)
  rw [commonFormat?]
  simp only [hformats, hcount]
  rw [if_neg (by simp [Json.isContainer]), List.replicate_succ]
  simp

theorem mergeStrings_tidy {merge : List Json → Except Fault Json} {group : List Json}
    (hsome : group ≠ []) (h : ∀ part ∈ group, TidyPart settled "string" part) :
    ∃ part, mergeGroup merge (.str "string") group = .ok part ∧
      TidyPart settled "string" part ∧ SameContent "string" group [part] := by
  have hforms : ∀ part ∈ group, ∃ rest, Scalar "string" rest ∧
      part = .obj (("type", .str "string") :: rest) :=
    fun part hmem => (h part hmem).of_other (by decide) (by decide)
  have hcontent {part : Json} (hformat : ∀ value,
      (Trait.format value).Holds group ↔ (Trait.format value).Holds [part]) :
      SameContent "string" group [part] := by
    refine ⟨?_, ?_⟩
    · rintro (value | _ | _) htype
      · exact hformat value
      all_goals exact absurd htype (by simp [Trait.type])
    · rintro (_ | _) htype <;> exact absurd htype (by simp [Stage.type])
  obtain ⟨first, hfirst⟩ := List.exists_mem_of_ne_nil _ hsome
  simp only [mergeGroup]
  rcases commonFormat?_ok hforms with hnone | ⟨format, hcommon, hall⟩
  · rw [hnone, ok_bind]
    refine ⟨_, rfl, .scalar (.plain (by decide)), hcontent fun value =>
      ⟨fun hheld => ?_, fun hheld => ?_⟩⟩
    · obtain ⟨rest, hscalar, hform⟩ := hforms first hfirst
      have hvalue := hheld first hfirst
      rw [hform] at hvalue
      cases hscalar with
      | plain => cases hvalue
      | format format =>
          obtain rfl : .str format.name = value := by simpa [Json.get?, Table.get?] using hvalue
          rw [commonFormat?_of_forall hsome hheld] at hnone
          cases hnone
    · cases hheld _ List.mem_cons_self
  · rw [hcommon, ok_bind]
    refine ⟨_, rfl, .scalar (.format format), hcontent fun value =>
      ⟨fun hheld => ?_, fun hheld => ?_⟩⟩
    · exact List.forall_mem_singleton.mpr (hall first hfirst ▸ hheld first hfirst)
    · exact fun part hmem => hall part hmem ▸ hheld _ List.mem_cons_self

/-- Schemas of one type merge into one that says the same of the values of this
type. -/
theorem mergeGroup_tidy {merge : List Json → Except Fault Json} {bound : Nat}
    (hmerge : MergesTidy settled merge bound) {type : String} {group : List Json}
    (hsome : group ≠ []) (h : ∀ part ∈ group, TidyPart settled type part ∧ part.depth ≤ bound) :
    ∃ part, mergeGroup merge (.str type) group = .ok part ∧ TidyPart settled type part ∧
      SameContent type group [part] := by
  by_cases hobject : type = "object"
  · subst hobject
    obtain ⟨shapes, rfl, hshapes⟩ := exists_map_of_forall fun part hmem => (h part hmem).1.of_object
    exact mergeObjects_tidy hmerge (fun hnil => hsome (by rw [hnil, List.map_nil])) hshapes
      fun shape hmem => (h _ (List.mem_map_of_mem hmem)).2
  by_cases harray : type = "array"
  · subst harray
    obtain ⟨items, rfl, hitems⟩ := exists_map_of_forall fun part hmem => (h part hmem).1.of_array
    exact mergeArrays_tidy hmerge hitems fun item hmem => (h _ (List.mem_map_of_mem hmem)).2
  by_cases hstring : type = "string"
  · subst hstring
    exact mergeStrings_tidy hsome fun part hmem => (h part hmem).1
  obtain ⟨first, hfirst⟩ := List.exists_mem_of_ne_nil _ hsome
  obtain ⟨_, hscalar, _⟩ := (h first hfirst).1.of_other hobject harray
  refine ⟨ofType (.str type), ?_, .scalar (.plain hscalar.mem),
    sameContent_of_other hobject harray hstring _ _⟩
  simp [mergeGroup, hobject, harray, hstring]

/-! ## All types -/

/-- Schemas of several types are put together to one that says the same. -/
theorem combine_tidy {schemas parts : List Json} {types : List String}
    (hparts : List.Forall₂ (fun type part => TidyPart settled type part ∧
      SameContent type (singlesOf type schemas) [part]) types parts)
    (hnodup : types.Nodup) (htypes : ∀ type, type ∈ types ↔ Remains type schemas ∧ type ≠ "null") :
    Tidy settled (combine parts ((singles schemas).any (isOf "null"))) ∧
      Agree schemas [combine parts ((singles schemas).any (isOf "null"))] := by
  have hall : ∀ part ∈ parts, ∃ type, TidyPart settled type part := by
    intro part hmem
    obtain ⟨type, _, hpart⟩ := exists_left_of_forall₂ hparts hmem
    exact ⟨type, hpart.1⟩
  have htyped := hparts.imp fun _ _ hpart => hpart.1.get?_type
  have hoccurs {type : String} : Occurs type parts ↔ Remains type schemas ∧ type ≠ "null" := by
    rw [← htypes, Occurs, ← List.mem_map_of_injective some_str_injective,
      ← map_get?_type htyped, List.mem_map]
    simp only [isOf_iff]
  have hapart : Apart parts :=
    apart_of_forall₂ htyped hnodup fun type hmem => ((htypes type).mp hmem).2
  have honly : ¬ OnlyNumbers parts := by
    intro honly
    -- If only numbers were left, only numbers were there, and then no integers remained.
    have hinteger := (hoccurs.mp honly.integer).1
    refine hinteger.2 ⟨rfl, hinteger.1, (hoccurs.mp honly.number).1.1, fun type htype => ?_⟩
    by_cases hnull : type = "null"
    · simp [hnull]
    by_cases hnot : type = "integer"
    · simp [hnot]
    exact honly.others type (hoccurs.mpr ⟨⟨htype, fun hboth => hnot hboth.1⟩, hnull⟩)
  have hfalls := fallsInto_combine hall hapart honly ((singles schemas).any (isOf "null"))
  refine ⟨.combined _ (fun part hmem => (hall part hmem).elim fun _ hpart => hpart.tidy) hapart
      honly, agree_iff.mpr ⟨fun type => ?_, fun type => ?_⟩⟩
  · have hremains : Remains type [combine parts ((singles schemas).any (isOf "null"))] ↔
        Occurs type parts ∨ type = "null" ∧ (singles schemas).any (isOf "null") = true := by
      rw [Remains, hfalls.onlyNumbers_iff, hfalls.occurs_iff]
      exact and_iff_left fun hboth => honly hboth.2
    rw [hremains, hoccurs, List.any_eq_true]
    by_cases hnull : type = "null"
    · subst hnull
      simp [Remains, Occurs]
    · simp [hnull]
  · by_cases hmem : type ∈ types
    · obtain ⟨part, hpart, htidy, hsame⟩ := exists_right_of_forall₂ hparts hmem
      rwa [hfalls.singlesOf_part hpart htidy]
    -- A type that is left out has no schemas before and after, unless integers or null,
    -- of which nothing more is said.
    by_cases hcontent : type = "object" ∨ type = "array" ∨ type = "string"
    · have hne : type ≠ "null" ∧ type ≠ "integer" := by
        rcases hcontent with rfl | rfl | rfl <;> decide
      have hnone : ¬ Remains type schemas := fun hremains =>
        hmem ((htypes type).mpr ⟨hremains, hne.1⟩)
      rw [singlesOf_eq_nil fun hthere => hnone ⟨hthere, fun hboth => hne.2 hboth.1⟩,
        singlesOf_eq_nil fun hthere => ?_]
      · exact .refl _ _
      · rw [hfalls.occurs_iff, hoccurs] at hthere
        exact hthere.elim (fun hboth => hnone hboth.1) fun hboth => hne.1 hboth.1
    · simp only [not_or] at hcontent
      exact sameContent_of_other hcontent.1 hcontent.2.1 hcontent.2.2 _ _

/-- Every group merges, into parts of the types that remain. -/
theorem mapM_mergeGroup_tidy {merge : List Json → Except Fault Json} {bound : Nat}
    (hmerge : MergesTidy settled merge bound) {schemas : List Json}
    (h : ∀ schema ∈ schemas, Tidy settled schema ∧ schema.depth ≤ bound) :
    ∃ types parts, (collapseNumbers (sortedOf (singles schemas)).groups).mapM
        (fun entry => mergeGroup merge entry.1 entry.2) = .ok parts ∧
      List.Forall₂ (fun type part => TidyPart settled type part ∧
        SameContent type (singlesOf type schemas) [part]) types parts ∧
      types.Nodup ∧ ∀ type, type ∈ types ↔ Remains type schemas ∧ type ≠ "null" := by
  by_cases honly : OnlyNumbers (singles schemas)
  · refine ⟨["number"], [ofType (.str "number")], ?_, .cons ⟨.scalar (.plain (by decide)), ?_⟩ .nil,
      by simp, fun type => ?_⟩
    · rw [sortedOf, collapseNumbers_of_onlyNumbers honly]
      rfl
    · exact sameContent_of_other (by decide) (by decide) (by decide) _ _
    · rw [List.mem_singleton]
      refine ⟨fun heq => heq ▸ ⟨⟨honly.number, by simp⟩, by decide⟩, ?_⟩
      rintro ⟨⟨hoccurs, hnot⟩, hne⟩
      have hmem := honly.others type hoccurs
      simp only [List.mem_cons, List.not_mem_nil, or_false] at hmem
      tauto
  · have hgroup : ∀ type ∈ typesOf (singles schemas), ∃ part,
        mergeGroup merge (.str type) (singlesOf type schemas) = .ok part ∧
          (TidyPart settled type part ∧ SameContent type (singlesOf type schemas) [part]) := by
      intro type hmem
      obtain ⟨hoccurs, hne⟩ := mem_typesOf_iff_occurs.mp hmem
      obtain ⟨piece, hpiece⟩ := occurs_iff.mp hoccurs
      exact mergeGroup_tidy hmerge (List.ne_nil_of_mem hpiece) (tidyPart_of_mem_singlesOf hne h)
    obtain ⟨parts, hparts, hrel⟩ := mapM_ok hgroup
    refine ⟨typesOf (singles schemas), parts, ?_, hrel, nodup_typesOf _, fun type => ?_⟩
    · rw [sortedOf, collapseNumbers_of_not honly, List.mapM_map]
      exact hparts
    · simp [mem_typesOf_iff_occurs, Remains, honly]

theorem not_onlyNumbers_nil : ¬ OnlyNumbers [] := by
  rintro ⟨⟨piece, hmem, _⟩, _, _⟩
  cases hmem

theorem tidy_empty : Tidy settled .empty :=
  @Tidy.combined settled [] false (by simp) ⟨by simp, by simp⟩ not_onlyNumbers_nil

theorem mergeWithin_tidy (fuel : Nat) : MergesTidy settled (mergeWithin fuel) fuel := by
  have hempty : Agree [] [.empty] := agree_of_mem_iff fun type piece => by
    rw [singlesOf_vacant rfl]
    simp [singlesOf, singles]
  refine mergeWithin_induction ⟨tidy_empty, hempty⟩ (fun schema h => ⟨h, .refl _⟩)
    (fun schema h => h.fallsApart) (fun merge bound hmerge schemas h => ?_) fuel
  obtain ⟨types, parts, hparts, hrel, hnodup, htypes⟩ := mapM_mergeGroup_tidy hmerge h
  exact ⟨parts, hparts, combine_tidy hrel hnodup htypes⟩

/-- Tidy schemas merge into a tidy schema that says in every position what they
say. -/
theorem merge_tidy {schemas : List Json} (h : ∀ schema ∈ schemas, Tidy settled schema) :
    ∃ merged, merge schemas = .ok merged ∧ Tidy settled merged ∧ Agree schemas [merged] :=
  mergeWithin_tidy _ schemas fun schema hmem =>
    ⟨h schema hmem, Nat.lt_succ_of_le (depth_le_depthItems hmem)⟩

end RequestShapes.Schema
