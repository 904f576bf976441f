import RequestShapes.Proofs.Schema.Shapes
import RequestShapes.Proofs.Schema.Summaries

/-!
# Merging summarizes

Summaries of one type merge into a summary of what any of them is made of, and
so do summaries of several types. The schema of a value summarizes this value
alone, so the schema of several samples summarizes the samples.
-/

namespace RequestShapes.Schema

/-- Summaries that are nested less deeply are merged into a summary. -/
def MergesSummaries (merge : List Json → Except Fault Json) (bound : Nat) : Prop :=
  ∀ parts : List Summary, (∀ part ∈ parts, Summarizes part.1 part.2 ∧ part.2.depth < bound) →
    ∃ merged, merge (parts.map Prod.snd) = .ok merged ∧ Summarizes (joined parts) merged

theorem exists_map_of_forall {α β : Type} {f : β → α} {P : β → Prop} {items : List α}
    (h : ∀ item ∈ items, ∃ source, item = f source ∧ P source) :
    ∃ sources : List β, items = sources.map f ∧ ∀ source ∈ sources, P source := by
  induction items with
  | nil => exact ⟨[], rfl, fun _ hmem => (nomatch hmem)⟩
  | cons item items ih =>
      obtain ⟨⟨source, rfl, hsource⟩, hrest⟩ := List.forall_mem_cons.mp h
      obtain ⟨sources, rfl, hsources⟩ := ih hrest
      exact ⟨source :: sources, rfl, List.forall_mem_cons.mpr ⟨hsource, hsources⟩⟩

/-! ## Groups of numbers -/

/-- Integers and numbers that collapse are summarized as numbers. -/
theorem collapseNumbers_summaries {bound : Nat} {groups : List Group}
    (h : ∀ group ∈ groups, group.Holds bound) (hnodup : (groups.map Prod.fst).Nodup) :
    ∃ later : List Group, collapseNumbers (groups.map Group.entry) = later.map Group.entry ∧
      (∀ group ∈ later, group.Holds bound) ∧ (later.map Prod.fst).Nodup ∧
      ∀ value, gathered later value ↔ gathered groups value := by
  rcases collapseNumbers_cases (groups.map Group.entry) with heq | ⟨heq, hnonempty, hkeys⟩ <;>
    rw [heq]
  · exact ⟨groups, rfl, h, hnodup, fun _ => Iff.rfl⟩
  · have hscalar : Scalar "number" [] := .plain (by decide)
    have hnumber : ∀ value, gathered groups value → HasType value "number" := by
      rintro value ⟨group, hgroup, part, hpart, hvalue⟩
      have hfits := (h group hgroup).summarizes part hpart |>.fits value hvalue
      have htype := hfits.hasType ((h group hgroup).type part hpart)
      rcases hkeys _ (List.mem_map_of_mem hgroup) with hkey | hkey <;>
        rw [Json.str.inj hkey] at htype
      · exact htype.number_of_integer
      · exact htype
    obtain ⟨group, hgroup⟩ := List.exists_mem_of_ne_nil groups (by
      rintro rfl
      exact hnonempty rfl)
    obtain ⟨part, hpart⟩ := List.exists_mem_of_ne_nil _ (h group hgroup).nonempty
    obtain ⟨value, hvalue⟩ :=
      ((h group hgroup).summarizes part hpart).exists_of_type ((h group hgroup).type part hpart)
    have hpos := ((h group hgroup).summarizes part hpart).normal.depth_pos
    have hbound := (h group hgroup).depth part hpart
    refine ⟨[("number", [(gathered groups, ofType (.str "number"))])], rfl,
      List.forall_mem_singleton.mpr ⟨by simp, by simp, ?_, ?_, ?_⟩, by simp, fun value => ?_⟩
    · exact List.forall_mem_singleton.mpr (.scalar hscalar ⟨value, group, hgroup, part, hpart, hvalue⟩
        fun value hvalue => .scalar hscalar (hnumber value hvalue))
    · exact List.forall_mem_singleton.mpr rfl
    · refine List.forall_mem_singleton.mpr ?_
      simp only [ofType, Json.depth, Json.depthMembers]
      omega
    · simp [gathered, joined]

/-! ## Groups of objects -/

/-- What an object schema summarizes. -/
structure SummarizesObject (observed : Observed) (properties : List (String × Json))
    (required : List String) : Prop where
  nonempty : ∃ value, observed value
  objects : ∀ value, observed value → ∃ members, value = .obj members
  nodup : (Table.names properties).Nodup
  sublist : required.Sublist (Table.names properties)
  names (name : String) : name ∈ Table.names properties ↔
    ∃ members, observed (.obj members) ∧ name ∈ Table.names members
  required (name : String) :
    name ∈ required ↔ ∀ members, observed (.obj members) → name ∈ Table.names members
  inner : ∀ entry ∈ properties, Summarizes (observed.under entry.1) entry.2

theorem Summarizes.of_object {observed : Observed} {schema : Json} (h : Summarizes observed schema)
    (htype : schema.get? "type" = some (.str "object")) :
    ∃ properties required, schema = ofObject properties required ∧
      SummarizesObject observed properties required := by
  cases h with
  | object hsome hobjects hnodup hsub hnames hrequired hinner =>
      exact ⟨_, _, rfl, hsome, hobjects, hnodup, hsub, hnames, hrequired, hinner⟩
  | @scalar _ type rest hscalar =>
      have heq : type = "object" := by simpa [Json.get?, Table.get?] using htype
      subst heq
      exact absurd hscalar.mem (by decide)
  | _ => simp [Json.empty, nullType, ofType, ofArray, Schema.anyOf, Json.get?, Table.get?] at htype

/-- An object schema with what it summarizes. -/
structure ObjectPart extends Shape where
  observed : Observed

/-- The schema of an object part as a summary. -/
def ObjectPart.summary (part : ObjectPart) : Summary :=
  (part.observed, part.schema)

/-- The summaries under a name. -/
def summariesUnder (parts : List ObjectPart) (name : String) : List Summary :=
  parts.filterMap fun part =>
    (Table.get? part.properties name).map fun schema => (part.observed.under name, schema)

theorem map_summariesUnder (parts : List ObjectPart) (name : String) :
    (summariesUnder parts name).map Prod.snd =
      column ((parts.map ObjectPart.toShape).map Shape.properties) name := by
  simp [summariesUnder, column, List.map_filterMap, List.filterMap_map, Function.comp_def]

section Objects

variable {parts : List ObjectPart}
  (hparts : ∀ part ∈ parts, SummarizesObject part.observed part.properties part.required)

include hparts

theorem joined_summariesUnder (name : String) (value : Json) :
    joined (summariesUnder parts name) value ↔
      (joined (parts.map ObjectPart.summary)).under name value := by
  constructor
  · rintro ⟨_, hmem, hvalue⟩
    obtain ⟨part, hpart, hfound⟩ := List.mem_filterMap.mp hmem
    obtain ⟨schema, _, rfl⟩ := Option.map_eq_some_iff.mp hfound
    obtain ⟨members, hmembers, hget⟩ := hvalue
    exact ⟨members, ⟨part.summary, List.mem_map_of_mem hpart, hmembers⟩, hget⟩
  · rintro ⟨members, ⟨_, hmem, hmembers⟩, hget⟩
    obtain ⟨part, hpart, rfl⟩ := List.mem_map.mp hmem
    obtain ⟨schema, hschema⟩ := Table.exists_get?_of_mem_names (((hparts part hpart).names name).mpr
      ⟨members, hmembers, Table.mem_names_of_get? hget⟩)
    exact ⟨(part.observed.under name, schema), List.mem_filterMap.mpr ⟨part, hpart, by rw [hschema]; rfl⟩,
      members, hmembers, hget⟩

/-- The names of several object schemas are those that are observed in any of
them. -/
theorem mem_names_iff_joined (name : String) :
    name ∈ Table.names (collected (parts.map ObjectPart.toShape)) ↔
      ∃ members, joined (parts.map ObjectPart.summary) (.obj members) ∧
        name ∈ Table.names members := by
  rw [mem_names_collected]
  constructor
  · rintro ⟨_, hmem, hname⟩
    obtain ⟨part, hpart, rfl⟩ := List.mem_map.mp hmem
    obtain ⟨members, hmembers, hthere⟩ := ((hparts part hpart).names name).mp hname
    exact ⟨members, ⟨part.summary, List.mem_map_of_mem hpart, hmembers⟩, hthere⟩
  · rintro ⟨members, ⟨_, hmem, hmembers⟩, hname⟩
    obtain ⟨part, hpart, rfl⟩ := List.mem_map.mp hmem
    exact ⟨part.toShape, List.mem_map_of_mem hpart,
      ((hparts part hpart).names name).mpr ⟨members, hmembers, hname⟩⟩

end Objects

/-- Summaries of objects merge property by property. -/
theorem mergeObjects_summaries {merge : List Json → Except Fault Json} {bound : Nat}
    (hmerge : MergesSummaries merge bound) {parts : List ObjectPart} (hsome : parts ≠ [])
    (hparts : ∀ part ∈ parts, SummarizesObject part.observed part.properties part.required)
    (hdepth : ∀ part ∈ parts, part.summary.2.depth ≤ bound) :
    ∃ merged, mergeGroup merge (.str "object") (parts.map fun part => part.summary.2) = .ok merged ∧
      Summarizes (joined (parts.map ObjectPart.summary)) merged ∧
      merged.get? "type" = some (.str "object") := by
  have hschemas : (parts.map fun part => part.summary.2) =
      (parts.map ObjectPart.toShape).map Shape.schema := by
    rw [List.map_map]
    rfl
  have hunder : ∀ entry ∈ collected (parts.map ObjectPart.toShape), ∃ merged,
      merge entry.2 = .ok merged ∧
        Summarizes ((joined (parts.map ObjectPart.summary)).under entry.1) merged := by
    intro entry hentry
    obtain ⟨merged, hmerged, hsummarizes⟩ := hmerge (summariesUnder parts entry.1) fun found hmem => by
      obtain ⟨part, hpart, hfound⟩ := List.mem_filterMap.mp hmem
      obtain ⟨schema, hschema, rfl⟩ := Option.map_eq_some_iff.mp hfound
      have hproperty := Table.mem_of_get? hschema
      have hle := hdepth part hpart
      have hinner : schema.depth ≤ _ := depth_le_depthMembers hproperty
      simp only [ObjectPart.summary, Shape.schema, ofObject, Json.depth, Json.depthMembers] at hle
      exact ⟨(hparts part hpart).inner _ hproperty, show schema.depth < bound by omega⟩
    rw [map_summariesUnder, ← eq_column_of_mem_collected (List.forall_mem_map.mpr
      fun part hpart => (hparts part hpart).nodup) hentry] at hmerged
    exact ⟨merged, hmerged,
      hsummarizes.congr fun value => (joined_summariesUnder hparts entry.1 value).symm⟩
  obtain ⟨shape, hmerged, hkeys, hproperties, hrequired⟩ := mergeGroup_object_forall
    (P := fun name => Summarizes ((joined (parts.map ObjectPart.summary)).under name)) hunder
  have hnodup := nodup_names_collected (parts.map ObjectPart.toShape)
  have hnames := mem_names_iff_joined hparts
  refine ⟨shape.schema, hschemas ▸ hmerged, .object ?_ ?_ ?_ ?_ ?_ ?_ ?_, rfl⟩
  · obtain ⟨part, hpart⟩ := List.exists_mem_of_ne_nil _ hsome
    obtain ⟨value, hvalue⟩ := (hparts part hpart).nonempty
    exact ⟨value, part.summary, List.mem_map_of_mem hpart, hvalue⟩
  · rintro value ⟨_, hmem, hvalue⟩
    obtain ⟨part, hpart, rfl⟩ := List.mem_map.mp hmem
    exact (hparts part hpart).objects value hvalue
  · rwa [hkeys]
  · rw [hkeys, hrequired]
    exact List.filter_sublist
  · rwa [hkeys]
  · intro name
    rw [hrequired, List.mem_filter, decide_eq_true_iff, List.forall_mem_map]
    constructor
    · rintro ⟨_, hall⟩ members ⟨_, hmem, hmembers⟩
      obtain ⟨part, hpart, rfl⟩ := List.mem_map.mp hmem
      exact ((hparts part hpart).required name).mp (hall part hpart) members hmembers
    · intro hall
      have hinner : ∀ part ∈ parts, ∀ members, part.observed (.obj members) →
          name ∈ Table.names members := fun part hpart members hmembers =>
        hall members ⟨part.summary, List.mem_map_of_mem hpart, hmembers⟩
      refine ⟨?_, fun part hpart => ((hparts part hpart).required name).mpr (hinner part hpart)⟩
      obtain ⟨part, hpart⟩ := List.exists_mem_of_ne_nil _ hsome
      obtain ⟨value, hvalue⟩ := (hparts part hpart).nonempty
      obtain ⟨members, rfl⟩ := (hparts part hpart).objects value hvalue
      exact (hnames name).mpr ⟨members, ⟨part.summary, List.mem_map_of_mem hpart, hvalue⟩,
        hinner part hpart members hvalue⟩
  · exact hproperties

/-! ## Groups of arrays -/

theorem Summarizes.of_array {observed : Observed} {schema : Json} (h : Summarizes observed schema)
    (htype : schema.get? "type" = some (.str "array")) :
    ∃ items, schema = ofArray items ∧ (∃ value, observed value) ∧
      (∀ value, observed value → ∃ items, value = .arr items) ∧
      Summarizes observed.elements items := by
  cases h with
  | array hsome harrays hinner => exact ⟨_, rfl, hsome, harrays, hinner⟩
  | @scalar _ type rest hscalar =>
      have heq : type = "array" := by simpa [Json.get?, Table.get?] using htype
      subst heq
      exact absurd hscalar.mem (by decide)
  | _ => simp [Json.empty, nullType, ofType, ofObject, Schema.anyOf, Json.get?, Table.get?] at htype

/-- The schema of an array, given that of its items, as a summary. -/
def arraySummary (part : Summary) : Summary := (part.1, ofArray part.2)

/-- The summaries of items. Where the schema of the items is empty, no item was
observed. -/
def summariesOfItems (parts : List Summary) : List Summary :=
  (parts.filter fun part => !part.2.isVacant).map fun part => (part.1.elements, part.2)

theorem map_summariesOfItems (parts : List Summary) :
    (summariesOfItems parts).map Prod.snd =
      (parts.map Prod.snd).filter fun schema => !schema.isVacant := by
  rw [summariesOfItems, List.map_map, List.filter_map]
  rfl

theorem joined_summariesOfItems {parts : List Summary}
    (h : ∀ part ∈ parts, Summarizes part.1.elements part.2) (value : Json) :
    joined (summariesOfItems parts) value ↔ (joined (parts.map arraySummary)).elements value := by
  constructor
  · rintro ⟨_, hmem, hvalue⟩
    obtain ⟨part, hpart, rfl⟩ := List.mem_map.mp hmem
    obtain ⟨items, hitems, hitem⟩ := hvalue
    exact ⟨items, ⟨arraySummary part, List.mem_map_of_mem (List.mem_of_mem_filter hpart), hitems⟩,
      hitem⟩
  · rintro ⟨items, ⟨_, hmem, hitems⟩, hitem⟩
    obtain ⟨part, hpart, rfl⟩ := List.mem_map.mp hmem
    have hfilled : part.2.isVacant = false := by
      by_contra hvacant
      have hinner := h part hpart
      rw [hinner.normal.eq_empty (by simpa using hvacant)] at hinner
      exact hinner.not_observed value ⟨items, hitems, hitem⟩
    exact ⟨(part.1.elements, part.2), List.mem_map.mpr ⟨part,
      List.mem_filter.mpr ⟨hpart, by simp [hfilled]⟩, rfl⟩, items, hitems, hitem⟩

/-- Summaries of arrays merge item by item. -/
theorem mergeArrays_summaries {merge : List Json → Except Fault Json} {bound : Nat}
    (hmerge : MergesSummaries merge bound) {parts : List Summary} (hsome : parts ≠ [])
    (hnonempty : ∀ part ∈ parts, ∃ value, part.1 value)
    (harrays : ∀ part ∈ parts, ∀ value, part.1 value → ∃ items, value = .arr items)
    (hinner : ∀ part ∈ parts, Summarizes part.1.elements part.2)
    (hdepth : ∀ part ∈ parts, (arraySummary part).2.depth ≤ bound) :
    ∃ merged, mergeGroup merge (.str "array") (parts.map fun part => (arraySummary part).2) =
        .ok merged ∧
      Summarizes (joined (parts.map arraySummary)) merged ∧
      merged.get? "type" = some (.str "array") := by
  obtain ⟨merged, hmerged, hsummarizes⟩ := hmerge (summariesOfItems parts) fun found hmem => by
    obtain ⟨part, hpart, rfl⟩ := List.mem_map.mp hmem
    have hpart := List.mem_of_mem_filter hpart
    have hle := hdepth part hpart
    simp only [arraySummary, ofArray, Json.depth, Json.depthMembers] at hle
    exact ⟨hinner part hpart, show part.2.depth < bound by omega⟩
  refine ⟨ofArray merged, ?_, .array ?_ ?_ ?_, rfl⟩
  · rw [map_summariesOfItems] at hmerged
    rw [show (parts.map fun part => (arraySummary part).2) = (parts.map Prod.snd).map ofArray by
      rw [List.map_map]; rfl]
    exact mergeGroup_array hmerged
  · obtain ⟨part, hpart⟩ := List.exists_mem_of_ne_nil _ hsome
    obtain ⟨value, hvalue⟩ := hnonempty part hpart
    exact ⟨value, arraySummary part, List.mem_map_of_mem hpart, hvalue⟩
  · rintro value ⟨_, hmem, hvalue⟩
    obtain ⟨part, hpart, rfl⟩ := List.mem_map.mp hmem
    exact harrays part hpart value hvalue
  · exact hsummarizes.congr fun value => (joined_summariesOfItems hinner value).symm

/-! ## Any group -/

/-- Summaries of one type merge into a summary of this type. -/
theorem mergeGroup_summaries {merge : List Json → Except Fault Json} {bound : Nat}
    (hmerge : MergesSummaries merge bound) {group : Group} (h : group.Holds bound) :
    ∃ merged, mergeGroup merge group.entry.1 group.entry.2 = .ok merged ∧
      Summarizes (joined group.2) merged ∧ merged.get? "type" = some (.str group.1) := by
  obtain ⟨type, parts⟩ := group
  obtain ⟨part, hpart⟩ := List.exists_mem_of_ne_nil _ h.nonempty
  simp only [Group.entry] at *
  by_cases hobject : type = "object"
  · subst hobject
    obtain ⟨objects, rfl, hobjects⟩ := @exists_map_of_forall _ _ ObjectPart.summary
      (fun object => SummarizesObject object.observed object.properties object.required) parts
      fun found hmem => by
        obtain ⟨observed, schema⟩ := found
        obtain ⟨properties, required, rfl, hfacts⟩ :=
          (h.summarizes _ hmem).of_object (h.type _ hmem)
        exact ⟨⟨⟨properties, required⟩, observed⟩, rfl, hfacts⟩
    rw [List.map_map]
    exact mergeObjects_summaries hmerge (fun hnil => by simp [hnil] at hpart) hobjects
      fun object hmem => h.depth _ (List.mem_map_of_mem hmem)
  by_cases harray : type = "array"
  · subst harray
    obtain ⟨arrays, rfl, harrays⟩ := @exists_map_of_forall _ _ arraySummary
      (fun array => (∃ value, array.1 value) ∧
        (∀ value, array.1 value → ∃ items, value = .arr items) ∧
        Summarizes array.1.elements array.2) parts
      fun found hmem => by
        obtain ⟨observed, schema⟩ := found
        obtain ⟨items, rfl, hfacts⟩ := (h.summarizes _ hmem).of_array (h.type _ hmem)
        exact ⟨(observed, items), rfl, hfacts⟩
    rw [List.map_map]
    exact mergeArrays_summaries hmerge (fun hnil => by simp [hnil] at hpart)
      (fun array hmem => (harrays array hmem).1) (fun array hmem => (harrays array hmem).2.1)
      (fun array hmem => (harrays array hmem).2.2)
      fun array hmem => h.depth _ (List.mem_map_of_mem hmem)
  have hforms : ∀ schema ∈ parts.map Prod.snd, ∃ rest, Scalar type rest ∧
      schema = .obj (("type", .str type) :: rest) := by
    intro schema hmem
    obtain ⟨found, hfound, rfl⟩ := List.mem_map.mp hmem
    exact (h.summarizes found hfound).normal.of_scalar (h.type found hfound) h.ne_null hobject harray
  have hsome : ∃ value, joined parts value := by
    obtain ⟨value, hvalue⟩ := (h.summarizes part hpart).exists_of_type (h.type part hpart)
    exact ⟨value, part, hpart, hvalue⟩
  have hplain (hscalar : Scalar type []) : Summarizes (joined parts) (ofType (.str type)) := by
    refine .scalar hscalar hsome ?_
    rintro value ⟨found, hfound, hvalue⟩
    exact .scalar hscalar
      (((h.summarizes found hfound).fits value hvalue).hasType (h.type found hfound))
  by_cases hstring : type = "string"
  · subst hstring
    simp only [mergeGroup]
    rcases commonFormat?_ok hforms with hnone | ⟨format, hcommon, hall⟩
    · rw [hnone, ok_bind]
      exact ⟨_, rfl, hplain (.plain (by decide)), rfl⟩
    · rw [hcommon, ok_bind]
      refine ⟨_, rfl, .scalar (.format format) hsome ?_, rfl⟩
      rintro value ⟨found, hfound, hvalue⟩
      rw [← hall found.2 (List.mem_map_of_mem hfound)]
      exact (h.summarizes found hfound).fits value hvalue
  · obtain ⟨rest, hscalar, _⟩ := hforms part.2 (List.mem_map_of_mem hpart)
    refine ⟨ofType (.str type), ?_, hplain (.plain hscalar.mem), rfl⟩
    simp [mergeGroup, hobject, harray, hstring]

/-! ## All groups -/

theorem combine_summaries {parts : List Summary}
    (h : ∀ part ∈ parts, Summarizes part.1 part.2 ∧ IsTyped part.2)
    (hnodup : (parts.map fun part => part.2.get? "type").Nodup) (nullable : Bool) :
    Summarizes (joined (parts ++ nullParts nullable)) (combine (parts.map Prod.snd) nullable) := by
  have hanyOf (hlength : 2 ≤ (parts ++ nullParts nullable).length) :
      Summarizes (joined (parts ++ nullParts nullable))
        (anyOf ((parts ++ nullParts nullable).map Prod.snd)) :=
    .anyOf hlength (fun part hmem => (h part hmem).1) (fun part hmem => (h part hmem).2) hnodup
      fun _ => Iff.rfl
  match parts, h, hanyOf with
  | [], _, _ =>
      cases nullable with
      | false => exact .empty (by simp [nullParts, joined])
      | true => exact .null (by simp [nullParts, joined])
  | [part], h, hanyOf =>
      obtain ⟨hsummarizes, type, htype, hne⟩ := h part List.mem_cons_self
      cases nullable with
      | false => exact hsummarizes.congr (by simp [nullParts, joined])
      | true =>
          by_cases hcontainer : type = "object" ∨ type = "array"
          · have heq : combine ([part].map Prod.snd) true =
                anyOf (([part] ++ nullParts true).map Prod.snd) := by
              rcases hcontainer with rfl | rfl <;> simp [combine, htype, nullParts]
            rw [heq]
            exact hanyOf (by simp [nullParts])
          · obtain ⟨hobject, harray⟩ := not_or.mp hcontainer
            obtain ⟨rest, hscalar, heq⟩ :=
              hsummarizes.normal.of_scalar htype hne hobject harray
            have hcombine : combine ([part].map Prod.snd) true =
                .obj (("type", .arr [.str type, .str "null"]) :: rest) := by
              simp [combine, heq, hobject, harray, Json.set, Table.set, Json.get?, Table.get?]
            rw [hcombine]
            exact .nullable hscalar (heq ▸ hsummarizes) (by simp [nullParts, joined])
  | first :: second :: rest, _, hanyOf =>
      have hany := hanyOf (by simp)
      rwa [List.map_append, map_nullParts] at hany

/-- Taking several summaries apart loses nothing. -/
theorem mapM_alternatives {parts : List Summary} {bound : Nat}
    (h : ∀ part ∈ parts, Summarizes part.1 part.2 ∧ part.2.depth ≤ bound) :
    ∃ pieces : List (List Summary),
      (parts.map Prod.snd).mapM alternatives = .ok (pieces.map fun list => list.map Prod.snd) ∧
      (∀ piece ∈ pieces.flatten, IsPiece piece ∧ piece.2.depth ≤ bound) ∧
      ∀ value, joined pieces.flatten value ↔ joined parts value := by
  induction parts with
  | nil => exact ⟨[], rfl, fun _ hmem => (nomatch hmem), fun _ => Iff.rfl⟩
  | cons part rest ih =>
      obtain ⟨⟨hsummarizes, hdepth⟩, hrest⟩ := List.forall_mem_cons.mp h
      obtain ⟨list, hlist, hpieces, hsame⟩ := hsummarizes.alternatives
      obtain ⟨lists, hlists, hall, hjoined⟩ := ih hrest
      refine ⟨list :: lists, ?_, ?_, fun value => ?_⟩
      · rw [List.map_cons, List.mapM_cons, hlist]
        exact congrArg (· >>= fun pieces => pure (list.map Prod.snd :: pieces)) hlists
      · rw [List.flatten_cons]
        exact List.forall_mem_append.mpr
          ⟨fun piece hmem => (hpieces piece hmem).imp_right (Nat.le_trans · hdepth), hall⟩
      · rw [List.flatten_cons, joined_append, joined_cons, hjoined, hsame]

/-- Groups merge one by one into summaries of distinct types. -/
theorem mapM_mergeGroup_summaries {merge : List Json → Except Fault Json} {bound : Nat}
    (hmerge : MergesSummaries merge bound) {groups : List Group}
    (h : ∀ group ∈ groups, group.Holds bound) :
    ∃ parts : List Summary,
      (groups.map Group.entry).mapM (fun entry => mergeGroup merge entry.1 entry.2) =
        .ok (parts.map Prod.snd) ∧
      (∀ part ∈ parts, Summarizes part.1 part.2 ∧ IsTyped part.2) ∧
      (parts.map fun part => part.2.get? "type") = groups.map (fun group => some (.str group.1)) ∧
      ∀ value, joined parts value ↔ gathered groups value := by
  induction groups with
  | nil => exact ⟨[], rfl, fun _ hmem => (nomatch hmem), rfl, fun _ => by simp [joined, gathered]⟩
  | cons group rest ih =>
      obtain ⟨hgroup, hrest⟩ := List.forall_mem_cons.mp h
      obtain ⟨merged, hmerged, hsummarizes, htype⟩ := mergeGroup_summaries hmerge hgroup
      obtain ⟨parts, hparts, hall, htypes, hjoined⟩ := ih hrest
      refine ⟨(joined group.2, merged) :: parts, ?_,
        List.forall_mem_cons.mpr ⟨⟨hsummarizes, _, htype, hgroup.ne_null⟩, hall⟩, ?_,
        fun value => ?_⟩
      · rw [List.map_cons, List.mapM_cons, hmerged]
        exact congrArg (· >>= fun schemas => pure (merged :: schemas)) hparts
      · rw [List.map_cons, List.map_cons, htypes, htype]
      · rw [joined_cons, gathered_cons, hjoined]

/-- Several summaries merge, given a way to merge those that are nested less
deeply. -/
theorem mergeSeveral_summaries {merge : List Json → Except Fault Json} {bound : Nat}
    (hmerge : MergesSummaries merge bound) {parts : List Summary}
    (h : ∀ part ∈ parts, Summarizes part.1 part.2 ∧ part.2.depth ≤ bound) :
    ∃ pieces sorted merged, (parts.map Prod.snd).mapM alternatives = .ok pieces ∧
      sortByType pieces.flatten = .ok sorted ∧
      (collapseNumbers sorted.groups).mapM (fun entry => mergeGroup merge entry.1 entry.2) =
        .ok merged ∧ Summarizes (joined parts) (combine merged sorted.nullable) := by
  obtain ⟨pieces, hpieces, hall, hsame⟩ := mapM_alternatives h
  obtain ⟨sorted, groups, hsorted, hsorts⟩ := sortByType_summaries hall
  obtain ⟨later, hlater, hholds, hnodup, hgathered⟩ :=
    collapseNumbers_summaries hsorts.holds hsorts.nodup
  obtain ⟨merged, hmerged, htyped, htypes, hjoined⟩ := mapM_mergeGroup_summaries hmerge hholds
  refine ⟨_, sorted, merged.map Prod.snd, hpieces, ?_, ?_,
    (combine_summaries htyped ?_ sorted.nullable).congr fun value => ?_⟩
  · rwa [← List.map_flatten]
  · rwa [hsorts.entries, hlater]
  · rw [htypes]
    refine List.pairwise_map.mpr ((List.pairwise_map.mp hnodup).imp fun hne heq => hne ?_)
    exact Json.str.inj (Option.some.inj heq)
  · rw [joined_append, joined_nullParts, hjoined, hgathered, ← hsorts.observed, hsame]

/-- Merging summaries succeeds within their depth. -/
theorem mergeWithin_summaries (fuel : Nat) : MergesSummaries (mergeWithin fuel) fuel := by
  induction fuel with
  | zero =>
      intro parts h
      cases parts with
      | nil => exact ⟨.empty, rfl, .empty fun value => by simp [joined]⟩
      | cons part rest =>
          have hdepth := (h part List.mem_cons_self).2
          omega
  | succ fuel ih =>
      intro parts h
      have hbound : ∀ part ∈ parts, Summarizes part.1 part.2 ∧ part.2.depth ≤ fuel :=
        fun part hmem => ⟨(h part hmem).1, Nat.le_of_lt_succ (h part hmem).2⟩
      rcases parts with - | ⟨part, - | ⟨second, rest⟩⟩
      · exact ⟨.empty, rfl, .empty fun value => by simp [joined]⟩
      · exact ⟨part.2, rfl, (h part List.mem_cons_self).1.congr fun value => by simp [joined]⟩
      · obtain ⟨pieces, sorted, merged, hpieces, hsorted, hmerged, hsummarizes⟩ :=
          mergeSeveral_summaries ih hbound
        refine ⟨combine merged sorted.nullable, ?_, hsummarizes⟩
        rw [List.map_cons, List.map_cons, mergeWithin, ← List.map_cons, ← List.map_cons, hpieces,
          ok_bind, hsorted, ok_bind]
        · exact congrArg (· >>= fun merged => .ok (combine merged sorted.nullable)) hmerged
        all_goals simp

theorem merge_summaries {parts : List Summary} (h : ∀ part ∈ parts, Summarizes part.1 part.2) :
    ∃ merged, merge (parts.map Prod.snd) = .ok merged ∧ Summarizes (joined parts) merged :=
  mergeWithin_summaries _ parts fun part hmem => ⟨h part hmem,
    Nat.lt_succ_of_le (depth_le_depthItems (List.mem_map_of_mem (f := Prod.snd) hmem))⟩

end RequestShapes.Schema
