import RequestShapes.Proofs.Schema.Forms

/-!
# Merging schemas of one type

Object schemas are merged property by property: under each name the schemas that
stand there become one, and a name is required if each of the schemas requires it.
Array schemas are merged by their items, of which vacant ones are left out.
-/

namespace RequestShapes.Schema

theorem filterM_eq_filter {α ε : Type} {f : α → Except ε Bool} {test : α → Bool}
    (h : ∀ item, f item = .ok (test item)) (items : List α) :
    items.filterM f = .ok (items.filter test) := by
  have haux : ∀ kept, List.filterAuxM f items kept = .ok ((items.filter test).reverse ++ kept) := by
    induction items with
    | nil => exact fun kept => rfl
    | cons item items ih =>
        intro kept
        rw [List.filterAuxM, h, ok_bind, ih, List.filter_cons]
        cases test item <;> simp
  rw [List.filterM, haux, ok_bind, List.append_nil, List.reverse_reverse]
  rfl

/-- What stands under a name in several tables, in their order. -/
def column (tables : List (Table Json)) (name : String) : List Json :=
  tables.filterMap fun table => Table.get? table name

theorem mem_names_gather {collected : Table (List Json)} {table : Table Json} {name : String} :
    name ∈ Table.names (gather collected table) ↔
      name ∈ Table.names collected ∨ name ∈ Table.names table := by
  induction table generalizing collected with
  | nil => simp [gather, Table.names]
  | cons entry rest ih =>
      refine (@ih (Table.set collected entry.1 _)).trans ?_
      rw [Table.mem_names_set]
      simp only [Table.names, List.map_cons, List.mem_cons]
      tauto

/-- Gathering adds the names that are new, in their order. -/
theorem names_gather {collected : Table (List Json)} {table : Table Json}
    (h : (Table.names table).Nodup) : Table.names (gather collected table) =
      Table.names collected ++
        (Table.names table).filter fun name => decide (name ∉ Table.names collected) := by
  induction table generalizing collected with
  | nil => simp [gather, Table.names]
  | cons entry rest ih =>
      obtain ⟨hfresh, hrest⟩ := List.nodup_cons.mp h
      refine (@ih (Table.set collected entry.1 _) hrest).trans ?_
      rw [show Table.names (entry :: rest) = entry.1 :: Table.names rest from rfl]
      by_cases hmem : entry.1 ∈ Table.names collected
      · rw [Table.names_set_of_mem hmem, List.filter_cons_of_neg (by simpa using hmem)]
      · rw [Table.names_set_of_not_mem hmem, List.filter_cons_of_pos (by simpa using hmem),
          List.append_assoc, List.singleton_append]
        refine congrArg (Table.names collected ++ entry.1 :: ·)
          (List.filter_congr fun name hname => ?_)
        have hne : name ≠ entry.1 := fun heq => hfresh (heq ▸ hname)
        simp [hne]

theorem nodup_names_gather {collected : Table (List Json)} (table : Table Json)
    (h : (Table.names collected).Nodup) : (Table.names (gather collected table)).Nodup := by
  induction table generalizing collected with
  | nil => exact h
  | cons entry rest ih => exact ih (Table.nodup_names_set h)

theorem get?_gather {collected : Table (List Json)} {table : Table Json}
    (h : (Table.names table).Nodup) (name : String) :
    (Table.get? (gather collected table) name).getD [] =
      (Table.get? collected name).getD [] ++ (Table.get? table name).toList := by
  induction table generalizing collected with
  | nil => simp [gather]
  | cons entry rest ih =>
      obtain ⟨hfresh, hrest⟩ := List.nodup_cons.mp h
      refine (@ih (Table.set collected entry.1 _) hrest).trans ?_
      rw [Table.get?_set, Table.get?]
      by_cases hname : entry.1 = name
      · subst hname
        simp [Table.get?_eq_none_iff.mpr hfresh]
      · simp [hname, Ne.symm hname]

theorem mem_names_foldl_gather {tables : List (Table Json)} {collected : Table (List Json)}
    {name : String} : name ∈ Table.names (tables.foldl gather collected) ↔
      name ∈ Table.names collected ∨ ∃ table ∈ tables, name ∈ Table.names table := by
  induction tables generalizing collected with
  | nil => simp
  | cons table rest ih =>
      rw [List.foldl_cons, ih, mem_names_gather, List.exists_mem_cons_iff, or_assoc]

theorem nodup_names_foldl_gather {tables : List (Table Json)} {collected : Table (List Json)}
    (h : (Table.names collected).Nodup) : (Table.names (tables.foldl gather collected)).Nodup := by
  induction tables generalizing collected with
  | nil => exact h
  | cons table rest ih => exact ih (nodup_names_gather table h)

theorem get?_foldl_gather {tables : List (Table Json)} {collected : Table (List Json)}
    (h : ∀ table ∈ tables, (Table.names table).Nodup) (name : String) :
    (Table.get? (tables.foldl gather collected) name).getD [] =
      (Table.get? collected name).getD [] ++ column tables name := by
  induction tables generalizing collected with
  | nil => simp [column]
  | cons table rest ih =>
      obtain ⟨htable, hrest⟩ := List.forall_mem_cons.mp h
      rw [List.foldl_cons, ih hrest, get?_gather htable, List.append_assoc, column, column]
      cases hget : Table.get? table name <;> simp [hget]

/-! ## Objects -/

/-- The properties of an object schema and the names that it requires. -/
structure Shape where
  properties : List (String × Json)
  required : List String

/-- The object schema. -/
def Shape.schema (shape : Shape) : Json := ofObject shape.properties shape.required

/-- The properties of object schemas, under each name all that stand there. -/
def collected (shapes : List Shape) : Table (List Json) :=
  (shapes.map Shape.properties).foldl gather []

theorem mem_names_collected {shapes : List Shape} {name : String} :
    name ∈ Table.names (collected shapes) ↔
      ∃ shape ∈ shapes, name ∈ Table.names shape.properties := by
  rw [collected, mem_names_foldl_gather, or_iff_right (by simp [Table.names])]
  simp only [List.mem_map, exists_exists_and_eq_and]

theorem nodup_names_collected (shapes : List Shape) : (Table.names (collected shapes)).Nodup :=
  nodup_names_foldl_gather List.nodup_nil

/-- What was collected under a name stands under it. -/
theorem eq_column_of_mem_collected {shapes : List Shape} {entry : String × List Json}
    (h : ∀ shape ∈ shapes, (Table.names shape.properties).Nodup) (hmem : entry ∈ collected shapes) :
    entry.2 = column (shapes.map Shape.properties) entry.1 := by
  have hget := @get?_foldl_gather (shapes.map Shape.properties) [] (List.forall_mem_map.mpr h)
    entry.1
  rw [← collected, Table.get?_of_mem (nodup_names_collected shapes) hmem] at hget
  simpa using hget

/-- What was collected under a name stands there in some schema. -/
theorem exists_of_mem_collected {shapes : List Shape} {entry : String × List Json}
    (h : ∀ shape ∈ shapes, (Table.names shape.properties).Nodup) (hmem : entry ∈ collected shapes) :
    entry.2 ≠ [] ∧
      ∀ schema ∈ entry.2, ∃ shape ∈ shapes, (entry.1, schema) ∈ shape.properties := by
  rw [eq_column_of_mem_collected h hmem]
  constructor
  · obtain ⟨shape, hshape, hname⟩ :=
      mem_names_collected.mp (List.mem_map_of_mem (f := Prod.fst) hmem)
    obtain ⟨schema, hget⟩ := Table.exists_get?_of_mem_names hname
    exact List.ne_nil_of_mem (List.mem_filterMap.mpr ⟨_, List.mem_map_of_mem hshape, hget⟩)
  · intro schema hschema
    obtain ⟨_, htable, hget⟩ := List.mem_filterMap.mp hschema
    obtain ⟨shape, hshape, rfl⟩ := List.mem_map.mp htable
    exact ⟨shape, hshape, Table.mem_of_get? hget⟩

theorem foldlM_properties (shapes : List Shape) (gathered : Table (List Json)) :
    (shapes.map Shape.schema).foldlM
      (fun gathered schema => do .ok (gather gathered (← properties schema))) gathered =
      (.ok ((shapes.map Shape.properties).foldl gather gathered) : Except Fault _) := by
  induction shapes generalizing gathered with
  | nil => rfl
  | cons shape rest ih => exact ih (gather gathered shape.properties)

theorem allRequire_shapes (shapes : List Shape) (name : String) :
    allRequire (shapes.map Shape.schema) name =
      .ok (decide (∀ shape ∈ shapes, name ∈ shape.required)) := by
  induction shapes with
  | nil => rfl
  | cons shape rest ih =>
      rw [List.map_cons, allRequire]
      change (requires (ofObject shape.properties shape.required) name >>= _) = _
      rw [requires_ofObject, ok_bind, ih]
      by_cases hname : name ∈ shape.required <;> simp [hname]

/-- Object schemas merge if what was collected under each name does. -/
theorem mergeGroup_object {merge : List Json → Except Fault Json} {shapes : List Shape}
    (h : ∀ entry ∈ collected shapes, ∃ merged, merge entry.2 = .ok merged) :
    ∃ shape : Shape,
      mergeGroup merge (.str "object") (shapes.map Shape.schema) = .ok shape.schema ∧
      List.Forall₂ (fun entry other => other.1 = entry.1 ∧ merge entry.2 = .ok other.2)
        (collected shapes) shape.properties ∧
      shape.required = (Table.names (collected shapes)).filter fun name =>
        decide (∀ shape ∈ shapes, name ∈ shape.required) := by
  have hentries : ∀ entry ∈ collected shapes, ∃ out,
      (do .ok (entry.1, ← merge entry.2)) = Except.ok out ∧
        (out.1 = entry.1 ∧ merge entry.2 = .ok out.2) := by
    intro entry hmem
    obtain ⟨merged, hmerged⟩ := h entry hmem
    exact ⟨(entry.1, merged), by rw [hmerged]; rfl, rfl, hmerged⟩
  obtain ⟨properties, hproperties, hrel⟩ := mapM_ok hentries
  generalize hrequired : ((Table.names (collected shapes)).filter fun name =>
    decide (∀ shape ∈ shapes, name ∈ shape.required)) = required
  refine ⟨⟨properties, required⟩, ?_, hrel, rfl⟩
  simp only [mergeGroup]
  rw [foldlM_properties, ← collected, ok_bind, filterM_eq_filter (allRequire_shapes shapes),
    ok_bind, hrequired]
  exact congrArg (· >>= fun merged => .ok (ofObject merged required)) hproperties

/-- Under each name stands what was collected there, merged. -/
theorem mergeGroup_object_forall {merge : List Json → Except Fault Json} {shapes : List Shape}
    {P : String → Json → Prop}
    (h : ∀ entry ∈ collected shapes, ∃ merged, merge entry.2 = .ok merged ∧ P entry.1 merged) :
    ∃ shape : Shape,
      mergeGroup merge (.str "object") (shapes.map Shape.schema) = .ok shape.schema ∧
      Table.names shape.properties = Table.names (collected shapes) ∧
      (∀ entry ∈ shape.properties, P entry.1 entry.2) ∧
      shape.required = (Table.names (collected shapes)).filter fun name =>
        decide (∀ shape ∈ shapes, name ∈ shape.required) := by
  obtain ⟨shape, hmerged, hrel, hrequired⟩ :=
    mergeGroup_object fun entry hentry => (h entry hentry).imp fun _ hfacts => hfacts.1
  refine ⟨shape, hmerged, ?_, fun entry hentry => ?_, hrequired⟩
  · exact (get?_of_forall₂ (R := fun found merged => merge found = .ok merged) hrel).1
  · obtain ⟨source, hsource, hname, hvalue⟩ := exists_left_of_forall₂ hrel hentry
    obtain ⟨merged, hmerged, hfacts⟩ := h source hsource
    rw [hvalue] at hmerged
    rwa [hname, Except.ok.inj hmerged]

/-! ## Arrays -/

/-- Array schemas merge if their items do, apart from vacant ones. -/
theorem mergeGroup_array {merge : List Json → Except Fault Json} {items : List Json} {merged : Json}
    (h : merge (items.filter fun schema => !schema.isVacant) = .ok merged) :
    mergeGroup merge (.str "array") (items.map ofArray) = .ok (ofArray merged) := by
  have hitems : (items.map ofArray).filterMap (fun schema => Json.filled? (schema.get? "items")) =
      items.filter fun schema => !schema.isVacant := by
    rw [List.filterMap_map, ← List.filterMap_eq_filter]
    rfl
  simp only [mergeGroup]
  rw [hitems, h, ok_bind]

end RequestShapes.Schema
