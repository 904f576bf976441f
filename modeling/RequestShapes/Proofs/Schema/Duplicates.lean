import RequestShapes.Proofs.Schema.Likeness

/-!
# Copies of one schema

Copies of a settled schema merge into this very schema: its alternatives, properties
and required names keep their order.
-/

namespace RequestShapes.Schema

/-- Copies of a settled schema that is nested less deeply merge into it. -/
def MergesCopies (merge : List Json → Except Fault Json) (bound : Nat) : Prop :=
  ∀ schema count, Tidy True schema → schema.depth < bound →
    merge (List.replicate (count + 1) schema) = .ok schema

/-- What a list has in common with a part of it is this part. -/
theorem filter_mem_of_sublist {part whole : List String} (h : part.Sublist whole)
    (hnodup : whole.Nodup) : (whole.filter fun name => decide (name ∈ part)) = part := by
  induction h with
  | slnil => rfl
  | cons name hsub ih =>
      obtain ⟨hfresh, hrest⟩ := List.nodup_cons.mp hnodup
      rw [List.filter_cons_of_neg (by simpa using fun hmem => hfresh (hsub.subset hmem)), ih hrest]
  | cons_cons name hsub ih =>
      obtain ⟨hfresh, hrest⟩ := List.nodup_cons.mp hnodup
      rw [List.filter_cons_of_pos (by simp)]
      refine congrArg (name :: ·) ((List.filter_congr fun other hmem => ?_).trans (ih hrest))
      have hne : other ≠ name := fun heq => hfresh (heq ▸ hmem)
      simp [hne]

theorem eq_of_forall₂ {α : Type} {R : α → α → Prop} {items others : List α}
    (h : List.Forall₂ R items others) (heq : ∀ item ∈ items, ∀ other, R item other → other = item) :
    others = items := by
  induction h with
  | nil => rfl
  | cons hfirst _ ih =>
      obtain ⟨hitem, hitems⟩ := List.forall_mem_cons.mp heq
      rw [hitem _ hfirst, ih hitems]

/-! ## The order of types -/

theorem typesOf_append_of_subset {pieces others : List Json}
    (h : ∀ piece ∈ others, ∀ type, typeOf? piece = some type → type ∈ typesOf pieces) :
    typesOf (pieces ++ others) = typesOf pieces := by
  induction others using List.reverseRecOn with
  | nil => rw [List.append_nil]
  | append_singleton others piece ih =>
      obtain ⟨hothers, hpiece⟩ := List.forall_mem_append.mp h
      rw [← List.append_assoc, typesOf_concat, ih hothers, noteType]
      split
      next => rfl
      next type htype => rw [if_pos (hpiece piece (List.mem_singleton_self piece) type htype)]

theorem typesOf_eq_filterMap {pieces : List Json} (h : (pieces.filterMap typeOf?).Nodup) :
    typesOf pieces = pieces.filterMap typeOf? := by
  induction pieces using List.reverseRecOn with
  | nil => rfl
  | append_singleton pieces piece ih =>
      rw [List.filterMap_append] at h ⊢
      obtain ⟨hpieces, _, hdisjoint⟩ := List.nodup_append.mp h
      rw [typesOf_concat, ih hpieces, noteType]
      split
      next hnone => simp [hnone]
      next type htype =>
        have hnew : type ∉ pieces.filterMap typeOf? :=
          fun hmem => hdisjoint type hmem type (by simp [htype]) rfl
        rw [if_neg hnew, List.filterMap_cons_some htype, List.filterMap_nil]

variable {schema : Json} {parts : List Json} {nullable : Bool}

theorem singles_replicate (count : Nat) (schema : Json) :
    singles (List.replicate count schema) = (List.replicate count (singles [schema])).flatten := by
  simp [singles, List.flatMap_replicate]

theorem singlesOf_replicate (count : Nat) (type : String) (schema : Json) :
    singlesOf type (List.replicate count schema) =
      (List.replicate count (singlesOf type [schema])).flatten := by
  rw [singlesOf, singles_replicate, List.filter_flatten, List.map_replicate]
  rfl

/-- The parts of a schema with their types. -/
theorem FallsInto.exists_types {settled : Prop} (h : FallsInto settled schema parts nullable) :
    ∃ types, List.Forall₂ (TidyPart settled) types parts ∧ types.Nodup ∧
      (singles [schema]).filterMap typeOf? = types := by
  have htypes : List.Forall₂ (TidyPart settled) (parts.filterMap typeOf?) parts := by
    have htidy := h.tidy
    clear h
    induction parts with
    | nil => exact .nil
    | cons part rest ih =>
        obtain ⟨⟨type, hpart⟩, hrest⟩ := List.forall_mem_cons.mp htidy
        rw [List.filterMap_cons_some hpart.typeOf?_eq]
        exact .cons hpart (ih hrest)
  have hkeys := map_get?_type (htypes.imp fun _ _ hpart => TidyPart.get?_type hpart)
  refine ⟨_, htypes, .of_map _ (hkeys ▸ h.apart.nodup), ?_⟩
  rw [← h.splits.typed, List.filterMap_filter]
  refine List.filterMap_congr fun piece _ => ?_
  cases typeOf? piece <;> rfl

/-- Copies have the types of the schema, in their order. -/
theorem typesOf_replicate {types : List String} (hnodup : types.Nodup)
    (h : (singles [schema]).filterMap typeOf? = types) (count : Nat) :
    typesOf (singles (List.replicate (count + 1) schema)) = types := by
  have hfirst : typesOf (singles [schema]) = types := by
    rw [typesOf_eq_filterMap (h ▸ hnodup), h]
  rw [singles_replicate, List.replicate_succ, List.flatten_cons, typesOf_append_of_subset, hfirst]
  intro piece hmem type htype
  obtain ⟨_, hlist, hpiece⟩ := List.mem_flatten.mp hmem
  rw [List.eq_of_mem_replicate hlist] at hpiece
  exact mem_typesOf.mpr ⟨piece, hpiece, htype⟩

/-! ## Copies of one type -/

theorem names_collected_replicate {shape : Shape} (h : (Table.names shape.properties).Nodup)
    (count : Nat) :
    Table.names (collected (List.replicate (count + 1) shape)) = Table.names shape.properties := by
  -- The first copy brings all names, and no further copy adds one.
  have hrest (gathered : Table (List Json))
      (hsub : ∀ name ∈ Table.names shape.properties, name ∈ Table.names gathered) :
      Table.names ((List.replicate count shape.properties).foldl gather gathered) =
        Table.names gathered := by
    induction count generalizing gathered with
    | zero => rfl
    | succ count ih =>
        have hsame : Table.names (gather gathered shape.properties) = Table.names gathered := by
          rw [names_gather h, List.filter_eq_nil_iff.mpr (by simpa using hsub), List.append_nil]
        rw [List.replicate_succ, List.foldl_cons, ih _ (hsame ▸ hsub), hsame]
  have hfirst : Table.names (gather [] shape.properties) = Table.names shape.properties := by
    rw [names_gather h]
    simp [Table.names]
  rw [collected, List.map_replicate, List.replicate_succ, List.foldl_cons,
    hrest _ (hfirst ▸ fun _ hmem => hmem), hfirst]

/-- What is collected from copies are copies of what stands under each name. -/
theorem collected_replicate {shape : Shape} (h : (Table.names shape.properties).Nodup)
    (count : Nat) : collected (List.replicate (count + 1) shape) =
      shape.properties.map fun entry => (entry.1, List.replicate (count + 1) entry.2) := by
  have heq {table : Table (List Json)} {value : String → List Json}
      (hvalue : ∀ entry ∈ table, entry.2 = value entry.1) :
      table = (Table.names table).map fun name => (name, value name) := by
    rw [Table.names, List.map_map]
    refine (List.map_id' table).symm.trans (List.map_congr_left fun entry hmem => ?_)
    exact Prod.ext rfl (hvalue entry hmem)
  have hcolumn : ∀ entry ∈ shape.properties, List.replicate (count + 1) entry.2 =
      column ((List.replicate (count + 1) shape).map Shape.properties) entry.1 := by
    intro entry hmem
    simp [column, Table.get?_of_mem h hmem]
  rw [heq fun entry hmem => eq_column_of_mem_collected
      (fun other hother => List.eq_of_mem_replicate hother ▸ h) hmem,
    names_collected_replicate h, Table.names, List.map_map]
  exact List.map_congr_left fun entry hmem => Prod.ext rfl (hcolumn entry hmem).symm

section Copies

variable {merge : List Json → Except Fault Json} {bound : Nat} (hmerge : MergesCopies merge bound)

include hmerge

theorem mergeObjects_replicate {shape : Shape} (h : TidyShape True shape)
    (hdepth : shape.schema.depth ≤ bound) (count : Nat) :
    mergeGroup merge (.str "object") (List.replicate (count + 1) shape.schema) =
      .ok shape.schema := by
  have hinner : ∀ entry ∈ shape.properties,
      merge (List.replicate (count + 1) entry.2) = .ok entry.2 := by
    intro entry hmem
    have hle : entry.2.depth ≤ _ := depth_le_depthMembers hmem
    simp only [Shape.schema, ofObject, Json.depth, Json.depthMembers] at hdepth
    exact hmerge entry.2 count (h.inner entry hmem) (by omega)
  have hcollected := collected_replicate h.nodup count
  obtain ⟨merged, hmerged, hrel, hrequired⟩ := @mergeGroup_object merge
    (List.replicate (count + 1) shape) fun entry hmem => by
      rw [hcollected] at hmem
      obtain ⟨source, hsource, rfl⟩ := List.mem_map.mp hmem
      exact ⟨source.2, hinner source hsource⟩
  have hproperties : merged.properties = shape.properties := by
    rw [hcollected, List.forall₂_map_left_iff] at hrel
    refine eq_of_forall₂ hrel fun entry hmem other hother => Prod.ext hother.1 ?_
    exact Except.ok.inj (hother.2.symm.trans (hinner entry hmem))
  have hsame : merged.required = shape.required := by
    rw [hrequired, names_collected_replicate h.nodup]
    refine (List.filter_congr fun name _ => ?_).trans (filter_mem_of_sublist h.sublist h.nodup)
    simp [List.mem_replicate]
  rw [List.map_replicate] at hmerged
  rw [hmerged, Shape.schema, Shape.schema, hproperties, hsame]

theorem mergeArrays_replicate {items : Json} (h : Tidy True items)
    (hdepth : (ofArray items).depth ≤ bound) (hnone : merge [] = .ok .empty) (count : Nat) :
    mergeGroup merge (.str "array") (List.replicate (count + 1) (ofArray items)) =
      .ok (ofArray items) := by
  rw [← List.map_replicate]
  refine mergeGroup_array ?_
  cases hvacant : items.isVacant with
  | true =>
      rw [List.filter_replicate_of_neg (by simp [hvacant]), hnone, h.eq_empty hvacant]
  | false =>
      simp only [ofArray, Json.depth, Json.depthMembers] at hdepth
      rw [List.filter_replicate_of_pos (by simp [hvacant])]
      exact hmerge items count h (by omega)

theorem mergeGroup_replicate {type : String} {part : Json} (h : TidyPart True type part)
    (hdepth : part.depth ≤ bound) (hnone : merge [] = .ok .empty) (count : Nat) :
    mergeGroup merge (.str type) (List.replicate (count + 1) part) = .ok part := by
  by_cases hobject : type = "object"
  · subst hobject
    obtain ⟨shape, rfl, hshape⟩ := h.of_object
    exact mergeObjects_replicate hmerge hshape hdepth count
  by_cases harray : type = "array"
  · subst harray
    obtain ⟨items, rfl, hitems⟩ := h.of_array
    exact mergeArrays_replicate hmerge hitems hdepth hnone count
  obtain ⟨rest, hscalar, hform⟩ := h.of_other hobject harray
  subst hform
  cases hscalar with
  | plain =>
      by_cases hstring : type = "string"
      · subst hstring
        have hformat : commonFormat? (List.replicate (count + 1) (.obj [("type", .str "string")])) =
            .ok none := by
          simp [commonFormat?, List.replicate_succ, Json.get?, Table.get?, Json.isContainer]
        simp only [mergeGroup]
        rw [hformat, ok_bind]
        rfl
      · simp [mergeGroup, hobject, harray, hstring, ofType]
  | format format =>
      simp only [mergeGroup]
      rw [@commonFormat?_of_forall _ format.name (by simp) fun found hmem => by
        rw [List.eq_of_mem_replicate hmem]; rfl, ok_bind]

end Copies

/-! ## Copies of any schema -/

theorem mapM_of_forall₂ {α β ε : Type} {f : α → Except ε β} {items : List α} {others : List β}
    (h : List.Forall₂ (fun item other => f item = .ok other) items others) :
    items.mapM f = .ok others := by
  induction h with
  | nil => rfl
  | cons hfirst _ ih => rw [List.mapM_cons, hfirst, ok_bind, ih]; rfl

theorem mergeWithin_replicate (fuel : Nat) : MergesCopies (mergeWithin fuel) fuel := by
  induction fuel with
  | zero => exact fun schema count _ hdepth => absurd hdepth (Nat.not_lt_zero _)
  | succ fuel ih =>
      rintro schema (- | count) h hdepth
      · rfl
      generalize hcopies : List.replicate (count + 1 + 1) schema = copies
      have hapart : ∀ copy ∈ copies, FallsApart copy := by
        rw [← hcopies]
        exact fun copy hmem => List.eq_of_mem_replicate hmem ▸ h.fallsApart
      obtain ⟨parts, nullable, hfalls⟩ := h.fallsInto
      obtain ⟨heq, honly⟩ := hfalls.combined trivial
      obtain ⟨types, htypes, hnodup, hkeys⟩ := hfalls.exists_types
      have hoccurs (type : String) :
          Occurs type (singles copies) ↔ Occurs type (singles [schema]) := by
        simp [occurs_iff, ← hcopies, singlesOf_replicate, List.mem_replicate]
      have hmerged : List.Forall₂ (fun type part =>
          mergeGroup (mergeWithin fuel) (.str type) (singlesOf type copies) = .ok part)
          types parts := by
        -- The part of a type is the only one of its type, so its group holds copies of it.
        have hmem := ((List.forall₂_and_left _ _).mpr ⟨fun _ hpart => hpart, htypes.flip⟩).flip
        refine hmem.imp fun type part hpart => ?_
        rw [← hcopies, singlesOf_replicate, hfalls.singlesOf_part hpart.1 hpart.2,
          List.flatten_replicate_singleton]
        exact mergeGroup_replicate ih hpart.2
          (Nat.le_trans (hfalls.depth part hpart.1) (Nat.le_of_lt_succ hdepth))
          (by rw [mergeWithin]) (count + 1)
      have hgroups : (collapseNumbers (sortedOf (singles copies)).groups).mapM
          (fun entry => mergeGroup (mergeWithin fuel) entry.1 entry.2) = .ok parts := by
        rw [sortedOf, collapseNumbers_of_not, List.mapM_map]
        · rw [← hcopies, typesOf_replicate hnodup hkeys, hcopies]
          exact mapM_of_forall₂ hmerged
        · rwa [onlyNumbers_congr hoccurs, hfalls.onlyNumbers_iff]
      have hnullable : (singles copies).any (isOf "null") = nullable := by
        rw [← hfalls.splits.null, Bool.eq_iff_iff, List.any_eq_true, List.any_eq_true]
        exact hoccurs "null"
      rw [mergeWithin_several (by simp [← hcopies]) hapart hgroups, hnullable, heq]

/-- Copies of a settled schema merge into it. -/
theorem merge_replicate {schema : Json} (h : Tidy True schema) (count : Nat) :
    merge (List.replicate (count + 1) schema) = .ok schema := by
  have hmem : schema ∈ List.replicate (count + 1) schema :=
    List.mem_replicate.mpr ⟨Nat.succ_ne_zero count, rfl⟩
  exact mergeWithin_replicate _ schema count h (Nat.lt_succ_of_le (depth_le_depthItems hmem))

end RequestShapes.Schema
