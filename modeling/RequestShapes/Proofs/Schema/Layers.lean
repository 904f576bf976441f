import RequestShapes.Proofs.Schema.Acyclic
import RequestShapes.Proofs.Schema.Lifts
import RequestShapes.Proofs.Schema.Forms

/-!
# Definitions in layers

The definitions of a draft are object shapes, each of which refers to earlier
ones only. So references do not go round, nothing refers to the newest
definition, and what a node unfolds to does not change when more definitions
come.
-/

namespace RequestShapes.Schema

/-! ## Nodes of drafts -/

/-- A type, or a type and null. -/
inductive Flat : Json → Prop
  | one {type : String} : type ≠ "array" → type ≠ "object" → Flat (.str type)
  | nullable (type : String) : Flat (.arr [.str type, .str "null"])

/-- What a schema without inner schemas says. -/
inductive Leaf : List (String × Json) → Prop
  | empty : Leaf []
  | typed {type : Json} : Flat type → Leaf [("type", type)]
  | format {type : Json} (format : Format) :
      Flat type → Leaf [("type", type), ("format", .str format.name)]

/-- A node of a draft, in which every object shape is a reference. -/
inductive Drafted : Json → Prop
  | leaf {members : List (String × Json)} : Leaf members → Drafted (.obj members)
  | refTo (name : String) : Drafted (refTo name)
  | array {schema : Json} : Drafted schema → Drafted (ofArray schema)
  | anyOf {alternatives : List Json} :
      (∀ schema ∈ alternatives, Drafted schema) → Drafted (anyOf alternatives)

theorem Drafted.isObject {node : Json} (h : Drafted node) : node.isObject = true := by
  cases h <;> rfl

theorem Flat.eq_of_alike {type other : Json} (h : Flat type) (hother : Flat other)
    (halike : alike type other = true) : type = other := by
  cases h <;> cases hother <;> simp_all [alike, alikeItems]

theorem Leaf.eq_of_alike {members others : List (String × Json)} (h : Leaf members)
    (hothers : Leaf others) (halike : alike (.obj members) (.obj others) = true) :
    members = others := by
  cases h <;> cases hothers <;> simp [alike, alikeMembers, Table.get?] at halike
  case empty.empty => rfl
  case typed.typed hflat _ hother => rw [hflat.eq_of_alike hother halike]
  case format.format hflat _ _ hother =>
    rw [hflat.eq_of_alike hother halike.1, halike.2]

theorem eq_of_alikeItems {items others : List Json}
    (heq : ∀ item ∈ items, ∀ other ∈ others, alike item other = true → item = other)
    (h : alikeItems items others = true) : items = others := by
  induction items generalizing others with
  | nil =>
      cases others with
      | nil => rfl
      | cons => simp [alikeItems] at h
  | cons item rest ih =>
      cases others with
      | nil => simp [alikeItems] at h
      | cons other others =>
          simp only [alikeItems, Bool.and_eq_true] at h
          rw [heq item List.mem_cons_self other List.mem_cons_self h.1]
          refine congrArg _ (ih (fun found hfound other hother => ?_) h.2)
          exact heq found (List.mem_cons_of_mem _ hfound) other (List.mem_cons_of_mem _ hother)

/-- Nodes of drafts have their members in a fixed order, so nodes that are alike
are equal. -/
theorem Drafted.eq_of_alike {node other : Json} (h : Drafted node) (hother : Drafted other)
    (halike : alike node other = true) : node = other := by
  induction h generalizing other with
  | leaf hleaf =>
      cases hother with
      | leaf hother => rw [hleaf.eq_of_alike hother halike]
      | _ => cases hleaf <;>
          simp [Schema.refTo, ofArray, Schema.anyOf, alike, alikeMembers, Table.get?] at halike
  | refTo name =>
      cases hother with
      | refTo other =>
          simp only [Schema.refTo, alike, alikeMembers, Table.get?] at halike
          simpa [Schema.refTo] using halike
      | leaf hother => cases hother <;>
          simp [Schema.refTo, alike, alikeMembers, Table.get?] at halike
      | _ => simp [Schema.refTo, ofArray, Schema.anyOf, alike, alikeMembers, Table.get?] at halike
  | array _ ih =>
      cases hother with
      | array hother =>
          simp [ofArray, alike, alikeMembers, Table.get?] at halike
          rw [ih hother halike]
      | leaf hother => cases hother <;>
          simp [ofArray, alike, alikeMembers, Table.get?] at halike
      | _ => simp [Schema.refTo, ofArray, Schema.anyOf, alike, alikeMembers, Table.get?] at halike
  | anyOf _ ih =>
      cases hother with
      | anyOf hothers =>
          simp [Schema.anyOf, alike, alikeMembers, Table.get?] at halike
          rw [eq_of_alikeItems (fun item hitem other hother => ih item hitem (hothers other hother))
            halike]
      | leaf hother => cases hother <;>
          simp [Schema.anyOf, alike, alikeMembers, Table.get?] at halike
      | _ => simp [Schema.refTo, ofArray, Schema.anyOf, alike, alikeMembers, Table.get?] at halike

/-! ## Properties of shapes -/

/-- The properties of a shape whose references are to definitions of a table. -/
structure IsShape (definitions : Table Json) (properties : List (String × Json)) : Prop where
  nodup : (Table.names properties).Nodup
  drafted : ∀ entry ∈ properties, Drafted entry.2
  resolves : ∀ target ∈ memberTargets properties, target ∈ Table.names definitions

section Properties

variable {properties others : List (String × Json)}

theorem get?_eq_obj (h : ∀ entry ∈ properties, Drafted entry.2) {name : String} {value : Json}
    (hget : Table.get? properties name = some value) : value.isObject = true :=
  (h (name, value) (Table.mem_of_get? hget)).isObject

/-- Properties do not form a reference. -/
theorem target?_properties (h : ∀ entry ∈ properties, Drafted entry.2) :
    target? (.obj properties) = none := by
  rw [target?, Json.get?]
  split
  next hget =>
    have hobject := get?_eq_obj h hget
    simp [Json.isObject] at hobject
  next => rfl

theorem isArray_properties (h : ∀ entry ∈ properties, Drafted entry.2) :
    isArray (.obj properties) = false := by
  rw [isArray, decide_eq_false_iff_not]
  intro hget
  have hobject := get?_eq_obj h hget
  simp [Json.isObject] at hobject

theorem itemTargets_strings (names : List String) : itemTargets (names.map Json.str) = [] := by
  induction names with
  | nil => rfl
  | cons name rest ih => simp [itemTargets, targets, ih]

theorem targets_closedObject (h : ∀ entry ∈ properties, Drafted entry.2) (required : List String)
    (title : String) :
    targets (closedObject properties (.arr (required.map .str)) title) =
      memberTargets properties := by
  have hnone : target? (closedObject properties (.arr (required.map .str)) title) = none := rfl
  rw [closedObject] at hnone ⊢
  simp [targets, memberTargets, itemTargets_strings, hnone, target?_properties h]

theorem exists_of_alikeMembers (h : alikeMembers properties others = true) :
    ∀ entry ∈ properties, ∃ other, Table.get? others entry.1 = some other ∧
      alike entry.2 other = true := by
  induction properties with
  | nil => exact fun _ hmem => (nomatch hmem)
  | cons entry rest ih =>
      obtain ⟨name, value⟩ := entry
      rw [alikeMembers, Bool.and_eq_true] at h
      refine List.forall_mem_cons.mpr ⟨?_, ih h.2⟩
      cases hget : Table.get? others name with
      | none => simp [hget] at h
      | some other => exact ⟨other, rfl, by simpa [hget] using h.1⟩

/-- Properties that are alike are the same, up to their order. -/
theorem get?_of_alike (hnodup : (Table.names properties).Nodup)
    (hdrafted : ∀ entry ∈ properties, Drafted entry.2)
    (hothers : ∀ entry ∈ others, Drafted entry.2)
    (h : alike (.obj properties) (.obj others) = true) (name : String) :
    Table.get? properties name = Table.get? others name := by
  rw [alike, Bool.and_eq_true, decide_eq_true_iff] at h
  obtain ⟨hlength, hmembers⟩ := h
  have hforth : ∀ entry ∈ properties, Table.get? others entry.1 = some entry.2 := by
    intro entry hmem
    obtain ⟨other, hget, halike⟩ := exists_of_alikeMembers hmembers entry hmem
    have heq := (hdrafted entry hmem).eq_of_alike
      (hothers (entry.1, other) (Table.mem_of_get? hget)) halike
    rw [hget, heq]
  have hsubset : Table.names properties ⊆ Table.names others := by
    intro found hfound
    obtain ⟨entry, hmem, rfl⟩ := List.mem_map.mp hfound
    exact Table.mem_names_of_get? (hforth entry hmem)
  have hperm : (Table.names properties).Perm (Table.names others) :=
    (List.subperm_of_subset hnodup hsubset).perm_of_length_le (by simp [Table.names, hlength])
  cases hget : Table.get? properties name with
  | some value => exact (hforth (name, value) (Table.mem_of_get? hget)).symm
  | none =>
      rw [eq_comm, Table.get?_eq_none_iff, ← hperm.mem_iff]
      exact Table.get?_eq_none_iff.mp hget

/-- What is the same shape has the same properties and requires the same names. -/
theorem of_sameShape (hnodup : (Table.names properties).Nodup)
    (hdrafted : ∀ entry ∈ properties, Drafted entry.2)
    (hothers : ∀ entry ∈ others, Drafted entry.2) {required needed : List String}
    {title other : String}
    (h : sameShape (closedObject properties (.arr (required.map .str)) title)
      (closedObject others (.arr (needed.map .str)) other) = true) :
    required = needed ∧ ∀ name, Table.get? properties name = Table.get? others name := by
  have hparts : alike (.obj properties) (.obj others) = true ∧
      alikeItems (required.map .str) (needed.map .str) = true := by
    simpa [sameShape, closedObject, Json.erase, Table.erase, alike, alikeMembers, Table.get?]
      using h
  refine ⟨?_, get?_of_alike hnodup hdrafted hothers hparts.1⟩
  refine List.map_injective_iff.mpr (fun _ _ heq => Json.str.inj heq)
    (eq_of_alikeItems (fun item hitem found hfound halike => ?_) hparts.2)
  obtain ⟨first, _, rfl⟩ := List.mem_map.mp hitem
  obtain ⟨second, _, rfl⟩ := List.mem_map.mp hfound
  simpa [alike] using halike

end Properties

/-! ## Layers -/

/-- A table in which every definition is a shape that refers to earlier ones
only. -/
inductive Layered : Table Json → Prop
  | nil : Layered []
  | add {definitions : Table Json} {name title : String} {properties : List (String × Json)}
      {required : List String} : Layered definitions → name ∉ Table.names definitions →
      IsShape definitions properties →
      Layered (Table.set definitions name (closedObject properties (.arr (required.map .str)) title))

namespace Layered

variable {definitions : Table Json}

theorem nodup (h : Layered definitions) : (Table.names definitions).Nodup := by
  induction h with
  | nil => exact List.nodup_nil
  | add _ _ _ ih => exact Table.nodup_names_set ih

/-- Every definition is a shape. -/
theorem isShape (h : Layered definitions) {name : String} {node : Json}
    (hget : Table.get? definitions name = some node) :
    ∃ (properties : List (String × Json)) (required : List String) (title : String),
      node = closedObject properties (.arr (required.map .str)) title ∧
        IsShape definitions properties := by
  induction h with
  | nil => cases hget
  | @add earlier added title properties required _ _ hshape ih =>
      have hmono {found : List (String × Json)} (hfound : IsShape earlier found) : IsShape
          (Table.set earlier added (closedObject properties (.arr (required.map .str)) title))
          found :=
        ⟨hfound.nodup, hfound.drafted, fun target hmem =>
          Table.mem_names_set.mpr (.inr (hfound.resolves target hmem))⟩
      rw [Table.get?_set] at hget
      split at hget
      · cases hget
        exact ⟨properties, required, title, rfl, hmono hshape⟩
      · obtain ⟨properties', required', title', heq, hshape'⟩ := ih hget
        exact ⟨properties', required', title', heq, hmono hshape'⟩

/-- What a definition refers to stands before it. -/
theorem idxOf_lt (h : Layered definitions) {name target : String} {node : Json}
    (hget : Table.get? definitions name = some node) (htarget : target ∈ targets node) :
    (Table.names definitions).idxOf target < (Table.names definitions).idxOf name := by
  induction h with
  | nil => cases hget
  | @add earlier added title properties required hlayered hfresh hshape ih =>
      have hresolves {found : Json} {other : String} (hfound : Table.get? earlier other = some found)
          (hmem : target ∈ targets found) : target ∈ Table.names earlier := by
        obtain ⟨inner, _, _, rfl, hinner⟩ := hlayered.isShape hfound
        rw [targets_closedObject hinner.drafted] at hmem
        exact hinner.resolves target hmem
      rw [Table.names_set_of_not_mem hfresh]
      rw [Table.get?_set] at hget
      split at hget
      next heq =>
        cases hget
        rw [targets_closedObject hshape.drafted] at htarget
        have hmem := hshape.resolves target htarget
        rw [List.idxOf_append_of_mem hmem, heq, List.idxOf_append_of_notMem hfresh]
        exact Nat.lt_of_lt_of_le (List.idxOf_lt_length_of_mem hmem) (Nat.le_add_right _ _)
      next =>
        rw [List.idxOf_append_of_mem (hresolves hget htarget),
          List.idxOf_append_of_mem (Table.mem_names_of_get? hget)]
        exact ih hget

theorem resolves (h : Layered definitions) {name target : String} {node : Json}
    (hget : Table.get? definitions name = some node) (htarget : target ∈ targets node) :
    target ∈ Table.names definitions := by
  obtain ⟨properties, _, _, rfl, hshape⟩ := h.isShape hget
  rw [targets_closedObject hshape.drafted] at htarget
  exact hshape.resolves target htarget

theorem acyclic (h : Layered definitions) : Acyclic definitions fun _ => True := by
  have hless : ∀ {name other : String},
      Relation.TransGen (Linked definitions fun _ => True) name other →
        (Table.names definitions).idxOf other < (Table.names definitions).idxOf name := by
    intro name other hchain
    induction hchain with
    | single hlinked =>
        obtain ⟨_, hget, _, htarget⟩ := hlinked
        exact h.idxOf_lt hget htarget
    | tail _ hlinked ih =>
        obtain ⟨_, hget, _, htarget⟩ := hlinked
        exact Nat.lt_trans (h.idxOf_lt hget htarget) ih
  exact fun name hcycle => Nat.lt_irrefl _ (hless hcycle)

/-- Nothing refers to the newest definition. -/
theorem ne_newest (h : Layered definitions) {name target : String} {node : Json}
    (hget : Table.get? definitions name = some node) (htarget : target ∈ targets node) :
    (Table.names definitions).getLast? ≠ some target := by
  intro hlast
  have hlt := h.idxOf_lt hget htarget
  have hname := List.idxOf_lt_length_of_mem (Table.mem_names_of_get? hget)
  obtain ⟨earlier, heq⟩ := List.getLast?_eq_some_iff.mp hlast
  have hnot : target ∉ earlier := by
    have hnodup := h.nodup
    rw [heq, List.nodup_append] at hnodup
    exact fun hmem => hnodup.2.2 target hmem target (by simp) rfl
  rw [heq] at hlt hname
  rw [List.idxOf_append_of_notMem hnot] at hlt
  rw [List.length_append] at hname
  simp at hlt hname
  omega

end Layered

/-- More definitions change nothing if all references are to present ones. -/
theorem unfolding_extends {definitions later : Table Json} (hextends : Extends definitions later)
    (hclosed : ∀ name node, Table.get? definitions name = some node →
      ∀ target ∈ targets node, target ∈ Table.names definitions) {node : Json}
    (hnode : ∀ target ∈ targets node, target ∈ Table.names definitions) :
    unfolding later node = unfolding definitions node := by
  have hmirrors : Mirrors definitions later fun node copy =>
      node = copy ∧ ∀ target ∈ targets node, target ∈ Table.names definitions := by
    intro node copy ⟨heq, hnode⟩
    subst heq
    cases htarget : target? node with
    | none =>
        refine .inr (.inr ⟨rfl, rfl, rfl, fun step => ?_⟩)
        cases hchild : child? node step with
        | none => exact .none
        | some inner =>
            exact .some (.inl ⟨rfl, fun target hmem =>
              hnode target (targets_child?_subset hchild hmem)⟩)
    | some name =>
        obtain ⟨definition, hget⟩ :=
          Table.exists_get?_of_mem_names (hnode name (mem_targets_of_target? htarget))
        exact .inr (.inl ⟨definition, definition, ⟨name, htarget, hget⟩,
          ⟨name, htarget, hextends name definition hget⟩, rfl, hclosed name definition hget⟩)
  exact (hmirrors.unfolding_eq ⟨rfl, hnode⟩).symm

end RequestShapes.Schema
