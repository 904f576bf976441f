import RequestShapes.Proofs.Schema.Acyclic
import RequestShapes.Proofs.Schema.Walkable

/-!
# Lifting orderly nodes succeeds

Lifting fails only where no object stands as the items of an array or as a
definition, or where array definitions follow one another without end.
-/

namespace RequestShapes.Schema

/-- The items of all arrays on the way are objects. -/
inductive Orderly : Json → Prop
  | intro {node : Json} :
      (isArray node = true → (itemsOf node).isObject = true) →
      (isArray node = true → Orderly (itemsOf node)) →
      (∀ members, node.get? "properties" = some (.obj members) →
        ∀ entry ∈ members, Orderly entry.2) →
      Orderly node

/-- Definitions are orderly objects. -/
def OrderlyTable (source : Table Json) : Prop :=
  ∀ name node, Table.get? source name = some node → node.isObject = true ∧ Orderly node

namespace Orderly

variable {node : Json}

theorem isObject_items (h : Orderly node) (harray : isArray node = true) :
    (itemsOf node).isObject = true := by
  cases h with
  | intro hobject _ _ => exact hobject harray

theorem items (h : Orderly node) (harray : isArray node = true) : Orderly (itemsOf node) := by
  cases h with
  | intro _ hitems _ => exact hitems harray

theorem properties (h : Orderly node) {members : List (String × Json)}
    (hget : node.get? "properties" = some (.obj members)) : ∀ entry ∈ members, Orderly entry.2 := by
  cases h with
  | intro _ _ hproperties => exact hproperties members hget

/-- What is no array and has no properties is orderly. -/
theorem of_plain (harray : isArray node = false)
    (hplain : ∀ members, node.get? "properties" ≠ some (.obj members)) : Orderly node :=
  .intro (by simp [harray]) (by simp [harray]) fun members hget => absurd hget (hplain members)

theorem refTo (name : String) : Orderly (Schema.refTo name) :=
  of_plain rfl fun members hget => by simp [Schema.refTo, Json.get?, Table.get?] at hget

end Orderly

/-- A scope in which lifting an orderly node succeeds. -/
structure Scope.Ready (scope : Scope) (source : Table Json) : Prop
    extends scope.Serves source where
  definition : OrderlyTable source
  limit : ∀ target, Ends source (fun node => isArray node = true) scope.limit target

/-- At most so many array definitions follow one another behind the references
of a node. -/
def Affords (source : Table Json) (hops : Nat) (targets : List String) : Prop :=
  ∀ target ∈ targets, Ends source (fun node => isArray node = true) hops target

mutual

theorem liftProperties_ok {source : Table Json} {scope : Scope} (hready : scope.Ready source)
    (definitions : Table Json) {node : Json} (path : String) (hnode : Orderly node)
    (hends : Affords source scope.hops (targets node)) :
    ∃ result, liftProperties scope definitions node path = .ok result := by
  rw [liftProperties]
  split
  next members hproperties =>
    have hinner : Affords source scope.hops (memberTargets members) := fun target hmem => by
      refine hends target (targets_get?_subset hproperties ?_)
      simp [targets, hmem]
    obtain ⟨⟨lifted, later⟩, hlifted⟩ :=
      liftMembers_ok hready definitions path (hnode.properties hproperties) hinner
    rw [hlifted]
    exact ⟨_, rfl⟩
  next => exact ⟨_, rfl⟩
termination_by (scope.pending.length, scope.hops, sizeOf node, 0)
decreasing_by
  exact inner_lt (sizeOf_properties_lt (by assumption))

theorem liftMembers_ok {source : Table Json} {scope : Scope} (hready : scope.Ready source)
    (definitions : Table Json) {members : List (String × Json)} (path : String)
    (hmembers : ∀ entry ∈ members, Orderly entry.2)
    (hends : Affords source scope.hops (memberTargets members)) :
    ∃ result, liftMembers scope definitions members path = .ok result := by
  match members, hmembers, hends with
  | [], _, _ =>
      rw [liftMembers]
      exact ⟨_, rfl⟩
  | (name, value) :: rest, hmembers, hends =>
      obtain ⟨hvalue, hrest⟩ := List.forall_mem_cons.mp hmembers
      simp only [Affords, memberTargets, List.forall_mem_append] at hends
      rw [liftMembers]
      obtain ⟨⟨lifted, middle⟩, hlifted⟩ := liftProperty_ok hready definitions
        (path ++ Identifier.pascalCase name) hvalue hends.1
      obtain ⟨⟨others, later⟩, hothers⟩ := liftMembers_ok hready middle path hrest hends.2
      simp only [hlifted, hothers, bind, Except.bind]
      exact ⟨_, rfl⟩
termination_by (scope.pending.length, scope.hops, sizeOf members, 0)
decreasing_by
  · refine inner_lt ?_
    simp only [List.cons.sizeOf_spec, Prod.mk.sizeOf_spec]
    omega
  · refine inner_lt ?_
    simp only [List.cons.sizeOf_spec]
    omega

theorem liftProperty_ok {source : Table Json} {scope : Scope} (hready : scope.Ready source)
    (definitions : Table Json) {node : Json} (path : String) (hnode : Orderly node)
    (hends : Affords source scope.hops (targets node)) :
    ∃ result, liftProperty scope definitions node path = .ok result := by
  rw [liftProperty]
  split
  next harray => exact liftArray_ok hready definitions path hnode harray hends
  next =>
    split
    next => exact liftRecord_ok hready definitions path hnode hends
    next =>
      split
      next => exact ⟨_, rfl⟩
      next =>
        split
        next target hpending =>
          exact liftDefinition_ok hready definitions target path
            (hends _ (mem_targets_of_target? (Scope.pending?_eq_some hpending)))
        next => exact ⟨_, rfl⟩
termination_by (scope.pending.length, scope.hops, sizeOf node, 2)
decreasing_by
  · exact inner_lt (Json.sizeOf_pos node)
  · exact step_lt (by omega)
  · exact step_lt (by omega)

theorem liftRecord_ok {source : Table Json} {scope : Scope} (hready : scope.Ready source)
    (definitions : Table Json) {node : Json} (path : String) (hnode : Orderly node)
    (hends : Affords source scope.hops (targets node)) :
    ∃ result, liftRecord scope definitions node path = .ok result := by
  rw [liftRecord]
  obtain ⟨⟨lifted, later⟩, hlifted⟩ := liftProperties_ok hready
    (Table.set definitions (scope.freshFor definitions path) node)
    (scope.freshFor definitions path) hnode hends
  rw [hlifted]
  exact ⟨_, rfl⟩
termination_by (scope.pending.length, scope.hops, sizeOf node, 1)
decreasing_by
  exact step_lt (by omega)

theorem liftArray_ok {source : Table Json} {scope : Scope} (hready : scope.Ready source)
    (definitions : Table Json) {node : Json} (path : String) (hnode : Orderly node)
    (harray : isArray node = true) (hends : Affords source scope.hops (targets node)) :
    ∃ result, liftArray scope definitions node path = .ok result := by
  rw [liftArray]
  split
  next items hfilled =>
    have heq : itemsOf node = items := by rw [itemsOf, hfilled, Option.getD_some]
    obtain ⟨⟨lifted, later⟩, hlifted⟩ := liftItem_ok hready definitions (path ++ "Item")
      (heq ▸ hnode.isObject_items harray) (heq ▸ hnode.items harray) fun target hmem =>
        hends target (targets_get?_subset (Json.get?_of_filled? hfilled) hmem)
    rw [hlifted]
    exact ⟨_, rfl⟩
  next => exact ⟨_, rfl⟩
termination_by (scope.pending.length, scope.hops, sizeOf node, 1)
decreasing_by
  exact inner_lt (Json.sizeOf_get?_lt (Json.get?_of_filled? (by assumption)))

theorem liftItem_ok {source : Table Json} {scope : Scope} (hready : scope.Ready source)
    (definitions : Table Json) {node : Json} (path : String) (hobject : node.isObject = true)
    (hnode : Orderly node) (hends : Affords source scope.hops (targets node)) :
    ∃ result, liftItem scope definitions node path = .ok result := by
  rw [liftItem, hobject]
  simp only [Bool.not_true, Bool.false_eq_true, if_false]
  split
  next harray => exact liftArray_ok hready definitions path hnode harray hends
  next =>
    split
    next => exact ⟨_, rfl⟩
    next =>
      split
      next target hpending =>
        exact liftDefinition_ok hready definitions target path
          (hends _ (mem_targets_of_target? (Scope.pending?_eq_some hpending)))
      next => exact liftRecord_ok hready definitions path hnode hends
termination_by (scope.pending.length, scope.hops, sizeOf node, 2)
decreasing_by
  · exact inner_lt (Json.sizeOf_pos node)
  · exact step_lt (by omega)
  · exact step_lt (by omega)

theorem liftDefinition_ok {source : Table Json} {scope : Scope} (hready : scope.Ready source)
    (definitions : Table Json) (target : { target // target ∈ Table.names scope.pending })
    (path : String)
    (hends : Ends source (fun node => isArray node = true) scope.hops target.val) :
    ∃ result, liftDefinition scope definitions target path = .ok result := by
  obtain ⟨node, hget⟩ := Table.exists_get?_of_mem_names target.property
  have hsource := hready.pending target.val node hget
  obtain ⟨hobject, hnode⟩ := hready.definition target.val node hsource
  rw [liftDefinition]
  split
  next hnone => rw [hget] at hnone; cases hnone
  next definition hdefinition =>
    obtain rfl := Option.some.inj (hget.symm.trans hdefinition)
    rw [hobject]
    simp only [Bool.not_true, Bool.false_eq_true, if_false]
    split
    next harray =>
      split
      next hhops =>
        rw [hhops] at hends
        exact absurd harray (hends node hsource)
      next hops hhops =>
        rw [hhops] at hends
        exact liftArray_ok ⟨hready.toServes.hop hops, hready.definition, hready.limit⟩ definitions
          path hnode harray (hends node hsource harray)
    next =>
      obtain ⟨⟨lifted, later⟩, hlifted⟩ := liftProperties_ok
        ⟨hready.toServes.copy target.val (scope.freshFor definitions path), hready.definition,
          hready.limit⟩
        (Table.set definitions (scope.freshFor definitions path) node)
        (scope.freshFor definitions path) hnode fun other _ => hready.limit other
      simp only [Scope.copy] at hlifted
      simp only [hlifted, bind, Except.bind]
      exact ⟨_, rfl⟩
termination_by (scope.pending.length, scope.hops, 0, 0)
decreasing_by
  · exact copy_lt (Table.length_erase_lt target.property)
  · exact hop_lt (by simp only [Scope.hop]; omega)

end

theorem Scope.Ready.initial {source : Table Json} (hdefinition : OrderlyTable source)
    (hacyclic : Acyclic source fun node => isArray node = true) (reserved : List String) :
    (Scope.initial reserved source).Ready source :=
  ⟨.initial reserved source, hdefinition, ends_of_acyclic hacyclic⟩

/-- An orderly root is lifted. -/
theorem liftRoot_ok {source : Table Json} (hdefinition : OrderlyTable source)
    (hacyclic : Acyclic source fun node => isArray node = true) {root : Json}
    (hroot : Orderly root) (path : String) (reserved : List String) :
    ∃ result, liftRoot (Scope.initial reserved source) root path = .ok result := by
  have hready := Scope.Ready.initial hdefinition hacyclic reserved
  rw [liftRoot]
  split
  next harray =>
    obtain ⟨⟨items, later⟩, hitems⟩ := liftItem_ok hready [] (path ++ "Item")
      (hroot.isObject_items harray) (hroot.items harray) fun target _ =>
        ends_of_acyclic hacyclic target
    rw [itemsOf] at hitems
    rw [hitems]
    exact ⟨_, rfl⟩
  next => exact liftProperties_ok hready [] path hroot fun target _ => ends_of_acyclic hacyclic target

end RequestShapes.Schema
