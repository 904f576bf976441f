import RequestShapes.Proofs.Schema.FreshName
import RequestShapes.Proofs.Schema.Retarget

/-!
# What lifting does when it succeeds

The rules by which a lifted node comes about, one for each way in which a
property, an item or a definition is treated. Every successful run of lifting
follows these rules, so what holds of lifting is proved by induction on them.
-/

namespace RequestShapes.Schema

/-- What is lifted: what is below a node, a list of properties, the value of a
property, the items of an array, or an array. -/
inductive Part where
  | body
  | members
  | property
  | item
  | array

/-- A reference can stand here: not in place of a record, which is moved, nor
as items that are no schema. -/
def Part.MayRefer : Part → Json → Prop
  | .property, node => isRecord node = false
  | .item, node => node.isObject = true
  | _, _ => False

/-- The node is moved into a definition as it is: records among properties,
and items that refer to nothing that could be copied. -/
def Part.Moves (scope : Scope) : Part → Json → Prop
  | .property, node => isRecord node = true
  | .item, node =>
      node.isObject = true ∧ scope.copied? node = none ∧ scope.pending? node = none
  | _, _ => False

/-- The scope below a copy of a definition. -/
def Scope.copy (scope : Scope) (target name : String) : Scope :=
  { scope with
    copying := Table.set scope.copying target name
    pending := Table.erase scope.pending target
    hops := scope.limit }

/-- The scope in the copy of an array definition. -/
def Scope.hop (scope : Scope) (hops : Nat) : Scope :=
  { scope with hops := hops }

/-- Lifting takes a node at a path to another node and adds definitions. Lists
of properties count as the objects that they are the members of. -/
inductive Lifts : Part → Scope → Table Json → Json → String → Json → Table Json → Prop
  | plain {scope : Scope} {definitions : Table Json} {node : Json} {path : String} :
      (∀ members, node.get? "properties" ≠ some (.obj members)) →
      Lifts .body scope definitions node path node definitions
  | within {scope : Scope} {definitions later : Table Json} {node : Json} {path : String}
      {members lifted : List (String × Json)} :
      node.get? "properties" = some (.obj members) →
      Lifts .members scope definitions (.obj members) path (.obj lifted) later →
      Lifts .body scope definitions node path (node.set "properties" (.obj lifted)) later
  | nil {scope : Scope} {definitions : Table Json} {path : String} :
      Lifts .members scope definitions (.obj []) path (.obj []) definitions
  | cons {scope : Scope} {definitions middle later : Table Json} {path name : String}
      {value lifted : Json} {rest liftedRest : List (String × Json)} :
      Lifts .property scope definitions value (path ++ Identifier.pascalCase name) lifted middle →
      Lifts .members scope middle (.obj rest) path (.obj liftedRest) later →
      Lifts .members scope definitions (.obj ((name, value) :: rest)) path
        (.obj ((name, lifted) :: liftedRest)) later
  | kept {scope : Scope} {definitions : Table Json} {node : Json} {path : String} :
      isArray node = false → isRecord node = false → scope.copied? node = none →
      scope.pending? node = none →
      Lifts .property scope definitions node path node definitions
  | back {part : Part} {scope : Scope} {definitions : Table Json} {node : Json}
      {path name : String} :
      part.MayRefer node → isArray node = false → scope.copied? node = some name →
      Lifts part scope definitions node path (refTo name) definitions
  | moved {part : Part} {scope : Scope} {definitions later : Table Json} {node lifted : Json}
      {path name : String} :
      part.Moves scope node → isArray node = false → scope.freshFor definitions path = name →
      Lifts .body scope (Table.set definitions name node) node name lifted later →
      Lifts part scope definitions node path (refTo name) (Table.set later name lifted)
  | copied {part : Part} {scope : Scope} {definitions later : Table Json}
      {node definition lifted : Json} {path name target : String} :
      part.MayRefer node → isArray node = false → scope.copied? node = none →
      target? node = some target → Table.get? scope.pending target = some definition →
      isArray definition = false → scope.freshFor definitions path = name →
      Lifts .body (scope.copy target name) (Table.set definitions name definition) definition
        name lifted later →
      Lifts part scope definitions node path (refTo name) (Table.set later name lifted)
  | copiedArray {part : Part} {scope : Scope} {definitions later : Table Json}
      {node definition lifted : Json} {path target : String} {hops : Nat} :
      part.MayRefer node → isArray node = false → scope.copied? node = none →
      target? node = some target → Table.get? scope.pending target = some definition →
      isArray definition = true → scope.hops = hops + 1 →
      Lifts .array (scope.hop hops) definitions definition path lifted later →
      Lifts part scope definitions node path lifted later
  | direct {part : Part} {scope : Scope} {definitions later : Table Json} {node lifted : Json}
      {path : String} :
      part = .property ∨ part = .item → isArray node = true →
      Lifts .array scope definitions node path lifted later →
      Lifts part scope definitions node path lifted later
  | array {scope : Scope} {definitions later : Table Json} {node items : Json}
      {path name : String} :
      isArray node = true →
      Lifts .item scope definitions (itemsOf node) (path ++ "Item") items later →
      scope.freshFor later path = name →
      Lifts .array scope definitions node path (refTo name)
        (Table.set later name ((node.erase "items").set "items" items))

theorem Scope.pending?_eq_some {scope : Scope} {node : Json}
    {target : { target // target ∈ Table.names scope.pending }}
    (h : scope.pending? node = some target) : target? node = some target.val := by
  unfold Scope.pending? at h
  split at h
  next => simp at h
  next name htarget =>
    split at h
    next =>
      obtain rfl := Option.some.inj h
      exact htarget
    next => simp at h

theorem Part.Moves.isObject {scope : Scope} {part : Part} {node : Json}
    (h : part.Moves scope node) : node.isObject = true := by
  cases part with
  | property => cases node <;> simp_all [Part.Moves, isRecord, Json.get?, Json.isObject]
  | item => exact h.1
  | _ => exact h.elim

theorem Scope.freshFor_not_mem (scope : Scope) (definitions : Table Json) (path : String) :
    scope.freshFor definitions path ∉ Table.names definitions ∧
      scope.freshFor definitions path ∉ scope.reserved := by
  have hfresh := freshName_not_mem (Table.names definitions ++ scope.reserved) path
  rw [List.mem_append, not_or] at hfresh
  exact hfresh

theorem bind_eq_ok {ε α β : Type} {first : Except ε α} {next : α → Except ε β} {result : β}
    (h : (first >>= next) = .ok result) : ∃ value, first = .ok value ∧ next value = .ok result := by
  cases first with
  | error fault => cases h
  | ok value => exact ⟨value, rfl, h⟩

theorem sizeOf_properties_lt {node : Json} {members : List (String × Json)}
    (h : node.get? "properties" = some (.obj members)) : sizeOf members < sizeOf node := by
  have hlt := Json.sizeOf_get?_lt h
  simp only [Json.obj.sizeOf_spec] at hlt
  omega

mutual

theorem lifts_of_liftProperties {scope : Scope} {definitions later : Table Json}
    {node lifted : Json} {path : String}
    (h : liftProperties scope definitions node path = .ok (lifted, later)) :
    Lifts .body scope definitions node path lifted later := by
  rw [liftProperties] at h
  split at h
  next members hproperties =>
    obtain ⟨⟨liftedMembers, middle⟩, hmembers, heq⟩ := bind_eq_ok h
    have hlifts := lifts_of_liftMembers hmembers
    cases heq
    exact .within hproperties hlifts
  next hplain =>
    cases h
    exact .plain hplain
termination_by (scope.pending.length, scope.hops, sizeOf node, 0)
decreasing_by
  exact inner_lt (sizeOf_properties_lt (by assumption))

theorem lifts_of_liftMembers {scope : Scope} {definitions later : Table Json}
    {members lifted : List (String × Json)} {path : String}
    (h : liftMembers scope definitions members path = .ok (lifted, later)) :
    Lifts .members scope definitions (.obj members) path (.obj lifted) later := by
  match members, h with
  | [], h =>
      rw [liftMembers] at h
      cases h
      exact .nil
  | (name, value) :: rest, h =>
      rw [liftMembers] at h
      obtain ⟨⟨liftedValue, middle⟩, hvalue, h⟩ := bind_eq_ok h
      obtain ⟨⟨liftedRest, last⟩, hrest, heq⟩ := bind_eq_ok h
      have hfirst := lifts_of_liftProperty hvalue
      have hothers := lifts_of_liftMembers hrest
      cases heq
      exact .cons hfirst hothers
termination_by (scope.pending.length, scope.hops, sizeOf members, 0)
decreasing_by
  · refine inner_lt ?_
    simp only [List.cons.sizeOf_spec, Prod.mk.sizeOf_spec]
    omega
  · refine inner_lt ?_
    simp only [List.cons.sizeOf_spec]
    omega

theorem lifts_of_liftProperty {scope : Scope} {definitions later : Table Json}
    {node lifted : Json} {path : String}
    (h : liftProperty scope definitions node path = .ok (lifted, later)) :
    Lifts .property scope definitions node path lifted later := by
  rw [liftProperty] at h
  split at h
  next harray => exact .direct (.inl rfl) harray (lifts_of_liftArray h harray)
  next harray =>
    split at h
    next hrecord => exact lifts_of_liftRecord h hrecord (Bool.eq_false_iff.mpr harray)
    next hrecord =>
      have harray := Bool.eq_false_iff.mpr harray
      have hrecord := Bool.eq_false_iff.mpr hrecord
      split at h
      next name hcopied =>
        cases h
        exact .back hrecord harray hcopied
      next hcopied =>
        split at h
        next target hpending =>
          exact lifts_of_liftDefinition h hrecord harray hcopied
            (Scope.pending?_eq_some hpending)
        next hpending =>
          cases h
          exact .kept harray hrecord hcopied hpending
termination_by (scope.pending.length, scope.hops, sizeOf node, 2)
decreasing_by
  · exact inner_lt (Json.sizeOf_pos node)
  · exact step_lt (by omega)
  · exact step_lt (by omega)

theorem lifts_of_liftRecord {part : Part} {scope : Scope} {definitions later : Table Json}
    {node lifted : Json} {path : String}
    (h : liftRecord scope definitions node path = .ok (lifted, later))
    (hmoves : part.Moves scope node) (harray : isArray node = false) :
    Lifts part scope definitions node path lifted later := by
  rw [liftRecord] at h
  obtain ⟨⟨inner, middle⟩, hinner, heq⟩ := bind_eq_ok h
  have hlifts := lifts_of_liftProperties hinner
  cases heq
  exact .moved hmoves harray rfl hlifts
termination_by (scope.pending.length, scope.hops, sizeOf node, 1)
decreasing_by
  exact step_lt (by omega)

theorem lifts_of_liftArray {scope : Scope} {definitions later : Table Json}
    {node lifted : Json} {path : String}
    (h : liftArray scope definitions node path = .ok (lifted, later))
    (harray : isArray node = true) :
    Lifts .array scope definitions node path lifted later := by
  rw [liftArray] at h
  split at h
  next inner hfilled =>
    have hinner : itemsOf node = inner := by rw [itemsOf, hfilled, Option.getD_some]
    obtain ⟨⟨items, middle⟩, hitems, heq⟩ := bind_eq_ok h
    have hlifts := lifts_of_liftItem hitems
    cases heq
    exact .array harray (hinner ▸ hlifts) rfl
  next hfilled =>
    -- what accepts everything is moved like any other items schema
    have hinner : itemsOf node = .empty := by rw [itemsOf, hfilled, Option.getD_none]
    cases h
    refine .array harray ?_ rfl
    rw [hinner, ← Table.set_set definitions _ Json.empty Json.empty]
    exact .moved ⟨rfl, rfl, rfl⟩ rfl rfl (.plain (by simp [Json.empty, Json.get?, Table.get?]))
termination_by (scope.pending.length, scope.hops, sizeOf node, 1)
decreasing_by
  exact inner_lt (Json.sizeOf_get?_lt (Json.get?_of_filled? (by assumption)))

theorem lifts_of_liftItem {scope : Scope} {definitions later : Table Json}
    {node lifted : Json} {path : String}
    (h : liftItem scope definitions node path = .ok (lifted, later)) :
    Lifts .item scope definitions node path lifted later := by
  rw [liftItem] at h
  split at h
  next => cases h
  next hobject =>
    have hobject : node.isObject = true := by simpa using hobject
    split at h
    next harray => exact .direct (.inr rfl) harray (lifts_of_liftArray h harray)
    next harray =>
      have harray := Bool.eq_false_iff.mpr harray
      split at h
      next name hcopied =>
        cases h
        exact .back hobject harray hcopied
      next hcopied =>
        split at h
        next target hpending =>
          exact lifts_of_liftDefinition h hobject harray hcopied
            (Scope.pending?_eq_some hpending)
        next hpending => exact lifts_of_liftRecord h ⟨hobject, hcopied, hpending⟩ harray
termination_by (scope.pending.length, scope.hops, sizeOf node, 2)
decreasing_by
  · exact inner_lt (Json.sizeOf_pos node)
  · exact step_lt (by omega)
  · exact step_lt (by omega)

theorem lifts_of_liftDefinition {part : Part} {scope : Scope} {definitions later : Table Json}
    {node lifted : Json} {target : { target // target ∈ Table.names scope.pending }}
    {path : String} (h : liftDefinition scope definitions target path = .ok (lifted, later))
    (hrefer : part.MayRefer node) (harray : isArray node = false)
    (hcopied : scope.copied? node = none) (htarget : target? node = some target.val) :
    Lifts part scope definitions node path lifted later := by
  rw [liftDefinition] at h
  split at h
  next => cases h
  next definition hget =>
    split at h
    next => cases h
    next =>
      split at h
      next hdefinition =>
        split at h
        next => cases h
        next hops hhops =>
          exact .copiedArray hrefer harray hcopied htarget hget hdefinition hhops
            (lifts_of_liftArray h hdefinition)
      next hdefinition =>
        obtain ⟨⟨inner, middle⟩, hinner, heq⟩ := bind_eq_ok h
        have hlifts := lifts_of_liftProperties hinner
        cases heq
        exact .copied hrefer harray hcopied htarget hget (Bool.eq_false_iff.mpr hdefinition) rfl
          hlifts
termination_by (scope.pending.length, scope.hops, 0, 0)
decreasing_by
  · exact copy_lt (Table.length_erase_lt target.property)
  · exact hop_lt (by simp only [Scope.hop]; omega)

end

/-! ## The names that lifting adds -/

/-- Later definitions hold all that earlier ones hold. -/
def Extends (earlier later : Table Json) : Prop :=
  ∀ name definition, Table.get? earlier name = some definition →
    Table.get? later name = some definition

theorem Extends.refl (definitions : Table Json) : Extends definitions definitions :=
  fun _ _ h => h

theorem Extends.trans {first second third : Table Json} (hfirst : Extends first second)
    (hsecond : Extends second third) : Extends first third :=
  fun name definition h => hsecond name definition (hfirst name definition h)

theorem Extends.set {definitions : Table Json} {name : String}
    (h : name ∉ Table.names definitions) (node : Json) :
    Extends definitions (Table.set definitions name node) := by
  intro other definition hget
  have hne : other ≠ name := fun heq => h (heq ▸ Table.mem_names_of_get? hget)
  rw [Table.get?_set_of_ne _ _ hne, hget]

/-- A definition under way may still change, all others stay. -/
theorem Extends.finish {definitions later : Table Json} {name : String}
    (h : name ∉ Table.names definitions) {node : Json}
    (hlater : Extends (Table.set definitions name node) later) (lifted : Json) :
    Extends definitions (Table.set later name lifted) := by
  intro other definition hget
  have hne : other ≠ name := fun heq => h (heq ▸ Table.mem_names_of_get? hget)
  rw [Table.get?_set_of_ne _ _ hne]
  exact (Extends.set h node).trans hlater other definition hget

theorem Extends.names_subset {earlier later : Table Json} (h : Extends earlier later) :
    Table.names earlier ⊆ Table.names later := by
  intro name hname
  obtain ⟨definition, hget⟩ := Table.exists_get?_of_mem_names hname
  exact Table.mem_names_of_get? (h name definition hget)

/-- Lifting only adds definitions. -/
theorem Lifts.extends {part : Part} {scope : Scope} {definitions later : Table Json}
    {node lifted : Json} {path : String}
    (h : Lifts part scope definitions node path lifted later) : Extends definitions later := by
  induction h with
  | plain | nil | kept | back => exact Extends.refl _
  | within _ _ ih | copiedArray _ _ _ _ _ _ _ _ ih | direct _ _ _ ih => exact ih
  | cons _ _ ihvalue ihrest => exact ihvalue.trans ihrest
  | @moved _ scope definitions _ _ _ path _ _ _ hname _ ih =>
      exact Extends.finish (hname ▸ (scope.freshFor_not_mem definitions path).1) ih _
  | @copied _ scope definitions _ _ _ _ path _ _ _ _ _ _ _ _ hname _ ih =>
      exact Extends.finish (hname ▸ (scope.freshFor_not_mem definitions path).1) ih _
  | @array scope _ later _ _ path _ _ _ hname ih =>
      exact ih.trans (Extends.set (hname ▸ (scope.freshFor_not_mem later path).1) _)

/-- A property of names that every way hands on. -/
structure NameInvariant (Holds : String → Prop) : Prop where
  member : ∀ path key, Holds path → Holds (path ++ Identifier.pascalCase key)
  item : ∀ path, Holds path → Holds (path ++ "Item")
  number : ∀ path attempt, Holds path → Holds (numbered path attempt)

theorem NameInvariant.freshFor {Holds : String → Prop} (h : NameInvariant Holds) (scope : Scope)
    (definitions : Table Json) {path : String} (hpath : Holds path) :
    Holds (scope.freshFor definitions path) := by
  obtain ⟨attempt, _, heq⟩ :=
    freshName_eq_numbered (Table.names definitions ++ scope.reserved) path
  rw [Scope.freshFor, heq]
  exact h.number path attempt hpath

/-- The names of the later definitions stand after the earlier ones, are
distinct and not reserved, and have a property. -/
def Adds (Holds : String → Prop) (reserved : List String) (definitions later : Table Json) :
    Prop :=
  ∃ added, Table.names later = Table.names definitions ++ added ∧ added.Nodup ∧
    ∀ name ∈ added, name ∉ Table.names definitions ∧ name ∉ reserved ∧ Holds name

namespace Adds

variable {Holds : String → Prop} {reserved : List String}

theorem refl (definitions : Table Json) : Adds Holds reserved definitions definitions :=
  ⟨[], by simp⟩

theorem trans {definitions middle later : Table Json} (h : Adds Holds reserved definitions middle)
    (h' : Adds Holds reserved middle later) : Adds Holds reserved definitions later := by
  obtain ⟨first, hfirst, hnodup, hadded⟩ := h
  obtain ⟨second, hsecond, hnodup', hadded'⟩ := h'
  refine ⟨first ++ second, by rw [hsecond, hfirst, List.append_assoc], ?_, ?_⟩
  · refine hnodup.append hnodup' fun name hname hname' => ?_
    exact (hadded' name hname').1 (hfirst ▸ List.mem_append_right _ hname)
  · intro name hname
    rcases List.mem_append.mp hname with hname | hname
    · exact hadded name hname
    · obtain ⟨hnew, hrest⟩ := hadded' name hname
      exact ⟨fun hmem => hnew (hfirst ▸ List.mem_append_left _ hmem), hrest⟩

theorem fresh (hinvariant : NameInvariant Holds) {scope : Scope}
    {definitions : Table Json} {path name : String}
    (hname : scope.freshFor definitions path = name) (hpath : Holds path) (node : Json) :
    Adds Holds scope.reserved definitions (Table.set definitions name node) := by
  obtain ⟨hnew, hreserved⟩ := scope.freshFor_not_mem definitions path
  rw [hname] at hnew hreserved
  refine ⟨[name], Table.names_set_of_not_mem hnew node, List.nodup_singleton name, ?_⟩
  intro other hother
  rw [List.mem_singleton.mp hother]
  exact ⟨hnew, hreserved, hname ▸ hinvariant.freshFor scope definitions hpath⟩

/-- A definition under way is finished under the name that it has. -/
theorem finish {definitions later : Table Json} {name : String} {node : Json}
    (h : Adds Holds reserved (Table.set definitions name node) later) (lifted : Json) :
    Adds Holds reserved (Table.set definitions name node) (Table.set later name lifted) := by
  obtain ⟨added, hlater, hrest⟩ := h
  have hmem : name ∈ Table.names later :=
    hlater ▸ List.mem_append_left _ (Table.mem_names_set.mpr (.inl rfl))
  exact ⟨added, by rw [Table.names_set_of_mem hmem, hlater], hrest⟩

theorem nodup {definitions later : Table Json} (h : Adds Holds reserved definitions later)
    (hnodup : (Table.names definitions).Nodup) : (Table.names later).Nodup := by
  obtain ⟨added, hlater, hadded, hnew⟩ := h
  rw [hlater]
  exact hnodup.append hadded fun name hname hname' => (hnew name hname').1 hname

end Adds

theorem NameInvariant.trivial : NameInvariant fun _ => True :=
  ⟨fun _ _ _ => True.intro, fun _ _ => True.intro, fun _ _ _ => True.intro⟩

/-- The names that lifting adds are new and have every property that the path
hands on. -/
theorem Lifts.adds {Holds : String → Prop} (hinvariant : NameInvariant Holds) {part : Part}
    {scope : Scope} {definitions later : Table Json} {node lifted : Json} {path : String}
    (h : Lifts part scope definitions node path lifted later) (hpath : Holds path) :
    Adds Holds scope.reserved definitions later := by
  induction h with
  | plain | nil | kept | back => exact .refl _
  | within _ _ ih | direct _ _ _ ih | copiedArray _ _ _ _ _ _ _ _ ih => exact ih hpath
  | cons _ _ ihvalue ihrest => exact (ihvalue (hinvariant.member _ _ hpath)).trans (ihrest hpath)
  | @moved _ scope definitions _ node lifted path _ _ _ hname _ ih =>
      have hname' := hname ▸ hinvariant.freshFor scope definitions hpath
      exact (Adds.fresh hinvariant hname hpath node).trans ((ih hname').finish lifted)
  | @copied _ scope definitions _ _ definition lifted path _ _ _ _ _ _ _ _ hname _ ih =>
      have hname' := hname ▸ hinvariant.freshFor scope definitions hpath
      exact (Adds.fresh hinvariant hname hpath definition).trans ((ih hname').finish lifted)
  | array _ _ hname ih =>
      exact (ih (hinvariant.item _ hpath)).trans (Adds.fresh hinvariant hname hpath _)

theorem liftRoot_adds {Holds : String → Prop} (hinvariant : NameInvariant Holds) {scope : Scope}
    {root lifted : Json} {path : String} {definitions : Table Json}
    (h : liftRoot scope root path = .ok (lifted, definitions)) (hpath : Holds path) :
    Adds Holds scope.reserved [] definitions := by
  rw [liftRoot] at h
  split at h
  next =>
    obtain ⟨⟨items, later⟩, hitems, heq⟩ := bind_eq_ok h
    cases heq
    exact (lifts_of_liftItem hitems).adds hinvariant (hinvariant.item path hpath)
  next => exact (lifts_of_liftProperties h).adds hinvariant hpath

theorem Lifts.nodup_names {part : Part} {scope : Scope} {definitions later : Table Json}
    {node lifted : Json} {path : String}
    (h : Lifts part scope definitions node path lifted later)
    (hnodup : (Table.names definitions).Nodup) : (Table.names later).Nodup :=
  (h.adds .trivial trivial).nodup hnodup

/-- The definitions that lifting the root adds have distinct names. -/
theorem nodup_names_of_liftRoot {scope : Scope} {root lifted : Json} {path : String}
    {definitions : Table Json} (h : liftRoot scope root path = .ok (lifted, definitions)) :
    (Table.names definitions).Nodup := by
  exact (liftRoot_adds .trivial h trivial).nodup List.nodup_nil

end RequestShapes.Schema
