import RequestShapes.Proofs.Schema.Tracing

/-!
# Marking leaves no reference

When every reference of a traced node is to a definition with a constant, marking
puts a marker of this constant in its place. After that no reference is left at
any depth, and every constant text names a constant.
-/

namespace RequestShapes.Schema

/-! ## What a node contains -/

/-- A value stands somewhere in a node, at any depth and in any role. -/
inductive Contains : Json → Json → Prop
  | here (node : Json) : Contains node node
  | item {items : List Json} {item inner : Json} : item ∈ items → Contains item inner →
      Contains (.arr items) inner
  | member {members : List (String × Json)} {entry : String × Json} {inner : Json} :
      entry ∈ members → Contains entry.2 inner → Contains (.obj members) inner

/-- Nothing in a node is a reference to a definition, and every constant text in
it is a marker of one of the constants. -/
def FullyMarked (constants : List String) (node : Json) : Prop :=
  ∀ inner, Contains node inner → target? inner = none ∧
    ∀ text, inner.get? "const" = some (.str text) →
      ∃ constant ∈ constants, text = markerLead ++ constant

namespace FullyMarked

variable {constants : List String}

theorem of_scalar {node : Json} (h : node.isContainer = false) : FullyMarked constants node := by
  intro inner hinner
  cases hinner with
  | here => cases node <;> first | (cases h; done) | exact ⟨rfl, fun _ hget => (nomatch hget)⟩
  | item | member => cases h

theorem of_items {items : List Json} (h : ∀ item ∈ items, FullyMarked constants item) :
    FullyMarked constants (.arr items) := by
  rintro inner (_ | ⟨hmem, hinner⟩ | _)
  · exact ⟨rfl, fun _ hget => (nomatch hget)⟩
  · exact h _ hmem inner hinner

theorem of_members {members : List (String × Json)} (hnone : target? (.obj members) = none)
    (hconst : ∀ text, Table.get? members "const" = some (.str text) →
      ∃ constant ∈ constants, text = markerLead ++ constant)
    (h : ∀ entry ∈ members, FullyMarked constants entry.2) :
    FullyMarked constants (.obj members) := by
  rintro inner (_ | _ | ⟨hmem, hinner⟩)
  · exact ⟨hnone, hconst⟩
  · exact h _ hmem inner hinner

theorem mono {others : List String} {node : Json} (h : FullyMarked constants node)
    (hsubset : ∀ constant ∈ constants, constant ∈ others) : FullyMarked others node := by
  intro inner hinner
  obtain ⟨hnone, htexts⟩ := h inner hinner
  refine ⟨hnone, fun text hget => ?_⟩
  obtain ⟨constant, hmem, rfl⟩ := htexts text hget
  exact ⟨constant, hsubset constant hmem, rfl⟩

/-- Properties are fully marked if each is: none of them is a text. -/
theorem of_properties {properties : List (String × Json)}
    (hobjects : ∀ entry ∈ properties, entry.2.isObject = true)
    (h : ∀ entry ∈ properties, FullyMarked constants entry.2) :
    FullyMarked constants (.obj properties) := by
  refine of_members (target?_members hobjects) (fun text hget => ?_) h
  cases hobjects _ (Table.mem_of_get? hget)

theorem of_strings (names : List String) : FullyMarked constants (.arr (names.map .str)) := by
  refine of_items fun item hmem => ?_
  obtain ⟨name, _, rfl⟩ := List.mem_map.mp hmem
  exact of_scalar rfl

end FullyMarked

/-! ## Marked nodes -/

/-- The node that stands for a constant. -/
def marker (constant : String) : Json := .obj [("const", .str (markerLead ++ constant))]

/-- A node stands for one of the constants. -/
def IsMarker (constants : List String) (node : Json) : Prop :=
  ∃ constant ∈ constants, node = marker constant

theorem IsMarker.isObject {constants : List String} (node : Json) (h : IsMarker constants node) :
    node.isObject = true := by
  obtain ⟨constant, _, rfl⟩ := h
  rfl

theorem Plain.fullyMarked {constants : List String} {node : Json} (h : Plain node) :
    FullyMarked constants node := by
  have hscalar {type : Json} {name : String} {rest : List (String × Json)} (h : Scalar name rest)
      (htype : FullyMarked constants type) :
      FullyMarked constants (.obj (("type", type) :: rest)) := by
    cases h with
    | plain =>
        exact .of_members rfl (fun _ hget => (by cases hget)) (List.forall_mem_singleton.mpr htype)
    | format =>
        exact .of_members rfl (fun _ hget => (by cases hget))
          (List.forall_mem_cons.mpr ⟨htype, List.forall_mem_singleton.mpr (.of_scalar rfl)⟩)
  cases h with
  | null =>
      rw [nullType, ofType]
      exact .of_members rfl (fun _ hget => (by cases hget))
        (List.forall_mem_singleton.mpr (.of_scalar rfl))
  | scalar h => exact hscalar h (.of_scalar rfl)
  | @nullable type _ h => exact hscalar h (.of_strings [type, "null"])

/-- A traced node whose references are markers is fully marked. -/
theorem Traced.fullyMarked {sample : Json} {constants : List String} {hops : List Hop} {node : Json}
    (h : Traced (IsMarker constants) sample hops node) : FullyMarked constants node := by
  induction h with
  | empty => exact .of_members rfl (fun _ hget => (nomatch hget)) fun _ hmem => (nomatch hmem)
  | plain hplain => exact hplain.fullyMarked
  | stands hmarker =>
      obtain ⟨constant, hmem, rfl⟩ := hmarker
      refine .of_members rfl (fun text hget => ⟨constant, hmem, ?_⟩)
        (List.forall_mem_singleton.mpr (.of_scalar rfl))
      cases hget
      rfl
  | array _ ih =>
      exact .of_members rfl (fun _ hget => (nomatch hget))
        (List.forall_mem_cons.mpr ⟨.of_scalar rfl, List.forall_mem_singleton.mpr ih⟩)
  | anyOf _ _ ih =>
      exact .of_members rfl (fun _ hget => (nomatch hget))
        (List.forall_mem_singleton.mpr (.of_items ih))
  | @object _ properties required _ hproperties ih =>
      have hinner := FullyMarked.of_properties
        (fun entry hmem => (hproperties entry hmem).isObject IsMarker.isObject) ih
      refine .of_members rfl (fun _ hget => (nomatch hget)) ?_
      simpa using ⟨.of_scalar rfl, .of_scalar rfl, hinner, .of_strings required, .of_scalar rfl⟩

theorem FullyMarked.declared {constants : List String} {root : Json}
    (h : FullyMarked constants root) (hobject : root.isObject = true) :
    FullyMarked constants (declared root) := by
  cases root with
  | obj members =>
      obtain ⟨hnone, hconst⟩ := h _ (.here _)
      have htarget : target? (Schema.declared (.obj members)) = none :=
        (target?_declared hobject).trans hnone
      refine .of_members htarget (fun text hget => ?_) ?_
      · exact hconst text (by simpa [Json.members, Json.get?, Table.get?] using hget)
      · exact List.forall_mem_cons.mpr ⟨.of_scalar rfl,
          fun entry hmem inner hinner => h inner (.member hmem hinner)⟩
  | _ => cases hobject

theorem TracedRoot.fullyMarked {sample : Json} {constants : List String} {root : Json}
    (h : TracedRoot (IsMarker constants) sample root) : FullyMarked constants root := by
  obtain ⟨root, hops, rfl, _, _, htraced⟩ := h
  exact htraced.fullyMarked.declared (htraced.isObject IsMarker.isObject)

/-! ## Marking -/

/-- A node refers to one of the definitions and says nothing else. -/
def RefersToOne (names : List String) (node : Json) : Prop := ∃ name ∈ names, node = refTo name

theorem RefersToOne.isObject {names : List String} (node : Json) (h : RefersToOne names node) :
    node.isObject = true := by
  obtain ⟨name, _, rfl⟩ := h
  rfl

/-- If all that a traced node refers to is there, each of its references is to one
of those names. -/
theorem Traced.resolved {sample : Json} {names : List String} {hops : List Hop} {node : Json}
    (h : Traced IsReference sample hops node) (htargets : ∀ target ∈ targets node, target ∈ names) :
    Traced (RefersToOne names) sample hops node := by
  induction h with
  | empty hempty => exact .empty hempty
  | plain hplain => exact .plain hplain
  | stands hstands =>
      obtain ⟨name, rfl⟩ := hstands
      exact .stands ⟨name, htargets name (mem_targets_of_target? (target?_refTo name)), rfl⟩
  | array _ ih =>
      refine .array (ih fun target hmem => htargets target ?_)
      exact mem_memberTargets.mpr ⟨("items", _), List.mem_cons_of_mem _ List.mem_cons_self, hmem⟩
  | anyOf hlength _ ih =>
      refine .anyOf hlength fun node hmem => ih node hmem fun target htarget => htargets target ?_
      have hitem := mem_itemTargets.mpr ⟨node, hmem, htarget⟩
      simp [Schema.anyOf, targets, memberTargets, hitem]
  | object _ ih =>
      refine .object fun entry hmem => ih entry hmem fun target htarget => htargets target ?_
      have hmember := mem_memberTargets.mpr ⟨entry, hmem, htarget⟩
      simp [closedObject, targets, memberTargets, hmember]

section Mark

variable (constants : Table String)

theorem markItems_eq_map (items : List Json) :
    markItems constants items = items.map (mark constants) := by
  induction items with
  | nil => rfl
  | cons item rest ih => rw [markItems, ih, List.map_cons]

theorem markMembers_eq_map (members : List (String × Json)) :
    markMembers constants members = members.map fun entry => (entry.1, mark constants entry.2) := by
  induction members with
  | nil => rfl
  | cons entry rest ih => rw [markMembers, ih, List.map_cons]

theorem mark_of_none {members : List (String × Json)} (h : target? (.obj members) = none) :
    mark constants (.obj members) = .obj (members.map fun entry => (entry.1, mark constants entry.2)) := by
  rw [mark, h, Option.bind_none, markMembers_eq_map]

theorem mark_strings (names : List String) :
    mark constants (.arr (names.map .str)) = .arr (names.map .str) := by
  rw [mark, markItems_eq_map, List.map_map]
  rfl

theorem mark_plain {node : Json} (h : Plain node) : mark constants node = node := by
  have hscalar {type : Json} {name : String} {rest : List (String × Json)} (h : Scalar name rest)
      (htype : mark constants type = type) :
      mark constants (.obj (("type", type) :: rest)) = .obj (("type", type) :: rest) := by
    cases h with
    | plain =>
        rw [mark_of_none constants rfl]
        simp [htype]
    | format =>
        rw [mark_of_none constants rfl]
        simp [htype, mark]
  cases h with
  | null => rfl
  | scalar h => exact hscalar h rfl
  | @nullable type _ h => exact hscalar h (mark_strings constants [type, "null"])

theorem passesThrough_mark : PassesThrough (mark constants) where
  empty := rfl
  plain _ h := mark_plain constants h
  array items := by
    rw [ofArray, mark_of_none constants rfl]
    rfl
  anyOf alternatives := by
    rw [anyOf, mark_of_none constants rfl]
    simp [anyOf, mark, markItems_eq_map]
  object properties required title h := by
    rw [closedObject, mark_of_none constants rfl]
    simp only [closedObject, List.map_cons, List.map_nil, mark_strings,
      mark_of_none constants (target?_members h)]
    rfl

/-- A reference to a definition with a constant becomes its marker. -/
theorem mark_refTo {name constant : String} (h : Table.get? constants name = some constant) :
    mark constants (refTo name) = marker constant := by
  have htarget : target? (.obj [("$ref", .str (definitionsPath ++ name))]) = some name :=
    target?_refTo name
  rw [refTo, mark, htarget, Option.bind_some, h]
  rfl

end Mark

/-- Marking a traced node, all of whose references are to definitions with
constants, leaves it traced. -/
theorem Traced.mark {sample : Json} {constants : Table String} {hops : List Hop} {node : Json}
    (h : Traced IsReference sample hops node)
    (htargets : ∀ target ∈ targets node, target ∈ Table.names constants) :
    Traced (IsMarker (constants.map Prod.snd)) sample hops (mark constants node) := by
  refine (h.resolved htargets).map (passesThrough_mark constants) RefersToOne.isObject ?_
  rintro _ ⟨name, hmem, rfl⟩
  obtain ⟨constant, hget⟩ := Table.exists_get?_of_mem_names hmem
  exact ⟨constant, List.mem_map.mpr ⟨_, Table.mem_of_get? hget, rfl⟩, mark_refTo constants hget⟩

/-- The same for a root. -/
theorem TracedRoot.mark {sample : Json} {constants : Table String} {root : Json}
    (h : TracedRoot IsReference sample root)
    (htargets : ∀ target ∈ targets root, target ∈ Table.names constants) :
    TracedRoot (IsMarker (constants.map Prod.snd)) sample (mark constants root) := by
  obtain ⟨root, hops, rfl, hnone, hfilled, htraced⟩ := h
  have hobject := htraced.isObject IsReference.isObject
  rw [targets_declared hobject] at htargets
  have hmarked := htraced.mark htargets
  cases root with
  | obj members =>
      refine ⟨_, hops, ?_, (hmarked.fullyMarked _ (.here _)).1, ?_, hmarked⟩
      · rw [declared, mark_of_none constants ((target?_declared hobject).trans hnone),
          mark_of_none constants hnone]
        rfl
      · rw [mark_of_none constants hnone]
        cases members with
        | nil => cases hfilled
        | cons => rfl
  | _ => cases hobject

end RequestShapes.Schema
