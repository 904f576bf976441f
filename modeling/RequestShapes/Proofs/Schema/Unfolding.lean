import RequestShapes.Schema.Lifting

/-!
# Unfolding a schema

A schema with definitions stands for a tree, which is infinite if references
go round: wherever a reference stands, the tree goes on with the definition it
designates. The tree is given by what is met on each path from the root. An
array without an items schema counts as one whose items may be anything.
-/

namespace RequestShapes.Schema

/-- One step from a node to what is directly inside of it. -/
inductive Step where
  | member (name : String)
  | item (index : Nat)
deriving DecidableEq, Repr

/-- What a node is apart from all that is inside of it. -/
inductive Label where
  | null
  | bool (value : Bool)
  | int (value : Int)
  | float (value : Binary64)
  | str (value : String)
  | arr
  | obj
deriving DecidableEq

/-- The label of a node. -/
def label : Json → Label
  | .null => .null
  | .bool value => .bool value
  | .int value => .int value
  | .float value => .float value
  | .str value => .str value
  | .arr _ => .arr
  | .obj _ => .obj

theorem label_eq_obj_iff {node : Json} : label node = .obj ↔ node.isObject = true := by
  cases node <;> simp [label, Json.isObject]

/-- The schema of the items of an array schema. A vacant one counts as absent,
and an absent one accepts everything. -/
def itemsOf (node : Json) : Json :=
  (Json.filled? (node.get? "items")).getD .empty

/-- What stands directly inside of a node. -/
def child? (node : Json) : Step → Option Json
  | .member name =>
      if isArray node && name = "items" then some (itemsOf node) else node.get? name
  | .item index =>
      match node with
      | .arr items => items[index]?
      | _ => none

/-- A node refers to a definition of the table. -/
def Designates (definitions : Table Json) (node definition : Json) : Prop :=
  ∃ name, target? node = some name ∧ Table.get? definitions name = some definition

/-- What one meets on a path from a node. References are followed without a
step, and nothing beside a reference counts. -/
inductive Meets (definitions : Table Json) : Json → List Step → Json → Prop
  | here (node : Json) : Meets definitions node [] node
  | follow {node definition found : Json} {path : List Step} :
      Designates definitions node definition → Meets definitions definition path found →
      Meets definitions node path found
  | step {node inner found : Json} {step : Step} {path : List Step} :
      target? node = none → child? node step = some inner →
      Meets definitions inner path found → Meets definitions node (step :: path) found

/-- The tree that a node unfolds to: the labels found on its paths. -/
def unfolding (definitions : Table Json) (node : Json) (path : List Step) (shown : Label) :
    Prop :=
  ∃ found, Meets definitions node path found ∧ target? found = none ∧ label found = shown

/-- The root of a schema, without the definitions. -/
def rootOf (schema : Json) : Json := schema.erase "definitions"

/-- The tree that a schema with its own definitions unfolds to. -/
def treeOf (schema : Json) : List Step → Label → Prop :=
  unfolding (definitionsOf schema) (rootOf schema)

theorem isObject_rootOf (draft : Json) : (rootOf draft).isObject = draft.isObject := by
  cases draft <;> rfl

theorem get?_definitions_rootOf (draft : Json) : (rootOf draft).get? "definitions" = none := by
  cases draft with
  | obj members => simp [rootOf, Json.erase, Json.get?, Table.get?_erase]
  | _ => rfl

/-- A root and definitions form one schema. -/
theorem parts_of_set {root : Json} (hobject : root.isObject = true)
    (hnone : root.get? "definitions" = none) (definitions : Table Json) :
    rootOf (root.set "definitions" (.obj definitions)) = root ∧
      definitionsOf (root.set "definitions" (.obj definitions)) = definitions := by
  cases root with
  | obj members =>
      refine ⟨?_, ?_⟩
      · rw [rootOf, Json.set, Json.erase,
          Table.erase_set_of_not_mem (Table.get?_eq_none_iff.mp hnone)]
      · simp [definitionsOf, Json.set, Json.get?, Json.members]
  | _ => simp [Json.isObject] at hobject

/-- A reference on a path of a schema. -/
def RefersAt (schema : Json) (path : List Step) (name : String) : Prop :=
  ∃ node, Meets (definitionsOf schema) (rootOf schema) path node ∧ target? node = some name

theorem Designates.unique {definitions : Table Json} {node first second : Json}
    (hfirst : Designates definitions node first) (hsecond : Designates definitions node second) :
    first = second := by
  obtain ⟨name, htarget, hget⟩ := hfirst
  obtain ⟨other, hother, hget'⟩ := hsecond
  obtain rfl : name = other := Option.some.inj (htarget.symm.trans hother)
  exact Option.some.inj (hget.symm.trans hget')

theorem Designates.target?_ne_none {definitions : Table Json} {node definition : Json}
    (h : Designates definitions node definition) : target? node ≠ none := by
  obtain ⟨name, htarget, _⟩ := h
  simp [htarget]

/-- A reference unfolds like the definition it designates. -/
theorem unfolding_of_designates {definitions : Table Json} {node definition : Json}
    (h : Designates definitions node definition) :
    unfolding definitions node = unfolding definitions definition := by
  funext path shown
  apply propext
  constructor
  · rintro ⟨found, hmeets, htarget, hlabel⟩
    cases hmeets with
    | here => exact absurd htarget h.target?_ne_none
    | follow hother hrest => exact ⟨found, h.unique hother ▸ hrest, htarget, hlabel⟩
    | step hnone _ _ => exact absurd hnone h.target?_ne_none
  · rintro ⟨found, hmeets, htarget, hlabel⟩
    exact ⟨found, .follow h hmeets, htarget, hlabel⟩

theorem unfolding_step {definitions : Table Json} {node inner : Json} {step : Step}
    (hnone : target? node = none) (hchild : child? node step = some inner) (path : List Step)
    (shown : Label) :
    unfolding definitions node (step :: path) shown ↔ unfolding definitions inner path shown := by
  constructor
  · rintro ⟨found, hmeets, htarget, hlabel⟩
    cases hmeets with
    | follow hother _ => exact absurd hnone hother.target?_ne_none
    | step _ hother hrest =>
        obtain rfl := Option.some.inj (hchild.symm.trans hother)
        exact ⟨found, hrest, htarget, hlabel⟩
  · rintro ⟨found, hmeets, htarget, hlabel⟩
    exact ⟨found, .step hnone hchild hmeets, htarget, hlabel⟩

/-- What is no reference shows its own label. -/
theorem unfolding_nil {definitions : Table Json} {node : Json} (hnone : target? node = none)
    (shown : Label) : unfolding definitions node [] shown ↔ label node = shown := by
  constructor
  · rintro ⟨found, hmeets, _, hlabel⟩
    cases hmeets with
    | here => exact hlabel
    | follow hdesignates _ => exact absurd hnone hdesignates.target?_ne_none
  · exact fun hlabel => ⟨node, .here node, hnone, hlabel⟩

/-- What is met on a path unfolds to the part of the tree below that path. -/
theorem Meets.unfolding_iff {definitions : Table Json} {node found : Json} {path : List Step}
    (h : Meets definitions node path found) (rest : List Step) (shown : Label) :
    unfolding definitions found rest shown ↔ unfolding definitions node (path ++ rest) shown := by
  induction h with
  | here => rfl
  | follow hdesignates _ ih => rw [ih, unfolding_of_designates hdesignates]
  | step hnone hchild _ ih => rw [ih, List.cons_append, unfolding_step hnone hchild]

theorem Meets.append {definitions : Table Json} {node middle found : Json}
    {path rest : List Step} (h : Meets definitions node path middle)
    (hrest : Meets definitions middle rest found) :
    Meets definitions node (path ++ rest) found := by
  induction h with
  | here => exact hrest
  | follow hdesignates _ ih => exact .follow hdesignates (ih hrest)
  | step hnone hchild _ ih => exact .step hnone hchild (ih hrest)

theorem Meets.designated {definitions : Table Json} {node found definition : Json}
    {path : List Step} (h : Meets definitions node path found)
    (hdesignates : Designates definitions found definition) :
    Meets definitions node path definition := by
  simpa using h.append (.follow hdesignates (.here definition))

theorem Meets.child {definitions : Table Json} {node found inner : Json} {path : List Step}
    {step : Step} (h : Meets definitions node path found) (hnone : target? found = none)
    (hchild : child? found step = some inner) :
    Meets definitions node (path ++ [step]) inner :=
  h.append (.step hnone hchild (.here inner))

/-! ## Trees side by side -/

section Related

variable {α β : Type} {R : α → β → Prop} {first : Option α} {second : Option β}

theorem eq_none_of_rel (hrel : Option.Rel R first second) (hnone : first = none) :
    second = none := by
  subst hnone
  cases hrel
  rfl

theorem exists_right_of_rel (hrel : Option.Rel R first second) {value : α}
    (hsome : first = some value) : ∃ other, second = some other ∧ R value other := by
  subst hsome
  cases hrel with
  | some hvalue => exact ⟨_, rfl, hvalue⟩

theorem exists_left_of_rel (hrel : Option.Rel R first second) {other : β}
    (hsome : second = some other) : ∃ value, first = some value ∧ R value other := by
  subst hsome
  cases hrel with
  | some hvalue => exact ⟨_, rfl, hvalue⟩

end Related

/-- In the second node the first one may stand behind one more reference. -/
def Behind (definitions : Table Json) (R : Json → Json → Prop) (node copy : Json) : Prop :=
  R node copy ∨ ∃ inner, Designates definitions copy inner ∧ R node inner

/-- Behind that reference the tree is the same. -/
theorem Behind.exists_unfolding_eq {definitions : Table Json} {R : Json → Json → Prop}
    {node copy : Json} (h : Behind definitions R node copy) :
    ∃ inner, R node inner ∧ unfolding definitions copy = unfolding definitions inner := by
  rcases h with hdirect | ⟨inner, hdesignates, hinner⟩
  · exact ⟨copy, hdirect, rfl⟩
  · exact ⟨inner, hinner, unfolding_of_designates hdesignates⟩

/-- Two tables of definitions mirror one another along a relation if related
nodes refer to related ones or look alike and hold related ones, where a node
inside of the second one may stand behind a further reference. Nodes with the
same tree need no further comparison. -/
def Mirrors (source copies : Table Json) (R : Json → Json → Prop) : Prop :=
  ∀ node copy, R node copy →
    unfolding source node = unfolding copies copy ∨
    (∃ definition inner, Designates source node definition ∧ Designates copies copy inner ∧
      R definition inner) ∨
    (target? node = none ∧ target? copy = none ∧ label node = label copy ∧
      ∀ step, Option.Rel (Behind copies R) (child? node step) (child? copy step))

namespace Mirrors

variable {source copies : Table Json} {R : Json → Json → Prop}

theorem forth (h : Mirrors source copies R) {node found : Json} {path : List Step}
    (hmeets : Meets source node path found) (htarget : target? found = none) {copy : Json}
    (hrelated : R node copy) : unfolding copies copy path (label found) := by
  induction hmeets generalizing copy with
  | here node =>
      rcases h node copy hrelated with heq | ⟨_, _, hdesignates, _, _⟩ | ⟨_, hcopy, hlabel, _⟩
      · rw [← heq]
        exact ⟨node, .here node, htarget, rfl⟩
      · exact absurd htarget hdesignates.target?_ne_none
      · exact ⟨copy, .here copy, hcopy, hlabel.symm⟩
  | @follow node definition found path hfollow hrest ih =>
      rcases h node copy hrelated with heq | ⟨_, inner, hdesignates, hcopy, hinner⟩ | ⟨hnone, _⟩
      · rw [← heq]
        exact ⟨found, .follow hfollow hrest, htarget, rfl⟩
      · rw [unfolding_of_designates hcopy]
        exact ih htarget (hfollow.unique hdesignates ▸ hinner)
      · exact absurd hnone hfollow.target?_ne_none
  | @step node inner found step path hnone hchild hrest ih =>
      rcases h node copy hrelated with
        heq | ⟨_, _, hdesignates, _, _⟩ | ⟨_, hcopy, _, hchildren⟩
      · rw [← heq]
        exact ⟨found, .step hnone hchild hrest, htarget, rfl⟩
      · exact absurd hnone hdesignates.target?_ne_none
      · obtain ⟨other, hother, hbehind⟩ := exists_right_of_rel (hchildren step) hchild
        obtain ⟨further, hinner, heq⟩ := hbehind.exists_unfolding_eq
        rw [unfolding_step hcopy hother, heq]
        exact ih htarget hinner

theorem back (h : Mirrors source copies R) {copy found : Json} {path : List Step}
    (hmeets : Meets copies copy path found) (htarget : target? found = none) {node : Json}
    (hrelated : Behind copies R node copy) : unfolding source node path (label found) := by
  induction hmeets generalizing node with
  | here copy =>
      rcases hrelated with hrelated | ⟨_, hdesignates, _⟩
      · rcases h node copy hrelated with heq | ⟨_, _, _, hdesignates, _⟩ | ⟨hnode, _, hlabel, _⟩
        · rw [heq]
          exact ⟨copy, .here copy, htarget, rfl⟩
        · exact absurd htarget hdesignates.target?_ne_none
        · exact ⟨node, .here node, hnode, hlabel⟩
      · exact absurd htarget hdesignates.target?_ne_none
  | @follow copy definition found path hfollow hrest ih =>
      rcases hrelated with hrelated | ⟨inner, hdesignates, hinner⟩
      · rcases h node copy hrelated with heq | ⟨_, inner, hnode, hdesignates, hinner⟩ | ⟨_, hnone, _⟩
        · rw [heq]
          exact ⟨found, .follow hfollow hrest, htarget, rfl⟩
        · rw [unfolding_of_designates hnode]
          exact ih htarget (.inl (hfollow.unique hdesignates ▸ hinner))
        · exact absurd hnone hfollow.target?_ne_none
      · exact ih htarget (.inl (hfollow.unique hdesignates ▸ hinner))
  | @step copy inner found step path hnone hchild hrest ih =>
      rcases hrelated with hrelated | ⟨_, hdesignates, _⟩
      · rcases h node copy hrelated with
          heq | ⟨_, _, _, hdesignates, _⟩ | ⟨hnode, _, _, hchildren⟩
        · rw [heq]
          exact ⟨found, .step hnone hchild hrest, htarget, rfl⟩
        · exact absurd hnone hdesignates.target?_ne_none
        · obtain ⟨other, hother, hbehind⟩ := exists_left_of_rel (hchildren step) hchild
          rw [unfolding_step hnode hother]
          exact ih htarget hbehind
      · exact absurd hnone hdesignates.target?_ne_none

/-- Related nodes of mirrored tables unfold to the same tree. -/
theorem unfolding_eq (h : Mirrors source copies R) {node copy : Json} (hrelated : R node copy) :
    unfolding source node = unfolding copies copy := by
  funext path shown
  apply propext
  constructor
  · rintro ⟨found, hmeets, htarget, rfl⟩
    exact h.forth hmeets htarget hrelated
  · rintro ⟨found, hmeets, htarget, rfl⟩
    exact h.back hmeets htarget (.inl hrelated)

end Mirrors

end RequestShapes.Schema
