import RequestShapes.Proofs.Schema.Orderly
import RequestShapes.Proofs.Schema.Origins

/-!
# Regular drafts

Drafts in which every reference is bare, resolves and stands as a property or
as the items of an array. Lifting such a draft succeeds, leaves no reference
behind that would have to be taken over, and keeps the tree that the draft
unfolds to.
-/

namespace RequestShapes.Schema

/-- A node built from leaves, arrays and objects, where properties and items
may also be bare references to definitions of the draft. Only leaves may hold
further references, of a given kind, inside of them. -/
inductive Regular (source : Table Json) (stray : String → Prop) : Json → Prop
  | leaf {node : Json} : node.isObject = true → target? node = none →
      (∀ target ∈ targets node, stray target) → node.has "properties" = false →
      isArray node = false → Regular source stray node
  | array {members : List (String × Json)} : (Table.names members).Nodup →
      Table.get? members "type" = some (.str "array") →
      Table.has members "properties" = false → target? (.obj members) = none →
      (∀ entry ∈ members, entry.1 ≠ "items" → targets entry.2 = []) →
      (∀ items, Table.get? members "items" = some items →
        ¬ Resolves source items → Regular source stray items) →
      Regular source stray (.obj members)
  | object {members properties : List (String × Json)} : (Table.names members).Nodup →
      Table.get? members "type" = some (.str "object") → target? (.obj members) = none →
      (∀ entry ∈ members, entry.1 ≠ "properties" → targets entry.2 = []) →
      Table.get? members "properties" = some (.obj properties) →
      (∀ entry ∈ properties, ¬ Resolves source entry.2 → Regular source stray entry.2) →
      Regular source stray (.obj members)

/-- A draft whose root and definitions are regular, with no reference inside of
a leaf, where no cycle of references runs through array definitions only. -/
structure RegularDraft (draft : Json) : Prop where
  root : Regular (definitionsOf draft) (fun _ => False) (rootOf draft)
  definition : ∀ name node, Table.get? (definitionsOf draft) name = some node →
    Regular (definitionsOf draft) (fun _ => False) node
  acyclic : Acyclic (definitionsOf draft) fun node => isArray node = true

namespace Regular

variable {source : Table Json} {stray : String → Prop} {node : Json}

theorem isObject (h : Regular source stray node) : node.isObject = true := by
  cases h with
  | leaf hobject => exact hobject
  | array | object => rfl

theorem isRecord_of_object {members properties : List (String × Json)}
    (htype : Table.get? members "type" = some (.str "object"))
    (hproperties : Table.get? members "properties" = some (.obj properties)) :
    isRecord (.obj members) = true := by
  simp [isRecord, Json.get?, Json.has, htype, hproperties]

theorem isArray_of_object {members : List (String × Json)}
    (htype : Table.get? members "type" = some (.str "object")) :
    isArray (.obj members) = false := by
  simp [isArray, Json.get?, htype]

theorem items (h : Regular source stray node) (harray : isArray node = true) :
    Regular source stray (itemsOf node) ∨ Resolves source (itemsOf node) := by
  cases h with
  | leaf _ _ _ _ hnot => rw [harray] at hnot; cases hnot
  | array _ _ _ _ _ hitems =>
      unfold itemsOf
      cases hfilled : Json.filled? (Json.get? (.obj _) "items") with
      | none =>
          have htargets : ∀ target ∈ targets Json.empty, stray target := by
            simp [Json.empty, targets, memberTargets, target?, Json.get?]
          exact .inl (.leaf rfl rfl htargets rfl rfl)
      | some items =>
          by_cases hresolves : Resolves source items
          · exact .inr hresolves
          · exact .inl (hitems items (Json.get?_of_filled? hfilled) hresolves)
  | object _ htype => rw [isArray_of_object htype] at harray; cases harray

theorem properties (h : Regular source stray node) {members : List (String × Json)}
    (hget : node.get? "properties" = some (.obj members)) :
    ∀ entry ∈ members, Regular source stray entry.2 ∨ Resolves source entry.2 := by
  cases h with
  | leaf _ _ _ hhas => simp [Json.has, hget] at hhas
  | array _ _ hhas =>
      rw [Table.has, show Table.get? _ _ = _ from hget] at hhas
      cases hhas
  | object _ htype _ hothers hproperties hinner =>
      obtain rfl := Json.obj.inj (Option.some.inj (hproperties.symm.trans hget))
      intro entry hmem
      by_cases hresolves : Resolves source entry.2
      · exact .inr hresolves
      · exact .inl (hinner entry hmem hresolves)

theorem idle (h : Regular source stray node) (harray : isArray node = false)
    (hidle : isRecord node = false ∨
      ∀ members, node.get? "properties" ≠ some (.obj members)) :
    ∀ target ∈ targets node, stray target := by
  cases h with
  | leaf _ _ hstray => exact hstray
  | array _ htype => simp [isArray, Json.get?, htype] at harray
  | object _ htype _ _ hproperties =>
      rcases hidle with hrecord | hnone
      · rw [isRecord_of_object htype hproperties] at hrecord
        cases hrecord
      · exact absurd hproperties (hnone _)

end Regular

theorem Regular.orderly {source : Table Json} {stray : String → Prop} {node : Json}
    (h : Regular source stray node) :
    Orderly node := by
  induction h with
  | @leaf node _ _ _ hhas harray =>
      refine .of_plain harray fun members hget => ?_
      simp [Json.has, hget] at hhas
  | @array members hnodup htype hhas hnone hothers hitems ih =>
      have hregular : Regular source stray (.obj members) := .array hnodup htype hhas hnone hothers hitems
      refine .intro (fun harray => ?_) (fun _ => ?_) fun inner hget => ?_
      · rcases hregular.items harray with hitems | ⟨_, _, heq⟩
        · exact hitems.isObject
        · rw [heq]
          rfl
      · unfold itemsOf
        cases hfilled : Json.filled? (Json.get? (.obj members) "items") with
        | none => exact .of_plain rfl fun _ hget => by simp [Json.empty, Json.get?] at hget
        | some items =>
            by_cases hresolves : Resolves source items
            · obtain ⟨name, _, rfl⟩ := hresolves
              exact .refTo name
            · exact ih items (Json.get?_of_filled? hfilled) hresolves
      · rw [Table.has, show Table.get? members "properties" = _ from hget] at hhas
        cases hhas
  | @object members _ hnodup htype hnone hothers hproperties hinner ih =>
      have harray := isArray_of_object htype
      refine .intro (by simp [harray]) (by simp [harray]) fun inner hget entry hentry => ?_
      obtain rfl := Json.obj.inj (Option.some.inj (hproperties.symm.trans hget))
      by_cases hresolves : Resolves source entry.2
      · obtain ⟨name, _, heq⟩ := hresolves
        rw [heq]
        exact .refTo name
      · exact ih entry hentry hresolves

/-- A member of a properties table that is no node refers to nothing. -/
theorem target?_eq_none_of_members {source : Table Json} {stray : String → Prop}
    {members : List (String × Json)}
    (h : ∀ entry ∈ members, Regular source stray entry.2 ∨ Resolves source entry.2) :
    target? (.obj members) = none := by
  cases htarget : target? (.obj members) with
  | none => rfl
  | some name =>
      have hmem := Table.mem_of_get? (target?_eq_some htarget)
      rcases h _ hmem with hregular | ⟨_, _, heq⟩
      · exact absurd hregular.isObject (by simp [Json.isObject])
      · simp [refTo] at heq

theorem targets_set_null {members : List (String × Json)} {name : String} (hname : "$ref" ≠ name)
    (hnodup : (Table.names members).Nodup) (hnone : target? (.obj members) = none)
    (hothers : ∀ entry ∈ members, entry.1 ≠ name → targets entry.2 = []) :
    targets ((Json.obj members).set name .null) = [] := by
  rw [List.eq_nil_iff_forall_not_mem]
  intro target hmem
  rw [Json.set, targets, List.mem_append] at hmem
  rcases hmem with htarget | htargets
  · rw [target?, Json.get?, Table.get?_set_of_ne _ _ hname] at htarget
    rw [target?, Json.get?] at hnone
    rw [hnone] at htarget
    cases htarget
  · obtain ⟨entry, hentry, htargets⟩ := mem_memberTargets.mp htargets
    rcases Table.mem_set_of_nodup hnodup hentry with rfl | ⟨hentry, hne⟩
    · simp [targets] at htargets
    · rw [hothers entry hentry hne] at htargets
      cases htargets

/-- Beside the properties, or the items, of a regular node stand at most the
references of a leaf. -/
theorem Regular.beside {source : Table Json} {stray : String → Prop} {node : Json}
    (h : Regular source stray node) :
    Beside stray node (if isArray node then "items" else "properties") := by
  cases h with
  | leaf _ _ hstray => exact beside_of_targets hstray (by split <;> decide)
  | array hnodup htype _ hnone hothers =>
      intro target hmem
      rw [if_pos (show isArray (.obj _) = true from decide_eq_true htype),
        targets_set_null (by decide) hnodup hnone hothers] at hmem
      cases hmem
  | object hnodup htype hnone hothers =>
      intro target hmem
      rw [isArray_of_object htype, if_neg (by decide),
        targets_set_null (by decide) hnodup hnone hothers] at hmem
      cases hmem

/-- Lifting a regular draft stays among regular nodes. -/
theorem walkable_regular {source : Table Json} {stray : String → Prop}
    (hdefinition : ∀ name node, Table.get? source name = some node → Regular source stray node) :
    Walkable source stray (Regular source stray) (Resolves source) where
  bare := fun _ hbare => hbare
  definition := fun _ name definition _ _ hget => hdefinition name definition hget
  properties := fun node members hnode hget => by
    refine ⟨fun name htarget => ?_, hnode.properties hget⟩
    rw [target?_eq_none_of_members (hnode.properties hget)] at htarget
    cases htarget
  items := fun node hnode harray => hnode.items harray
  idle := fun _ hnode => hnode.idle
  beside := fun _ hnode => hnode.beside

/-! ## The tree of a regular draft -/

/-- Where everything that is referred to is there nothing is taken over. -/
theorem adopt_of_closed {scope : Scope} {root : Json} {definitions : Table Json}
    (hroot : Accounted definitions (fun _ => False) (targets root))
    (hdefinitions : ∀ entry ∈ definitions,
      Accounted definitions (fun _ => False) (targets entry.2)) (fuel : Nat) :
    adopt scope fuel root definitions = .ok (root, definitions) := by
  have hmissing : missing? scope.pending root definitions = none := by
    rw [missing?, List.findSome?_eq_none_iff]
    intro target hmem
    have hname : target ∈ Table.names definitions := by
      simp only [List.mem_flatMap, List.mem_cons, List.mem_map] at hmem
      obtain ⟨node, rfl | ⟨entry, hentry, rfl⟩, htarget⟩ := hmem
      · exact (hroot target htarget).resolve_right id
      · exact (hdefinitions entry hentry target htarget).resolve_right id
    rw [if_pos ((Table.has_iff_mem_names _ _).mpr hname)]
  cases fuel with
  | zero => simp [adopt, hmissing]
  | succ fuel => simp [adopt, hmissing]

/-- Lifting a regular draft gives a result, and the result unfolds to the tree
that the draft unfolds to. -/
theorem lift_regular {draft : Json} (h : RegularDraft draft) (rootName : String)
    (reserved : List String) :
    ∃ result, lift draft rootName reserved = .ok result ∧ treeOf result = treeOf draft := by
  have hobject : draft.isObject = true := by
    rw [← isObject_rootOf]
    exact h.root.isObject
  have htable : OrderlyTable (definitionsOf draft) := fun name node hget =>
    ⟨(h.definition name node hget).isObject, (h.definition name node hget).orderly⟩
  obtain ⟨⟨root, definitions⟩, hlift⟩ :=
    liftRoot_ok htable h.acyclic h.root.orderly rootName (rootName :: reserved)
  have hwalk := walkable_regular h.definition
  obtain ⟨hroot, hclosed⟩ := liftRoot_closed hwalk (.initial _ _) rfl hlift h.root
  obtain ⟨origins, hrecorded, hcopies⟩ := liftRoot_recorded hwalk hlift h.root (.initial _ _ _)
  have hentries : ∀ entry ∈ definitions, Accounted definitions (fun _ => False) (targets entry.2) :=
    fun entry hentry => hclosed entry.1 entry.2 (by simp [Table.names])
      (Table.get?_of_mem (nodup_names_of_liftRoot hlift) hentry)
  have hadopt (scope : Scope) := @adopt_of_closed scope root definitions hroot hentries
    (adoptionBound draft)
  refine ⟨root.set "definitions" (.obj definitions), ?_, ?_⟩
  · rw [rootOf] at hlift
    simp only [lift, hobject, hlift, hadopt, if_true, bind, Except.bind]
  · have hnone : root.get? "definitions" = none := by
      rw [get?_liftRoot hlift (by decide) (by decide), get?_definitions_rootOf]
    have hrootObject : root.isObject = true := by
      rw [← label_eq_obj_iff, ← hcopies.label, label_eq_obj_iff]
      exact h.root.isObject
    obtain ⟨hpart, hdefinitions⟩ := parts_of_set hrootObject hnone definitions
    have hgoes : GoesOn (definitionsOf draft) definitions fun _ _ => True :=
      ⟨fun _ _ _ _ _ _ _ => trivial, fun _ _ _ _ _ => trivial,
        fun _ _ _ _ _ _ _ _ _ _ => trivial⟩
    have hmirrors := mirrors_of_copies
      (fun name origin hget => (hrecorded.copies name origin (by simp [Table.names]) hget).2) hgoes
      (fun _ _ _ _ _ _ hkept => hkept.elim)
    rw [treeOf, treeOf, hpart, hdefinitions]
    exact (hmirrors.unfolding_eq ⟨trivial, .inl hcopies⟩).symm

/-- An element of a list, which holds words and points to a further element. -/
def linkedElement : Json :=
  .obj [("type", .str "object"), ("properties", .obj [("next", refTo "Element"),
    ("words", .obj [("type", .str "array"), ("items", ofType (.str "string"))])])]

/-- A list given by its first element. -/
def linkedList : Json :=
  .obj [("type", .str "object"), ("properties", .obj [("first", refTo "Element")]),
    ("definitions", .obj [("Element", linkedElement)])]

theorem resolves_element : Resolves (definitionsOf linkedList) (refTo "Element") :=
  ⟨"Element", by decide, rfl⟩

theorem linkedElement_regular :
    Regular (definitionsOf linkedList) (fun _ => False) linkedElement := by
  have hword : Regular (definitionsOf linkedList) (fun _ => False) (ofType (.str "string")) :=
    .leaf rfl rfl (by simp [targets, ofType, memberTargets, target?, Json.get?, Table.get?]) rfl rfl
  have hwords : Regular (definitionsOf linkedList) (fun _ => False)
      (.obj [("type", .str "array"), ("items", ofType (.str "string"))]) := by
    refine .array (by decide) rfl rfl rfl ?_ fun items hitems _ => ?_
    · simp [targets]
    · cases hitems
      exact hword
  unfold linkedElement
  refine .object (by decide) rfl rfl ?_ rfl fun property hproperty hnot => ?_
  · simp [targets]
  · simp only [List.mem_cons, List.not_mem_nil, or_false] at hproperty
    rcases hproperty with rfl | rfl
    · exact absurd resolves_element hnot
    · exact hwords

theorem linkedList_regular : RegularDraft linkedList where
  root := by
    have hroot : rootOf linkedList =
        .obj [("type", .str "object"), ("properties", .obj [("first", refTo "Element")])] := rfl
    rw [hroot]
    refine .object (by decide) rfl rfl ?_ rfl fun property hproperty hnot => ?_
    · simp [targets]
    · obtain rfl := List.mem_singleton.mp hproperty
      exact absurd resolves_element hnot
  definition := fun name node hget => by
    have hmem : (name, node) ∈ [("Element", linkedElement)] := Table.mem_of_get? hget
    cases List.mem_singleton.mp hmem
    exact linkedElement_regular
  acyclic := fun name hcycle => by
    obtain ⟨_, ⟨node, hget, harray, _⟩, _⟩ := Relation.TransGen.head'_iff.mp hcycle
    have hmem : (name, node) ∈ [("Element", linkedElement)] := Table.mem_of_get? hget
    cases List.mem_singleton.mp hmem
    exact absurd harray (by decide)

theorem lift_linkedList :
    ∃ result, lift linkedList "Words" ["WordsFirst"] = .ok result ∧
      treeOf result = treeOf linkedList :=
  lift_regular linkedList_regular "Words" ["WordsFirst"]

end RequestShapes.Schema
