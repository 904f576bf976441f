import RequestShapes.Proofs.Schema.Unfolding
import RequestShapes.Schema.Draft

/-!
# What a schema accepts

A schema says what it accepts by the tree it unfolds to, so references count as
the definitions they designate. Only the members that inferred schemas have are
given a meaning; an empty schema accepts everything.
-/

namespace RequestShapes.Schema

/-- What a schema shows on each path. -/
abbrev Tree := List Step → Label → Prop

/-- The part of a tree below a path. -/
def Tree.below (tree : Tree) (path : List Step) : Tree := fun rest => tree (path ++ rest)

/-- Something stands on a path. -/
def Tree.Has (tree : Tree) (path : List Step) : Prop := ∃ shown, tree path shown

/-- The types that a value has. Integers are numbers too, and so are doubles, of
which the whole ones count as integers. -/
inductive HasType : Json → String → Prop
  | null : HasType .null "null"
  | bool (value : Bool) : HasType (.bool value) "boolean"
  | int (value : Int) : HasType (.int value) "integer"
  | whole {value : Binary64} {count : Int} :
      value.quantity? = some (.ofInt count) → HasType (.float value) "integer"
  | number (value : Int) : HasType (.int value) "number"
  | float (value : Binary64) : HasType (.float value) "number"
  | str (text : String) : HasType (.str text) "string"
  | arr (items : List Json) : HasType (.arr items) "array"
  | obj (members : List (String × Json)) : HasType (.obj members) "object"

theorem HasType.eq_object {members : List (String × Json)} {type : String}
    (h : HasType (.obj members) type) : type = "object" := by
  cases h
  rfl

/-- What a schema demands of a value itself: its type or one of several types,
the format of a text, the names that an object has to have, and no other ones if
it is closed. -/
structure Demands (tree : Tree) (value : Json) : Prop where
  object : tree [] .obj
  type : ∀ type, tree [.member "type"] (.str type) → HasType value type
  types : tree [.member "type"] .arr →
    ∃ index type, tree [.member "type", .item index] (.str type) ∧ HasType value type
  format : ∀ format text, tree [.member "format"] (.str format) → value = .str text →
    (Format.detect? text).map Format.name = some format
  required : ∀ index name members, tree [.member "required", .item index] (.str name) →
    value = .obj members → name ∈ Table.names members
  closed : ∀ members name, tree [.member "additionalProperties"] (.bool false) →
    value = .obj members → name ∈ Table.names members →
    tree.Has [.member "properties", .member name]

/-- A schema accepts a value: the value meets the demands, properties and items
meet those of the schemas below, and if there are alternatives one of them
accepts the value. -/
inductive Accepts : Tree → Json → Prop
  | intro {tree : Tree} {value : Json} (index : Nat) :
      Demands tree value →
      (∀ members name inner, value = .obj members → Table.get? members name = some inner →
        tree.Has [.member "properties", .member name] →
        Accepts (tree.below [.member "properties", .member name]) inner) →
      (∀ items inner, value = .arr items → inner ∈ items → tree.Has [.member "items"] →
        Accepts (tree.below [.member "items"]) inner) →
      (tree.Has [.member "anyOf"] → tree.Has [.member "anyOf", .item index]) →
      (tree.Has [.member "anyOf"] →
        Accepts (tree.below [.member "anyOf", .item index]) value) →
      Accepts tree value

/-- A schema with its own definitions accepts a value. -/
def Validates (schema value : Json) : Prop := Accepts (treeOf schema) value

theorem Accepts.demands {tree : Tree} {value : Json} (h : Accepts tree value) :
    Demands tree value := by
  cases h with
  | intro _ hdemands => exact hdemands

/-- The members of a schema that say what it accepts. -/
def keywords : List String :=
  ["type", "format", "required", "additionalProperties", "properties", "items", "anyOf"]

/-- Nothing else in a schema counts. -/
theorem Accepts.congr {first second : Tree} {value : Json} (hroot : second [] .obj)
    (hsame : ∀ name ∈ keywords, ∀ rest,
      first (.member name :: rest) = second (.member name :: rest))
    (h : Accepts first value) : Accepts second value := by
  have hbelow (name : String) (hname : name ∈ keywords) (path : List Step) :
      first.below (.member name :: path) = second.below (.member name :: path) := by
    funext rest
    exact hsame name hname (path ++ rest)
  have hhas (name : String) (hname : name ∈ keywords) (path : List Step) :
      first.Has (.member name :: path) ↔ second.Has (.member name :: path) := by
    unfold Tree.Has
    rw [hsame name hname path]
  cases h with
  | intro index hdemands hproperties hitems hthere halternative =>
      refine .intro index ⟨hroot, ?_, ?_, ?_, ?_, ?_⟩ ?_ ?_ ?_ ?_
      · rw [← hsame "type" (by decide)]
        exact hdemands.type
      · simp only [← hsame "type" (by decide)]
        exact hdemands.types
      · simp only [← hsame "format" (by decide)]
        exact hdemands.format
      · simp only [← hsame "required" (by decide)]
        exact hdemands.required
      · simp only [← hsame "additionalProperties" (by decide),
          ← hhas "properties" (by decide)]
        exact hdemands.closed
      · simp only [← hbelow "properties" (by decide), ← hhas "properties" (by decide)]
        exact hproperties
      · simp only [← hbelow "items" (by decide), ← hhas "items" (by decide)]
        exact hitems
      · simp only [← hhas "anyOf" (by decide)]
        exact hthere
      · simp only [← hbelow "anyOf" (by decide), ← hhas "anyOf" (by decide)]
        exact halternative

/-! ## Trees of plain nodes -/

section Nodes

variable {definitions : Table Json} {node : Json}

theorem unfolding_cons (hnone : target? node = none) (step : Step) (path : List Step)
    (shown : Label) : unfolding definitions node (step :: path) shown ↔
      ∃ inner, child? node step = some inner ∧ unfolding definitions inner path shown := by
  constructor
  · rintro ⟨found, hmeets, htarget, hlabel⟩
    cases hmeets with
    | follow hdesignates _ => exact absurd hnone hdesignates.target?_ne_none
    | step _ hchild hrest => exact ⟨_, hchild, found, hrest, htarget, hlabel⟩
  · rintro ⟨inner, hchild, hinner⟩
    exact (unfolding_step hnone hchild path shown).mpr hinner

@[simp] theorem target?_str (text : String) : target? (.str text) = none := rfl

@[simp] theorem target?_bool (value : Bool) : target? (.bool value) = none := rfl

@[simp] theorem target?_arr (items : List Json) : target? (.arr items) = none := rfl

theorem Meets.below_eq {found : Json} {path : List Step}
    (h : Meets definitions node path found) :
    Tree.below (unfolding definitions node) path = unfolding definitions found := by
  funext rest shown
  exact propext (h.unfolding_iff rest shown).symm

theorem unfolding_member {members : List (String × Json)} (hnone : target? (.obj members) = none)
    {name : String} (hname : name ≠ "items") (path : List Step) (shown : Label) :
    unfolding definitions (.obj members) (.member name :: path) shown ↔
      ∃ inner, Table.get? members name = some inner ∧ unfolding definitions inner path shown := by
  rw [unfolding_cons hnone, child?]
  simp [hname, Json.get?]

@[simp] theorem unfolding_str_nil (text : String) (shown : Label) :
    unfolding definitions (.str text) [] shown ↔ .str text = shown :=
  unfolding_nil rfl shown

@[simp] theorem unfolding_bool_nil (value : Bool) (shown : Label) :
    unfolding definitions (.bool value) [] shown ↔ .bool value = shown :=
  unfolding_nil rfl shown

@[simp] theorem unfolding_arr_nil (items : List Json) (shown : Label) :
    unfolding definitions (.arr items) [] shown ↔ .arr = shown :=
  unfolding_nil rfl shown

@[simp] theorem unfolding_item (items : List Json) (index : Nat) (path : List Step)
    (shown : Label) : unfolding definitions (.arr items) (.item index :: path) shown ↔
      ∃ inner, items[index]? = some inner ∧ unfolding definitions inner path shown :=
  unfolding_cons rfl _ path shown

theorem not_has_member {members : List (String × Json)} (hnone : target? (.obj members) = none)
    {name : String} (hname : name ≠ "items") (habsent : Table.get? members name = none)
    (path : List Step) : ¬ Tree.Has (unfolding definitions (.obj members)) (.member name :: path) := by
  rintro ⟨shown, hshown⟩
  obtain ⟨inner, hget, _⟩ := (unfolding_member hnone hname path shown).mp hshown
  rw [habsent] at hget
  cases hget

end Nodes

/-! ## The schemas of drafts -/

section Forms

variable {definitions : Table Json} {value : Json}

/-- A reference accepts what its definition accepts. -/
theorem accepts_of_designates {node definition : Json} (h : Designates definitions node definition)
    (haccepts : Accepts (unfolding definitions definition) value) :
    Accepts (unfolding definitions node) value := by
  rwa [unfolding_of_designates h]

/-- A schema that says at most which types and format a value has. -/
theorem accepts_leaf {members : List (String × Json)}
    (hplain : ∀ name ∈ ["$ref", "required", "additionalProperties", "properties", "items", "anyOf"],
      Table.get? members name = none) (harray : isArray (.obj members) = false)
    (htype : ∀ inner, Table.get? members "type" = some inner →
      (∃ type, inner = .str type ∧ HasType value type) ∨
        ∃ types type, inner = .arr types ∧ Json.str type ∈ types ∧ HasType value type)
    (hformat : ∀ inner text, Table.get? members "format" = some inner → value = .str text →
      ∃ format, inner = .str (Format.name format) ∧ Format.detect? text = some format) :
    Accepts (unfolding definitions (.obj members)) value := by
  have hnone : target? (.obj members) = none := by
    rw [target?, Json.get?, hplain "$ref" (by decide)]
  have habsent (name : String) (hmem : name ∈ ["$ref", "required", "additionalProperties",
      "properties", "items", "anyOf"]) (hname : name ≠ "items") (path : List Step) :=
    @not_has_member definitions members hnone name hname (hplain name hmem) path
  refine .intro 0 ⟨(unfolding_nil hnone _).mpr rfl, fun type htree => ?_, fun htree => ?_,
    fun format text htree heq => ?_, fun index name inner htree => ?_,
    fun inner name htree => ?_⟩ (fun _ _ _ _ _ hhas => ?_) (fun _ _ _ _ hhas => ?_)
    (fun hhas => ?_) (fun hhas => ?_)
  · obtain ⟨inner, hget, hinner⟩ := (unfolding_member hnone (by decide) _ _).mp htree
    rcases htype inner hget with ⟨_, rfl, hhas⟩ | ⟨_, _, rfl, _⟩
    · cases (unfolding_str_nil _ _).mp hinner
      exact hhas
    · cases (unfolding_arr_nil _ _).mp hinner
  · obtain ⟨inner, hget, hinner⟩ := (unfolding_member hnone (by decide) _ _).mp htree
    rcases htype inner hget with ⟨_, rfl, _⟩ | ⟨types, type, rfl, hmem, hhas⟩
    · cases (unfolding_str_nil _ _).mp hinner
    · obtain ⟨index, hindex⟩ := List.mem_iff_getElem?.mp hmem
      refine ⟨index, type, (unfolding_member hnone (by decide) _ _).mpr ⟨_, hget, ?_⟩, hhas⟩
      exact (unfolding_item _ _ _ _).mpr ⟨_, hindex, (unfolding_str_nil _ _).mpr rfl⟩
  · obtain ⟨inner, hget, hinner⟩ := (unfolding_member hnone (by decide) _ _).mp htree
    obtain ⟨found, rfl, hdetect⟩ := hformat inner text hget heq
    cases (unfolding_str_nil _ _).mp hinner
    rw [hdetect, Option.map_some]
  · exact absurd ⟨_, htree⟩ (habsent "required" (by decide) (by decide) _)
  · exact absurd ⟨_, htree⟩ (habsent "additionalProperties" (by decide) (by decide) _)
  · exact absurd hhas (habsent "properties" (by decide) (by decide) _)
  · obtain ⟨shown, hshown⟩ := hhas
    obtain ⟨inner, hchild, _⟩ := (unfolding_cons hnone _ _ _).mp hshown
    rw [child?, harray, Bool.false_and, if_neg (by simp), Json.get?, hplain "items" (by decide)]
      at hchild
    cases hchild
  · exact absurd hhas (habsent "anyOf" (by decide) (by decide) _)
  · exact absurd hhas (habsent "anyOf" (by decide) (by decide) _)

theorem itemsOf_ofArray {schema : Json} (hobject : schema.isObject = true) :
    itemsOf (ofArray schema) = schema := by
  cases schema with
  | obj members => cases members <;> rfl
  | _ => simp [Json.isObject] at hobject

/-- An array is accepted if its items are. -/
theorem accepts_ofArray {schema : Json} (hobject : schema.isObject = true) {items : List Json}
    (h : ∀ item ∈ items, Accepts (unfolding definitions schema) item) :
    Accepts (unfolding definitions (ofArray schema)) (.arr items) := by
  have hnone : target? (ofArray schema) = none := rfl
  have habsent (name : String) (hname : name ≠ "items")
      (hget : Table.get? [("type", Json.str "array"), ("items", schema)] name = none)
      (path : List Step) := @not_has_member definitions _ hnone name hname hget path
  have hchild : child? (ofArray schema) (.member "items") = some schema := by
    have hitems : child? (ofArray schema) (.member "items") = some (itemsOf (ofArray schema)) := rfl
    rw [hitems, itemsOf_ofArray hobject]
  refine .intro 0 ⟨(unfolding_nil hnone _).mpr rfl, fun type htree => ?_, fun htree => ?_,
    fun format text _ heq => (nomatch heq), fun index name inner _ heq => (nomatch heq),
    fun inner name _ heq => (nomatch heq)⟩ (fun _ _ _ heq => nomatch heq)
    (fun found inner heq hmem _ => ?_) (fun hhas => ?_) (fun hhas => ?_)
  · obtain ⟨inner, hget, hinner⟩ := (unfolding_member hnone (by decide) _ _).mp htree
    cases hget
    cases (unfolding_str_nil _ _).mp hinner
    exact .arr items
  · obtain ⟨inner, hget, hinner⟩ := (unfolding_member hnone (by decide) _ _).mp htree
    cases hget
    cases (unfolding_str_nil _ _).mp hinner
  · cases heq
    rw [(Meets.step hnone hchild (.here schema)).below_eq]
    exact h inner hmem
  · exact absurd hhas (habsent "anyOf" (by decide) rfl _)
  · exact absurd hhas (habsent "anyOf" (by decide) rfl _)

/-- An object is accepted if the names that are required are there and its
members are accepted under their names. -/
theorem accepts_closedObject {properties : List (String × Json)} {required : List String}
    {title : String} {members : List (String × Json)}
    (hrequired : ∀ name ∈ required, name ∈ Table.names members)
    (h : ∀ name inner, Table.get? members name = some inner → ∃ schema,
      Table.get? properties name = some schema ∧ Accepts (unfolding definitions schema) inner)
    (hnone : target? (.obj properties) = none) (harray : isArray (.obj properties) = false) :
    Accepts (unfolding definitions (closedObject properties (.arr (required.map .str)) title))
      (.obj members) := by
  have hclosed : target? (closedObject properties (.arr (required.map .str)) title) = none := rfl
  have hchild : child? (closedObject properties (.arr (required.map .str)) title)
      (.member "properties") = some (.obj properties) := rfl
  have hbelow (name : String) : child? (.obj properties) (.member name) =
      Table.get? properties name := by
    rw [child?, harray]
    simp [Json.get?]
  have hhas {name : String} {inner : Json} (hget : Table.get? members name = some inner) :
      Tree.Has (unfolding definitions (closedObject properties (.arr (required.map .str)) title))
        [.member "properties", .member name] := by
    obtain ⟨schema, hschema, haccepts⟩ := h name inner hget
    refine ⟨.obj, (unfolding_member hclosed (by decide) _ _).mpr ⟨_, rfl, ?_⟩⟩
    exact (unfolding_cons hnone _ _ _).mpr
      ⟨schema, (hbelow name).trans hschema, haccepts.demands.object⟩
  refine .intro 0 ⟨(unfolding_nil hclosed _).mpr rfl, fun type htree => ?_, fun htree => ?_,
    fun format text _ heq => (by cases heq), fun index name inner htree heq => ?_,
    fun inner name _ heq hmem => ?_⟩ (fun inner name found heq hget _ => ?_)
    (fun _ _ heq => by cases heq) (fun hany => ?_) (fun hany => ?_)
  · obtain ⟨inner, hget, hinner⟩ := (unfolding_member hclosed (by decide) _ _).mp htree
    cases hget
    cases (unfolding_str_nil _ _).mp hinner
    exact .obj members
  · obtain ⟨inner, hget, hinner⟩ := (unfolding_member hclosed (by decide) _ _).mp htree
    cases hget
    cases (unfolding_str_nil _ _).mp hinner
  · cases heq
    obtain ⟨_, hget, hinner⟩ := (unfolding_member hclosed (by decide) _ _).mp htree
    cases hget
    obtain ⟨_, hindex, hname⟩ := (unfolding_item _ _ _ _).mp hinner
    obtain ⟨found, hfound, rfl⟩ := List.mem_map.mp (List.mem_of_getElem? hindex)
    cases (unfolding_str_nil _ _).mp hname
    exact hrequired name hfound
  · cases heq
    obtain ⟨found, hget⟩ := Table.exists_get?_of_mem_names hmem
    exact hhas hget
  · cases heq
    obtain ⟨schema, hschema, haccepts⟩ := h name found hget
    have hmeets : Meets definitions (.obj properties) [.member name] schema :=
      .step hnone ((hbelow name).trans hschema) (.here schema)
    rw [(Meets.step hclosed hchild hmeets).below_eq]
    exact haccepts
  · exact absurd hany (not_has_member hclosed (by decide) rfl _)
  · exact absurd hany (not_has_member hclosed (by decide) rfl _)

/-- Alternatives accept what one of them accepts. -/
theorem accepts_anyOf {alternatives : List Json} {schema : Json} (hmem : schema ∈ alternatives)
    (h : Accepts (unfolding definitions schema) value) :
    Accepts (unfolding definitions (anyOf alternatives)) value := by
  have hnone : target? (anyOf alternatives) = none := rfl
  have habsent (name : String) (hname : name ≠ "items")
      (hget : Table.get? [("anyOf", Json.arr alternatives)] name = none) (path : List Step) :=
    @not_has_member definitions _ hnone name hname hget path
  have hchild : child? (anyOf alternatives) (.member "anyOf") = some (.arr alternatives) := rfl
  obtain ⟨index, hindex⟩ := List.mem_iff_getElem?.mp hmem
  have hitem : child? (.arr alternatives) (.item index) = some schema := hindex
  refine .intro index ⟨(unfolding_nil hnone _).mpr rfl, fun type htree => ?_, fun htree => ?_,
    fun format text htree _ => ?_, fun _ _ _ htree => ?_, fun _ _ htree => ?_⟩
    (fun _ _ _ _ _ hhas => ?_) (fun _ _ _ _ hhas => ?_) (fun _ => ?_) (fun _ => ?_)
  · exact absurd ⟨_, htree⟩ (habsent "type" (by decide) rfl _)
  · exact absurd ⟨_, htree⟩ (habsent "type" (by decide) rfl _)
  · exact absurd ⟨_, htree⟩ (habsent "format" (by decide) rfl _)
  · exact absurd ⟨_, htree⟩ (habsent "required" (by decide) rfl _)
  · exact absurd ⟨_, htree⟩ (habsent "additionalProperties" (by decide) rfl _)
  · exact absurd hhas (habsent "properties" (by decide) rfl _)
  · obtain ⟨shown, hshown⟩ := hhas
    obtain ⟨inner, hchild, _⟩ := (unfolding_cons hnone _ _ _).mp hshown
    cases hchild
  · refine ⟨.obj, (unfolding_member hnone (by decide) _ _).mpr ⟨_, rfl, ?_⟩⟩
    exact (unfolding_item _ _ _ _).mpr ⟨schema, hindex, h.demands.object⟩
  · have hmeets : Meets definitions (.arr alternatives) [.item index] schema :=
      .step rfl hitem (.here schema)
    rw [(Meets.step hnone hchild hmeets).below_eq]
    exact h

end Forms

/-! ## What follows from acceptance -/

section Inversion

variable {definitions : Table Json} {node found value : Json}

theorem Meets.has {path : List Step} (h : Meets definitions node path found)
    (hnone : target? found = none) : Tree.Has (unfolding definitions node) path :=
  ⟨label found, found, h, hnone, rfl⟩

/-- The members of an accepted object are accepted as properties. -/
theorem Accepts.property {members : List (String × Json)} {name : String} {inner : Json}
    (h : Accepts (unfolding definitions node) (.obj members))
    (hmeets : Meets definitions node [.member "properties", .member name] found)
    (hnone : target? found = none) (hget : Table.get? members name = some inner) :
    Accepts (unfolding definitions found) inner := by
  cases h with
  | intro _ _ hproperties =>
      rw [← hmeets.below_eq]
      exact hproperties members name inner rfl hget (hmeets.has hnone)

theorem Accepts.item {items : List Json} {inner : Json}
    (h : Accepts (unfolding definitions node) (.arr items))
    (hmeets : Meets definitions node [.member "items"] found) (hnone : target? found = none)
    (hmem : inner ∈ items) : Accepts (unfolding definitions found) inner := by
  cases h with
  | intro _ _ _ hitems =>
      rw [← hmeets.below_eq]
      exact hitems items inner rfl hmem (hmeets.has hnone)

/-- One of the alternatives accepts an accepted value. -/
theorem Accepts.alternative {alternatives : List Json}
    (h : Accepts (unfolding definitions node) value)
    (hmeets : Meets definitions node [.member "anyOf"] (.arr alternatives)) :
    ∃ schema ∈ alternatives, Accepts (unfolding definitions schema) value := by
  cases h with
  | intro index _ _ _ hthere halternative =>
      have hhas := hmeets.has rfl
      obtain ⟨shown, hshown⟩ := hthere hhas
      obtain ⟨schema, hindex, _⟩ := (unfolding_item alternatives index [] shown).mp
        ((hmeets.unfolding_iff [.item index] shown).mpr hshown)
      refine ⟨schema, List.mem_of_getElem? hindex, ?_⟩
      have hchild : child? (.arr alternatives) (.item index) = some schema := hindex
      rw [← (hmeets.child rfl hchild).below_eq]
      exact halternative hhas

end Inversion

end RequestShapes.Schema
