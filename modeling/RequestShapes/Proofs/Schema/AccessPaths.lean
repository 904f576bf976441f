import RequestShapes.Proofs.Schema.Evaluation
import RequestShapes.Proofs.Schema.Layers
import RequestShapes.Proofs.Schema.Regular

/-!
# Definitions by access paths

What an inline schema asks for on every way into it: a definition for each
object, array and array item, named by the way. Lifting gives exactly these
definitions to any node that stands for the schema, if no two ways ask for one
name and all names are free, no matter which shapes the node takes from where.
-/

namespace RequestShapes.Schema

/-! ## Nodes that say the same -/

/-- The members that a draft has beside those of an inline schema. -/
def addedMembers : List String := ["$schema", "title", "additionalProperties"]

/-- Two nodes have the same members, apart from one and from those that drafts
add. -/
def SameBeside (member : String) (first second : Json) : Prop :=
  ∀ key, key ∉ addedMembers → key ≠ member → first.get? key = second.get? key

/-- Two nodes have the same members and the same properties in whatever order,
apart from the members that drafts add. -/
structure SameNode (first second : Json) : Prop where
  beside : SameBeside "properties" first second
  properties : Option.Rel (fun these those : Json => ∀ key, these.get? key = those.get? key)
    (first.get? "properties") (second.get? "properties")

theorem SameBeside.refl (member : String) (node : Json) : SameBeside member node node :=
  fun _ _ _ => rfl

theorem SameBeside.symm {member : String} {first second : Json}
    (h : SameBeside member first second) : SameBeside member second first :=
  fun key hadded hne => (h key hadded hne).symm

theorem SameBeside.trans {member : String} {first second third : Json}
    (h : SameBeside member first second) (hother : SameBeside member second third) :
    SameBeside member first third :=
  fun key hadded hne => (h key hadded hne).trans (hother key hadded hne)

namespace SameNode

variable {first second third : Json}

theorem refl (node : Json) : SameNode node node := by
  refine ⟨.refl _ _, ?_⟩
  cases node.get? "properties" with
  | none => exact .none
  | some properties => exact .some fun _ => rfl

theorem symm (h : SameNode first second) : SameNode second first := by
  refine ⟨h.beside.symm, ?_⟩
  have hproperties := h.properties
  revert hproperties
  generalize first.get? "properties" = these
  generalize second.get? "properties" = those
  intro hproperties
  cases hproperties with
  | none => exact .none
  | some hsame => exact .some fun key => (hsame key).symm

theorem trans (h : SameNode first second) (hother : SameNode second third) :
    SameNode first third := by
  refine ⟨h.beside.trans hother.beside, ?_⟩
  have hfirst := h.properties
  have hsecond := hother.properties
  revert hfirst hsecond
  generalize first.get? "properties" = these
  generalize second.get? "properties" = those
  generalize third.get? "properties" = others
  intro hfirst hsecond
  cases hfirst with
  | none => exact hsecond
  | some hsame =>
      cases hsecond with
      | some hlater => exact .some fun key => (hsame key).trans (hlater key)

end SameNode

/-! ## What a schema asks for -/

/-- Whether a schema gets a definition wherever it stands. -/
def nests (schema : Json) : Bool := isArray schema || isRecord schema

/-- What is left of a schema where it stood. -/
def placed (path : String) (schema : Json) : Json :=
  if nests schema then refTo path else schema

/-- Properties with nothing but references in place of nested schemas. -/
def placedMembers (path : String) (members : List (String × Json)) : List (String × Json) :=
  members.map fun entry => (entry.1, placed (path ++ Identifier.pascalCase entry.1) entry.2)

/-- The definition of a schema that stands at a path. -/
def shallow (path : String) (schema : Json) : Json :=
  if isArray schema then (schema.erase "items").set "items" (refTo (path ++ "Item"))
  else match schema.get? "properties" with
    | some (.obj members) => schema.set "properties" (.obj (placedMembers path members))
    | _ => schema

mutual

/-- The definitions that a schema at a path asks for on all ways into it: the
items of an array always get one, a property does if schemas nest in it. -/
def pathDefinitions (path : String) (schema : Json) : Table Json :=
  if _h : isArray schema then
    (path ++ "Item", shallow (path ++ "Item") (itemsOf schema)) ::
      pathDefinitions (path ++ "Item") (itemsOf schema)
  else match _h : schema.get? "properties" with
    | some (.obj members) => memberDefinitions path members
    | _ => []
termination_by sizeOf schema
decreasing_by
  · exact sizeOf_itemsOf_lt _h
  · exact sizeOf_properties_lt _h

/-- The definitions that properties ask for. -/
def memberDefinitions (path : String) (members : List (String × Json)) : Table Json :=
  match members with
  | [] => []
  | (key, value) :: rest =>
      let inner := path ++ Identifier.pascalCase key
      (if nests value then (inner, shallow inner value) :: pathDefinitions inner value else []) ++
        memberDefinitions path rest
termination_by sizeOf members

end

/-- The names that the ways into a schema ask for. -/
def pathNames (path : String) (schema : Json) : List String :=
  Table.names (pathDefinitions path schema)

/-- There are no alternatives in a schema, at whatever depth. -/
inductive Unmixed : Json → Prop
  | intro {schema : Json} : schema.get? "anyOf" = none →
      (∀ members, schema.get? "properties" = some (.obj members) →
        ∀ entry ∈ members, Unmixed entry.2) →
      (∀ items, schema.get? "items" = some items → Unmixed items) → Unmixed schema

/-- What one property asks for. -/
def valueDefinitions (path : String) (schema : Json) : Table Json :=
  if nests schema then (path, shallow path schema) :: pathDefinitions path schema else []

theorem memberDefinitions_eq_flatMap (path : String) (members : List (String × Json)) :
    memberDefinitions path members =
      members.flatMap fun entry =>
        valueDefinitions (path ++ Identifier.pascalCase entry.1) entry.2 := by
  induction members with
  | nil => rw [memberDefinitions, List.flatMap_nil]
  | cons entry rest ih =>
      obtain ⟨key, value⟩ := entry
      rw [memberDefinitions, List.flatMap_cons, ih]
      rfl

section Forms

variable (path : String)

theorem isArray_ofObject (properties : List (String × Json)) (required : List String) :
    isArray (ofObject properties required) = false := rfl

theorem pathDefinitions_array {schema : Json} (h : isArray schema = true) :
    pathDefinitions path schema =
      (path ++ "Item", shallow (path ++ "Item") (itemsOf schema)) ::
        pathDefinitions (path ++ "Item") (itemsOf schema) := by
  rw [pathDefinitions, dif_pos h]

theorem pathDefinitions_ofObject (properties : List (String × Json)) (required : List String) :
    pathDefinitions path (ofObject properties required) = memberDefinitions path properties := by
  have hget : (ofObject properties required).get? "properties" = some (.obj properties) := rfl
  rw [pathDefinitions, dif_neg (by simp [isArray_ofObject])]
  split
  next members heq =>
    obtain rfl := Json.obj.inj (Option.some.inj (hget.symm.trans heq))
    rfl
  next hnot => exact absurd hget (hnot properties)

theorem Leaf.get?_properties {members : List (String × Json)} (h : Leaf members) :
    (Json.obj members).get? "properties" = none := by
  cases h with
  | empty => rfl
  | typed hflat | format _ hflat => cases hflat <;> rfl

theorem Leaf.isArray_eq {members : List (String × Json)} (h : Leaf members) :
    isArray (.obj members) = false := by
  cases h with
  | empty => rfl
  | typed hflat | format _ hflat =>
      cases hflat <;> simp_all [Schema.isArray, Json.get?, Table.get?]

theorem Leaf.nests_eq {members : List (String × Json)} (h : Leaf members) :
    nests (.obj members) = false := by
  rw [Schema.nests, h.isArray_eq, isRecord, Json.has, h.get?_properties, Option.isSome_none,
    Bool.and_false, Bool.or_false]

theorem Leaf.pathDefinitions_eq {members : List (String × Json)} (h : Leaf members) :
    pathDefinitions path (.obj members) = [] := by
  rw [Schema.pathDefinitions, dif_neg (by simp [h.isArray_eq])]
  split
  next found heq =>
    rw [h.get?_properties] at heq
    cases heq
  next => rfl

theorem Leaf.shallow_eq {members : List (String × Json)} (h : Leaf members) :
    shallow path (.obj members) = .obj members := by
  rw [Schema.shallow, if_neg (by simp [h.isArray_eq]), h.get?_properties]

end Forms

/-! ## Definitions that are added -/

/-- Names that are asked for once each, and are not taken. -/
structure Free (taken : List String) (asked : Table Json) : Prop where
  nodup : (Table.names asked).Nodup
  fresh : ∀ name ∈ Table.names asked, name ∉ taken

/-- Definitions were added, in some order, that say the same as the given ones. -/
structure Gains (earlier asked later : Table Json) : Prop where
  names : (Table.names later).Perm (Table.names earlier ++ Table.names asked)
  kept : Extends earlier later
  gained : ∀ entry ∈ asked, ∃ copy, Table.get? later entry.1 = some copy ∧ SameNode copy entry.2

theorem names_append (first second : Table Json) :
    Table.names (first ++ second) = Table.names first ++ Table.names second :=
  List.map_append

namespace Free

variable {taken : List String} {asked first second : Table Json} {definitions middle : Table Json}
  {reserved : List String}

theorem perm (h : Free taken first) (hperm : first.Perm second) : Free taken second := by
  have hnames : (Table.names first).Perm (Table.names second) := hperm.map Prod.fst
  exact ⟨hnames.nodup_iff.mp h.nodup, fun name hmem => h.fresh name (hnames.mem_iff.mpr hmem)⟩

theorem tail {entry : String × Json} (h : Free taken (entry :: asked)) : Free taken asked :=
  ⟨(List.nodup_cons.mp h.nodup).2, fun name hmem => h.fresh name (List.mem_cons_of_mem _ hmem)⟩

theorem left (h : Free taken (first ++ second)) : Free taken first := by
  have hnodup := h.nodup
  rw [names_append, List.nodup_append] at hnodup
  refine ⟨hnodup.1, fun name hmem => h.fresh name ?_⟩
  rw [names_append]
  exact List.mem_append_left _ hmem

/-- What is asked for later is still free once the first names are given. -/
theorem right (h : Free (Table.names definitions ++ reserved) (first ++ second))
    (hgains : Gains definitions first middle) : Free (Table.names middle ++ reserved) second := by
  obtain ⟨hnodup, hfresh⟩ := h
  rw [names_append, List.nodup_append] at hnodup
  refine ⟨hnodup.2.1, fun name hmem htaken => ?_⟩
  have hnot := hfresh name (by rw [names_append]; exact List.mem_append_right _ hmem)
  rw [List.mem_append, not_or] at hnot
  rcases List.mem_append.mp htaken with hmiddle | hreserved
  · rcases List.mem_append.mp (hgains.names.mem_iff.mp hmiddle) with hold | hfirst
    · exact hnot.1 hold
    · exact hnodup.2.2 name hfirst name hmem rfl
  · exact hnot.2 hreserved

end Free

namespace Gains

variable {earlier middle later asked first second : Table Json}

theorem refl (definitions : Table Json) : Gains definitions [] definitions :=
  ⟨by simp [Table.names], .refl _, fun _ hmem => (nomatch hmem)⟩

theorem perm (h : Gains earlier first later) (hperm : first.Perm second) :
    Gains earlier second later :=
  ⟨h.names.trans (List.Perm.append_left _ (hperm.map Prod.fst)), h.kept,
    fun entry hmem => h.gained entry (hperm.mem_iff.mpr hmem)⟩

theorem append (h : Gains earlier first middle) (hother : Gains middle second later) :
    Gains earlier (first ++ second) later := by
  refine ⟨?_, h.kept.trans hother.kept, fun entry hmem => ?_⟩
  · refine hother.names.trans ?_
    rw [names_append, ← List.append_assoc]
    exact List.Perm.append_right _ h.names
  · rcases List.mem_append.mp hmem with hfirst | hsecond
    · obtain ⟨copy, hget, hsame⟩ := h.gained entry hfirst
      exact ⟨copy, hother.kept _ _ hget, hsame⟩
    · exact hother.gained entry hsecond

/-- A definition is added last. -/
theorem add {name : String} {copy node : Json} (h : Gains earlier asked later)
    (hfresh : name ∉ Table.names later) (hsame : SameNode copy node) :
    Gains earlier ((name, node) :: asked) (Table.set later name copy) := by
  have hlast : Gains later [(name, node)] (Table.set later name copy) := by
    refine ⟨?_, .set hfresh _, fun entry hmem => ?_⟩
    · rw [Table.names_set_of_not_mem hfresh]
      exact List.Perm.refl _
    · obtain rfl := List.mem_singleton.mp hmem
      exact ⟨copy, Table.get?_set_self _ _ _, hsame⟩
  exact (h.append hlast).perm List.perm_append_comm

/-- A definition is reserved first and finished when those inside of it are there. -/
theorem finish {name : String} {node copy result : Json} (hfresh : name ∉ Table.names earlier)
    (h : Gains (Table.set earlier name node) asked later) (hnot : name ∉ Table.names asked)
    (hsame : SameNode copy result) :
    Gains earlier ((name, result) :: asked) (Table.set later name copy) := by
  have hname : name ∈ Table.names later :=
    h.kept.names_subset (Table.mem_names_set.mpr (.inl rfl))
  refine ⟨?_, ?_, List.forall_mem_cons.mpr ⟨⟨copy, Table.get?_set_self _ _ _, hsame⟩, ?_⟩⟩
  · rw [Table.names_set_of_mem hname]
    refine h.names.trans ?_
    rw [Table.names_set_of_not_mem hfresh, List.append_assoc]
    exact List.Perm.refl _
  · intro other definition hget
    have hne : other ≠ name := fun heq => hfresh (heq ▸ Table.mem_names_of_get? hget)
    rw [Table.get?_set_of_ne _ _ hne]
    exact h.kept _ _ (by rw [Table.get?_set_of_ne _ _ hne]; exact hget)
  · intro entry hmem
    obtain ⟨found, hget, hfound⟩ := h.gained entry hmem
    have hne : entry.1 ≠ name := by
      rintro rfl
      exact hnot (List.mem_map_of_mem hmem)
    exact ⟨found, by rw [Table.get?_set_of_ne _ _ hne]; exact hget, hfound⟩

end Gains

/-! ## Nodes that stand for a schema -/

/-- A node of a draft stands for an inline schema without alternatives: what is
nested in it may be there, or in a definition that it refers to. -/
inductive Stands (source : Table Json) : Json → Json → Prop
  | leaf {members : List (String × Json)} : Leaf members →
      Stands source (.obj members) (.obj members)
  | array {node items schema : Json} : SameBeside "items" node (ofArray schema) →
      Beside (fun _ => False) node "items" → itemsOf node = items → schema.isObject = true →
      Stands source items schema → Stands source node (ofArray schema)
  | record {node : Json} {entries : List (String × Json × Json)}
      {properties : List (String × Json)} {required : List String} :
      SameBeside "properties" node (ofObject properties required) →
      Beside (fun _ => False) node "properties" →
      node.get? "properties" = some (.obj (entries.map fun entry => (entry.1, entry.2.1))) →
      (entries.map fun entry => (entry.1, entry.2.2)).Perm properties →
      (Table.names properties).Nodup →
      (∀ entry ∈ entries, Stands source entry.2.1 entry.2.2) →
      Stands source node (ofObject properties required)
  | refers {definition schema : Json} {target : String} :
      Table.get? source target = some definition → isRecord definition = true →
      Stands source definition schema → Stands source (refTo target) schema

section Standing

variable {source : Table Json} {node schema : Json}

theorem isArray_of_sameBeside (h : SameBeside "items" node (ofArray schema)) :
    isArray node = true := by
  rw [isArray, h "type" (by decide) (by decide)]
  rfl

theorem target?_of_sameBeside {member : String} {other : Json}
    (h : SameBeside member node other) (hmember : "$ref" ≠ member) (hother : other.get? "$ref" = none) :
    target? node = none := by
  rw [target?, h "$ref" (by decide) hmember, hother]

theorem isRecord_of_sameBeside {properties members : List (String × Json)} {required : List String}
    (h : SameBeside "properties" node (ofObject properties required))
    (hget : node.get? "properties" = some (.obj members)) :
    isArray node = false ∧ isRecord node = true := by
  have htype : node.get? "type" = some (.str "object") := h "type" (by decide) (by decide)
  rw [isArray, isRecord, Json.has, htype, hget]
  exact ⟨rfl, rfl⟩

theorem Json.isObject_of_get? {name : String} {value : Json} (h : node.get? name = some value) :
    node.isObject = true := by
  cases node with
  | obj members => rfl
  | _ => cases h

namespace Stands

theorem isObject (h : Stands source node schema) : node.isObject = true ∧ schema.isObject = true := by
  induction h with
  | leaf => exact ⟨rfl, rfl⟩
  | array hsame => exact ⟨isObject_of_isArray (isArray_of_sameBeside hsame), rfl⟩
  | record _ _ hget => exact ⟨Json.isObject_of_get? hget, rfl⟩
  | refers _ _ _ ih => exact ⟨rfl, ih.2⟩

/-- What stands for a record schema in place is a record. -/
theorem nests_of_isRecord (h : Stands source node schema) (hrecord : isRecord node = true) :
    nests schema = true := by
  cases h with
  | leaf hleaf =>
      have hnone := hleaf.nests_eq
      rw [nests, hrecord, Bool.or_true] at hnone
      cases hnone
  | array | record => rfl
  | refers => cases hrecord

theorem plain_of_isRecord (h : Stands source node schema) (hrecord : isRecord node = true) :
    isArray node = false ∧ Schema.target? node = none := by
  cases h with
  | leaf hleaf =>
      have hnone := hleaf.nests_eq
      rw [nests, hrecord, Bool.or_true] at hnone
      cases hnone
  | array hsame =>
      have htype : node.get? "type" = some (.str "array") := hsame "type" (by decide) (by decide)
      rw [isRecord, htype] at hrecord
      cases hrecord
  | record hsame _ hget =>
      exact ⟨(isRecord_of_sameBeside hsame hget).1, target?_of_sameBeside hsame (by decide) rfl⟩
  | refers => cases hrecord

/-- Only leaves have nothing nested in them, and they stand for themselves. -/
theorem eq_of_not_nests (h : Stands source node schema) (hnot : nests schema = false) :
    node = schema ∧ ∃ members, Leaf members ∧ schema = .obj members := by
  cases h with
  | leaf hleaf => exact ⟨rfl, _, hleaf, rfl⟩
  | array | record => cases hnot
  | refers _ hrecord hdefinition =>
      rw [hdefinition.nests_of_isRecord hrecord] at hnot
      cases hnot

end Stands

theorem Leaf.target?_eq {members : List (String × Json)} (h : Leaf members) :
    target? (.obj members) = none := by
  cases h with
  | empty => rfl
  | typed hflat | format _ hflat => cases hflat <;> rfl

end Standing

/-! ## Lifting what stands for a schema -/

/-- In this scope the definitions before a place of the source are open. -/
structure Scope.Below (scope : Scope) (source : Table Json) (bound : Nat) : Prop where
  pending : ∀ target ∈ Table.names source, (Table.names source).idxOf target < bound →
    Table.get? scope.pending target = Table.get? source target
  copying : ∀ target ∈ Table.names source, (Table.names source).idxOf target < bound →
    Table.get? scope.copying target = none

/-- A node refers to no definition of the source but those before a place. -/
def RefersBelow (source : Table Json) (bound : Nat) (node : Json) : Prop :=
  ∀ target ∈ targets node, target ∈ Table.names source →
    (Table.names source).idxOf target < bound

/-- Below a copy only the definitions before the copied one are needed. -/
theorem Scope.Below.copy {scope : Scope} {source : Table Json} {bound : Nat} {target : String}
    (h : scope.Below source bound) (hlt : (Table.names source).idxOf target < bound)
    (name : String) :
    (scope.copy target name).Below source ((Table.names source).idxOf target) where
  pending := fun other hmem hother => by
    have hne : other ≠ target := fun heq => Nat.lt_irrefl _ (heq ▸ hother)
    rw [Scope.copy, Table.get?_erase, if_neg hne]
    exact h.pending other hmem (Nat.lt_trans hother hlt)
  copying := fun other hmem hother => by
    have hne : other ≠ target := fun heq => Nat.lt_irrefl _ (heq ▸ hother)
    rw [Scope.copy, Table.get?_set_of_ne _ _ hne]
    exact h.copying other hmem (Nat.lt_trans hother hlt)

/-- A standing node is lifted like its schema: what is below it, if it is no
array, and the node itself, where it gets a definition. -/
structure Liftable (source : Table Json) (node schema : Json) : Prop where
  body : ∀ scope bound definitions path, scope.Below source bound → RefersBelow source bound node →
    isArray node = false → target? node = none →
    Free (Table.names definitions ++ scope.reserved) (pathDefinitions path schema) →
    ∃ lifted later, Lifts .body scope definitions node path lifted later ∧
      SameNode lifted (shallow path schema) ∧ Gains definitions (pathDefinitions path schema) later
  value : ∀ part scope bound definitions path, scope.Below source bound →
    RefersBelow source bound node → part = .item ∨ part = .property ∧ nests schema = true →
    Free (Table.names definitions ++ scope.reserved)
      ((path, shallow path schema) :: pathDefinitions path schema) →
    ∃ later, Lifts part scope definitions node path (refTo path) later ∧
      Gains definitions ((path, shallow path schema) :: pathDefinitions path schema) later

theorem Free.cons {definitions asked : Table Json} {reserved : List String} {path : String}
    {node : Json} (h : Free (Table.names definitions ++ reserved) ((path, node) :: asked)) :
    path ∉ Table.names definitions ++ reserved ∧ path ∉ Table.names asked ∧
      ∀ other, Free (Table.names (Table.set definitions path other) ++ reserved) asked := by
  obtain ⟨hnodup, hfresh⟩ := h
  obtain ⟨hnot, hnodup⟩ := List.nodup_cons.mp hnodup
  have hpath : path ∉ Table.names definitions ++ reserved := hfresh path List.mem_cons_self
  refine ⟨hpath, hnot, fun other => ⟨hnodup, fun name hmem htaken => ?_⟩⟩
  rw [List.mem_append, Table.mem_names_set, or_assoc] at htaken
  rcases htaken with rfl | htaken
  · exact hnot hmem
  · exact hfresh name (List.mem_cons_of_mem _ hmem) (List.mem_append.mpr htaken)

theorem Scope.freshFor_of_not_mem {scope : Scope} {definitions : Table Json} {path : String}
    (h : path ∉ Table.names definitions ++ scope.reserved) :
    scope.freshFor definitions path = path :=
  freshName_of_not_mem h

theorem Scope.copied?_eq_none {scope : Scope} {node : Json} (h : target? node = none) :
    scope.copied? node = none ∧ scope.pending? node = none := by
  refine ⟨by rw [Scope.copied?, h, Option.bind_none], ?_⟩
  unfold Scope.pending?
  split
  next => rfl
  next target htarget =>
    rw [h] at htarget
    cases htarget

section Lifting

variable {source : Table Json} {scope : Scope} {bound : Nat} {definitions : Table Json}
  {path : String} {node schema : Json}

/-- A node that is moved into a definition is lifted if its body is. -/
theorem value_of_body {part : Part} (hmoves : part.Moves scope node) (harray : isArray node = false)
    (hbody : ∀ earlier, Free (Table.names earlier ++ scope.reserved) (pathDefinitions path schema) →
      ∃ lifted later, Lifts .body scope earlier node path lifted later ∧
        SameNode lifted (shallow path schema) ∧ Gains earlier (pathDefinitions path schema) later)
    (hfree : Free (Table.names definitions ++ scope.reserved)
      ((path, shallow path schema) :: pathDefinitions path schema)) :
    ∃ later, Lifts part scope definitions node path (refTo path) later ∧
      Gains definitions ((path, shallow path schema) :: pathDefinitions path schema) later := by
  obtain ⟨hpath, hnot, hrest⟩ := hfree.cons
  obtain ⟨lifted, later, hlifts, hsame, hgains⟩ := hbody _ (hrest node)
  refine ⟨Table.set later path lifted,
    .moved hmoves harray (Scope.freshFor_of_not_mem hpath) hlifts, ?_⟩
  exact hgains.finish (fun hmem => hpath (List.mem_append_left _ hmem)) hnot hsame

theorem liftable_leaf {members : List (String × Json)} (hleaf : Leaf members) :
    Liftable source (.obj members) (.obj members) := by
  have hbody (scope : Scope) (definitions : Table Json) (path : String) :
      ∃ lifted later, Lifts .body scope definitions (.obj members) path lifted later ∧
        SameNode lifted (shallow path (.obj members)) ∧
        Gains definitions (pathDefinitions path (.obj members)) later := by
    refine ⟨_, _, .plain fun inner hget => ?_, ?_, ?_⟩
    · rw [hleaf.get?_properties] at hget
      cases hget
    · rw [hleaf.shallow_eq]
      exact .refl _
    · rw [hleaf.pathDefinitions_eq]
      exact .refl _
  refine ⟨fun scope _ definitions path _ _ _ _ _ => hbody scope definitions path, ?_⟩
  intro part scope bound definitions path _ _ hpart hfree
  rcases hpart with rfl | ⟨_, hnests⟩
  · obtain ⟨hcopied, hpending⟩ := @Scope.copied?_eq_none scope _ hleaf.target?_eq
    exact value_of_body ⟨rfl, hcopied, hpending⟩ hleaf.isArray_eq
      (fun earlier _ => hbody scope earlier path) hfree
  · rw [hleaf.nests_eq] at hnests
    cases hnests

/-- The references of a part of a node are among those of the node. -/
theorem RefersBelow.mono (h : RefersBelow source bound node) {inner : Json}
    (hsubset : targets inner ⊆ targets node) : RefersBelow source bound inner :=
  fun target hmem => h target (hsubset hmem)

theorem get?_replaceItems (hobject : node.isObject = true) (items : Json) (key : String) :
    ((node.erase "items").set "items" items).get? key =
      if key = "items" then some items else node.get? key := by
  cases node with
  | obj members =>
      rw [Json.erase, Json.set, Json.get?, Table.get?_set, Table.get?_erase]
      split <;> rfl
  | _ => cases hobject

theorem get?_setItems (hobject : node.isObject = true) (items : Json) (key : String) :
    (node.set "items" items).get? key = if key = "items" then some items else node.get? key := by
  cases node with
  | obj members =>
      rw [Json.set, Json.get?, Table.get?_set]
      rfl
  | _ => cases hobject

/-- An array with other items still says what it said beside them. -/
theorem sameNode_of_items (hsame : SameBeside "items" node (ofArray schema)) {changed items : Json}
    (h : ∀ key, changed.get? key = if key = "items" then some items else node.get? key) :
    SameNode changed (((ofArray schema).erase "items").set "items" items) := by
  have hget (key : String) (hadded : key ∉ addedMembers) :
      changed.get? key = (((ofArray schema).erase "items").set "items" items).get? key := by
    rw [h, get?_replaceItems rfl]
    by_cases heq : key = "items"
    · rw [if_pos heq, if_pos heq]
    · rw [if_neg heq, if_neg heq]
      exact hsame key hadded heq
  refine ⟨fun key hadded _ => hget key hadded, ?_⟩
  rw [hget "properties" (by decide)]
  exact .none

/-- So does a record with other properties. -/
theorem sameNode_replaceProperties {properties these those : List (String × Json)}
    {required : List String} (hsame : SameBeside "properties" node (ofObject properties required))
    (hobject : node.isObject = true)
    (h : ∀ key, Table.get? these key = Table.get? those key) :
    SameNode (node.set "properties" (.obj these)) (ofObject those required) := by
  cases node with
  | obj members =>
      refine ⟨fun key hadded hne => ?_, ?_⟩
      · rw [Json.set, Json.get?, Table.get?_set_of_ne _ _ hne]
        refine (hsame key hadded hne).trans ?_
        simp [ofObject, Json.get?, Table.get?, hne.symm]
      · rw [Json.set, Json.get?, Table.get?_set_self]
        exact .some h
  | _ => cases hobject

theorem liftable_array {items : Json} (hsame : SameBeside "items" node (ofArray schema))
    (hitems : itemsOf node = items) (hobject : schema.isObject = true)
    (h : Liftable source items schema) : Liftable source node (ofArray schema) := by
  have harray := isArray_of_sameBeside hsame
  refine ⟨fun _ _ _ _ _ _ hnot => ?_, fun part scope bound definitions path hscope hrefers hpart hfree => ?_⟩
  · rw [harray] at hnot
    cases hnot
  have hinner : itemsOf (ofArray schema) = schema := itemsOf_ofArray hobject
  have hbelow : RefersBelow source bound items :=
    hrefers.mono (hitems ▸ targets_itemsOf_subset node)
  rw [pathDefinitions_array path (show isArray (ofArray schema) = true from rfl), hinner] at hfree ⊢
  obtain ⟨hpath, hnot, _⟩ := hfree.cons
  obtain ⟨later, hlifts, hgains⟩ := h.value .item scope bound definitions (path ++ "Item") hscope
    hbelow (.inl rfl) hfree.tail
  have hlater : path ∉ Table.names later ++ scope.reserved := by
    rw [List.mem_append, not_or] at hpath ⊢
    refine ⟨fun hmem => ?_, hpath.2⟩
    exact (List.mem_append.mp (hgains.names.mem_iff.mp hmem)).elim hpath.1 hnot
  refine ⟨_, .direct (hpart.symm.imp And.left id) harray
    (.array harray (hitems ▸ hlifts) (Scope.freshFor_of_not_mem hlater)), ?_⟩
  exact hgains.add (fun hmem => hlater (List.mem_append_left _ hmem))
    (sameNode_of_items hsame (get?_replaceItems (isObject_of_isArray harray) _))

/-- A property is lifted to a reference if something is nested in it, or stays. -/
theorem lifts_property (hstands : Stands source node schema) (h : Liftable source node schema)
    (hscope : scope.Below source bound) (hrefers : RefersBelow source bound node)
    (hfree : Free (Table.names definitions ++ scope.reserved) (valueDefinitions path schema)) :
    ∃ later, Lifts .property scope definitions node path (placed path schema) later ∧
      Gains definitions (valueDefinitions path schema) later := by
  unfold placed valueDefinitions at *
  cases hnests : nests schema with
  | true =>
      rw [if_pos hnests] at hfree
      rw [if_pos rfl, if_pos rfl]
      exact h.value .property scope bound definitions path hscope hrefers (.inr ⟨rfl, hnests⟩) hfree
  | false =>
      obtain ⟨rfl, members, hleaf, rfl⟩ := hstands.eq_of_not_nests hnests
      obtain ⟨hcopied, hpending⟩ := @Scope.copied?_eq_none scope _ hleaf.target?_eq
      rw [nests, hleaf.isArray_eq, Bool.false_or] at hnests
      rw [if_neg (by simp), if_neg (by simp)]
      exact ⟨definitions, .kept hleaf.isArray_eq hnests hcopied hpending, .refl _⟩

/-- Properties are lifted one after the other, each for its own names. -/
theorem lifts_members {entries : List (String × Json × Json)}
    (h : ∀ entry ∈ entries, Stands source entry.2.1 entry.2.2 ∧
      Liftable source entry.2.1 entry.2.2) (hscope : scope.Below source bound)
    (hrefers : ∀ entry ∈ entries, RefersBelow source bound entry.2.1)
    (hfree : Free (Table.names definitions ++ scope.reserved)
      (memberDefinitions path (entries.map fun entry => (entry.1, entry.2.2)))) :
    ∃ later, Lifts .members scope definitions
        (.obj (entries.map fun entry => (entry.1, entry.2.1))) path
        (.obj (placedMembers path (entries.map fun entry => (entry.1, entry.2.2)))) later ∧
      Gains definitions (memberDefinitions path (entries.map fun entry => (entry.1, entry.2.2)))
        later := by
  induction entries generalizing definitions with
  | nil =>
      refine ⟨definitions, .nil, ?_⟩
      rw [List.map_nil, memberDefinitions]
      exact .refl _
  | cons entry rest ih =>
      obtain ⟨key, value, schema⟩ := entry
      obtain ⟨⟨hstands, hvalue⟩, hrest⟩ := List.forall_mem_cons.mp h
      obtain ⟨hbelow, hrestBelow⟩ := List.forall_mem_cons.mp hrefers
      rw [List.map_cons, memberDefinitions] at hfree
      obtain ⟨middle, hlifts, hgains⟩ := lifts_property hstands hvalue hscope hbelow hfree.left
      obtain ⟨later, hothers, hlater⟩ := ih hrest hrestBelow (hfree.right hgains)
      refine ⟨later, .cons hlifts hothers, ?_⟩
      rw [List.map_cons, memberDefinitions]
      exact hgains.append hlater

theorem liftable_record {entries : List (String × Json × Json)}
    {properties : List (String × Json)} {required : List String}
    (hsame : SameBeside "properties" node (ofObject properties required))
    (hget : node.get? "properties" = some (.obj (entries.map fun entry => (entry.1, entry.2.1))))
    (hperm : (entries.map fun entry => (entry.1, entry.2.2)).Perm properties)
    (hnodup : (Table.names properties).Nodup)
    (h : ∀ entry ∈ entries, Stands source entry.2.1 entry.2.2 ∧
      Liftable source entry.2.1 entry.2.2) : Liftable source node (ofObject properties required) := by
  obtain ⟨harray, hrecord⟩ := isRecord_of_sameBeside hsame hget
  have htarget := target?_of_sameBeside hsame (by decide) rfl
  have hinner : ∀ entry ∈ entries, targets entry.2.1 ⊆ targets node := by
    intro entry hmem target htargets
    refine targets_get?_subset hget ?_
    simp only [targets, List.mem_append, mem_memberTargets]
    exact .inr ⟨_, List.mem_map_of_mem hmem, htargets⟩
  have hasked (path : String) :
      (memberDefinitions path (entries.map fun entry => (entry.1, entry.2.2))).Perm
        (pathDefinitions path (ofObject properties required)) := by
    rw [pathDefinitions_ofObject, memberDefinitions_eq_flatMap, memberDefinitions_eq_flatMap]
    exact hperm.flatMap_right _
  have hbody (scope : Scope) (bound : Nat) (definitions : Table Json) (path : String)
      (hscope : scope.Below source bound) (hrefers : RefersBelow source bound node)
      (hfree : Free (Table.names definitions ++ scope.reserved)
        (pathDefinitions path (ofObject properties required))) :
      ∃ lifted later, Lifts .body scope definitions node path lifted later ∧
        SameNode lifted (shallow path (ofObject properties required)) ∧
        Gains definitions (pathDefinitions path (ofObject properties required)) later := by
    obtain ⟨later, hlifts, hgains⟩ := lifts_members h hscope
      (fun entry hmem => hrefers.mono (hinner entry hmem)) (hfree.perm (hasked path).symm)
    refine ⟨_, later, .within hget hlifts, ?_, hgains.perm (hasked path)⟩
    have hnames : (Table.names (placedMembers path properties)).Nodup := by
      simpa [placedMembers, Table.names, Function.comp_def] using hnodup
    exact sameNode_replaceProperties hsame (Json.isObject_of_get? hget) fun key =>
      (get?_eq_of_perm (hperm.symm.map _) hnames key).symm
  refine ⟨fun scope bound definitions path hscope hrefers _ _ hfree =>
    hbody scope bound definitions path hscope hrefers hfree, ?_⟩
  intro part scope bound definitions path hscope hrefers hpart hfree
  refine value_of_body ?_ harray (fun earlier hearlier =>
    hbody scope bound earlier path hscope hrefers hearlier) hfree
  rcases hpart with rfl | ⟨rfl, _⟩
  · exact ⟨Json.isObject_of_get? hget, Scope.copied?_eq_none htarget⟩
  · exact hrecord

/-- A definition is copied in a scope in which what it refers to is still open. -/
theorem liftable_refers {definition : Json} {target : String} (hlayered : Layered source)
    (hget : Table.get? source target = some definition) (hrecord : isRecord definition = true)
    (hstands : Stands source definition schema) (h : Liftable source definition schema) :
    Liftable source (refTo target) schema := by
  have hmem := Table.mem_names_of_get? hget
  refine ⟨fun _ _ _ _ _ _ _ hnone => ?_, ?_⟩
  · rw [target?_refTo] at hnone
    cases hnone
  intro part scope bound definitions path hscope hrefers hpart hfree
  have hlt := hrefers target (by simp) hmem
  obtain ⟨hpath, hnot, hrest⟩ := hfree.cons
  obtain ⟨harray, htarget⟩ := hstands.plain_of_isRecord hrecord
  have hbelow : RefersBelow source ((Table.names source).idxOf target) definition :=
    fun other hother _ => hlayered.idxOf_lt hget hother
  obtain ⟨lifted, later, hlifts, hsame, hgains⟩ := h.body (scope.copy target path) _
    (Table.set definitions path definition) path (hscope.copy hlt path) hbelow harray htarget
    (hrest definition)
  refine ⟨Table.set later path lifted, .copied ?_ rfl ?_ (target?_refTo target)
    ((hscope.pending target hmem hlt).trans hget) harray (Scope.freshFor_of_not_mem hpath) hlifts, ?_⟩
  · rcases hpart with rfl | ⟨rfl, _⟩ <;> rfl
  · rw [Scope.copied?, target?_refTo]
    exact hscope.copying target hmem hlt
  · exact hgains.finish (fun hmem => hpath (List.mem_append_left _ hmem)) hnot hsame

theorem Stands.liftable (hlayered : Layered source) (h : Stands source node schema) :
    Liftable source node schema := by
  induction h with
  | leaf hleaf => exact liftable_leaf hleaf
  | array hsame _ hitems hobject _ ih => exact liftable_array hsame hitems hobject ih
  | record hsame _ hget hperm hnodup hentries ih =>
      exact liftable_record hsame hget hperm hnodup fun entry hmem =>
        ⟨hentries entry hmem, ih entry hmem⟩
  | refers hget hrecord hstands ih => exact liftable_refers hlayered hget hrecord hstands ih

end Lifting

/-! ## Lifting a draft that stands for a schema -/

section Drafts

variable {source : Table Json} {node schema : Json}

/-- A standing node is in place, or refers to a record that stands for the schema. -/
theorem Stands.target? (h : Stands source node schema) :
    Schema.target? node = none ∨ ∃ target definition, node = refTo target ∧
      Table.get? source target = some definition ∧ isRecord definition = true ∧
      Stands source definition schema := by
  cases h with
  | leaf hleaf => exact .inl hleaf.target?_eq
  | array hsame => exact .inl (target?_of_sameBeside hsame (by decide) rfl)
  | record hsame => exact .inl (target?_of_sameBeside hsame (by decide) rfl)
  | refers hget hrecord hdefinition => exact .inr ⟨_, _, rfl, hget, hrecord, hdefinition⟩

theorem Leaf.targets_eq {members : List (String × Json)} (h : Leaf members) :
    targets (.obj members) = [] := by
  cases h with
  | empty => rfl
  | typed hflat | format _ hflat =>
      cases hflat <;>
        simp [Schema.targets, memberTargets, itemTargets, Schema.target?, Json.get?, Table.get?]

/-- Lifting stays among standing nodes. -/
theorem walkable_stands (source : Table Json) :
    Walkable source (fun _ => False)
      (fun node => target? node = none ∧ ∃ schema, Stands source node schema)
      (fun node => Resolves source node ∧ ∃ schema, Stands source node schema) := by
  have heither {node schema : Json} (h : Stands source node schema) :
      (target? node = none ∧ ∃ schema, Stands source node schema) ∨
        Resolves source node ∧ ∃ schema, Stands source node schema := by
    rcases h.target? with hnone | ⟨target, definition, rfl, hget, _⟩
    · exact .inl ⟨hnone, schema, h⟩
    · exact .inr ⟨⟨target, Table.mem_names_of_get? hget, rfl⟩, schema, h⟩
  refine ⟨fun _ hbare => hbare.1, ?_, ?_, ?_, ?_, ?_⟩
  · rintro node name definition (⟨hnone, _⟩ | ⟨_, schema, hstands⟩) htarget hget
    · rw [hnone] at htarget
      cases htarget
    · rcases hstands.target? with hnone | ⟨target, found, rfl, hfound, hrecord, hinner⟩
      · rw [hnone] at htarget
        cases htarget
      · rw [target?_refTo] at htarget
        cases htarget
        cases hfound.symm.trans hget
        exact ⟨(hinner.plain_of_isRecord hrecord).2, schema, hinner⟩
  · rintro node members ⟨hnone, schema, hstands⟩ hget
    cases hstands with
    | leaf hleaf =>
        rw [hleaf.get?_properties] at hget
        cases hget
    | array hsame =>
        have hproperties : node.get? "properties" = none := hsame "properties" (by decide) (by decide)
        rw [hproperties] at hget
        cases hget
    | record _ _ hentries _ _ hinner =>
        obtain rfl := Json.obj.inj (Option.some.inj (hentries.symm.trans hget))
        refine ⟨fun name htarget => ?_, List.forall_mem_map.mpr fun entry hmem =>
          heither (hinner entry hmem)⟩
        -- a text under the name of a reference is no node
        obtain ⟨entry, hmem, heq⟩ := List.mem_map.mp (Table.mem_of_get? (target?_eq_some htarget))
        have hobject := (hinner entry hmem).isObject.1
        have hvalue : entry.2.1 = .str (definitionsPath ++ name) := (Prod.ext_iff.mp heq).2
        rw [hvalue] at hobject
        cases hobject
    | refers => cases hget
  · rintro node ⟨hnone, schema, hstands⟩ harray
    cases hstands with
    | leaf hleaf =>
        rw [hleaf.isArray_eq] at harray
        cases harray
    | array _ _ hitems _ hinner =>
        rw [hitems]
        exact heither hinner
    | record hsame _ hget =>
        rw [(isRecord_of_sameBeside hsame hget).1] at harray
        cases harray
    | refers => cases harray
  · rintro node ⟨hnone, schema, hstands⟩ harray hidle
    cases hstands with
    | leaf hleaf =>
        rw [hleaf.targets_eq]
        exact fun _ hmem => (nomatch hmem)
    | array hsame =>
        rw [isArray_of_sameBeside hsame] at harray
        cases harray
    | record hsame _ hget =>
        rcases hidle with hrecord | hproperties
        · rw [(isRecord_of_sameBeside hsame hget).2] at hrecord
          cases hrecord
        · exact absurd hget (hproperties _)
    | refers =>
        rw [target?_refTo] at hnone
        cases hnone
  · rintro node ⟨hnone, schema, hstands⟩
    cases hstands with
    | leaf hleaf => exact beside_of_targets (by simp [hleaf.targets_eq]) (by split <;> decide)
    | array hsame hbeside =>
        rw [if_pos (isArray_of_sameBeside hsame)]
        exact hbeside
    | record hsame hbeside hget =>
        rw [if_neg (by simp [(isRecord_of_sameBeside hsame hget).1])]
        exact hbeside
    | refers =>
        rw [target?_refTo] at hnone
        cases hnone

theorem Scope.Below.initial (reserved : List String) (source : Table Json) :
    (Scope.initial reserved source).Below source (Table.names source).length :=
  ⟨fun _ _ _ => rfl, fun _ _ _ => rfl⟩

theorem Layered.isObject (h : Layered source) (name : String) (node : Json)
    (hget : Table.get? source name = some node) : node.isObject = true := by
  obtain ⟨_, _, _, rfl, _⟩ := h.isShape hget
  rfl

theorem liftRoot_array {scope : Scope} {root items : Json} {path : String}
    {definitions : Table Json} (harray : isArray root = true)
    (h : liftItem scope [] (itemsOf root) (path ++ "Item") = .ok (items, definitions)) :
    liftRoot scope root path = .ok (root.set "items" items, definitions) := by
  rw [itemsOf] at h
  rw [liftRoot, if_pos harray, h]
  rfl

/-- Lifting a root in place gives the definitions that the schema asks for. -/
theorem liftRoot_stands {root : Json} {base : String} {reserved : List String}
    (hlayered : Layered source) (hnone : target? root = none) (hstands : Stands source root schema)
    (hfree : Free (base :: reserved) (pathDefinitions base schema)) :
    ∃ lifted definitions,
      liftRoot (.initial (base :: reserved) source) root base = .ok (lifted, definitions) ∧
        SameNode lifted (shallow base schema) ∧ Gains [] (pathDefinitions base schema) definitions := by
  have hscope := Scope.Below.initial (base :: reserved) source
  have hrefers : RefersBelow source (Table.names source).length root :=
    fun target _ hmem => List.idxOf_lt_length_of_mem hmem
  cases harray : isArray root with
  | false =>
      obtain ⟨lifted, later, hlifts, hsame, hgains⟩ := (hstands.liftable hlayered).body _ _ [] base
        hscope hrefers harray hnone hfree
      refine ⟨lifted, later, ?_, hsame, hgains⟩
      rw [liftRoot, if_neg (by simp [harray])]
      exact hlifts.run_eq hlayered.isObject
  | true =>
      cases hstands with
      | leaf hleaf =>
          rw [hleaf.isArray_eq] at harray
          cases harray
      | record hsame _ hget =>
          rw [(isRecord_of_sameBeside hsame hget).1] at harray
          cases harray
      | refers => cases harray
      | @array _ items schema hsame _ hitems hobject hinner =>
          rw [pathDefinitions_array base (show isArray (ofArray schema) = true from rfl),
            itemsOf_ofArray hobject] at hfree ⊢
          obtain ⟨later, hlifts, hgains⟩ := (hinner.liftable hlayered).value .item _ _ []
            (base ++ "Item") hscope (hrefers.mono (hitems ▸ targets_itemsOf_subset root)) (.inl rfl)
            hfree
          rw [← hitems] at hlifts
          exact ⟨_, later, liftRoot_array harray (hlifts.run_eq hlayered.isObject),
            sameNode_of_items hsame (get?_setItems (isObject_of_isArray harray) _), hgains⟩

/-- Lifting a leaf leaves it as it is, also if it declares a dialect. -/
theorem liftRoot_leaf {root : Json} {members : List (String × Json)} {base : String}
    {scope : Scope} (hleaf : Leaf members) (harray : isArray root = false)
    (hsame : SameNode root (.obj members)) :
    liftRoot scope root base = .ok (root, []) ∧
      SameNode root (shallow base (.obj members)) ∧
      Gains [] (pathDefinitions base (.obj members)) [] := by
  rw [hleaf.shallow_eq, hleaf.pathDefinitions_eq]
  refine ⟨?_, hsame, .refl _⟩
  have hproperties := hsame.properties
  rw [hleaf.get?_properties] at hproperties
  rw [liftRoot, if_neg (by simp [harray])]
  refine liftProperties_plain fun inner hget => ?_
  rw [hget] at hproperties
  cases hproperties

/-- The root of a draft stands for a schema: in place, or as a leaf with the
dialect that the draft declares. -/
def StandsAtRoot (source : Table Json) (root schema : Json) : Prop :=
  (target? root = none ∧ Stands source root schema) ∨
    ∃ members, Leaf members ∧ schema = .obj members ∧ targets root = [] ∧ isArray root = false ∧
      SameNode root schema

/-- A draft that stands for a schema is lifted to the definitions that the schema
asks for. -/
theorem lift_stands {draft : Json} {base : String} {reserved : List String}
    (hobject : draft.isObject = true) (hlayered : Layered (definitionsOf draft))
    (h : StandsAtRoot (definitionsOf draft) (rootOf draft) schema)
    (hfree : Free (base :: reserved) (pathDefinitions base schema)) :
    ∃ result, lift draft base reserved = .ok result ∧
      SameNode (rootOf result) (shallow base schema) ∧
      Gains [] (pathDefinitions base schema) (definitionsOf result) := by
  have hlift : ∃ lifted definitions,
      liftRoot (.initial (base :: reserved) (definitionsOf draft)) (rootOf draft) base =
        .ok (lifted, definitions) ∧
      (SameNode lifted (shallow base schema) ∧ Gains [] (pathDefinitions base schema) definitions) ∧
      Accounted definitions (fun _ => False) (targets lifted) ∧
      Closed (fun _ => False) [] definitions := by
    rcases h with ⟨hnone, hstands⟩ | ⟨members, hleaf, rfl, htargets, harray, hsame⟩
    · obtain ⟨lifted, definitions, hroot, hgains⟩ := liftRoot_stands hlayered hnone hstands hfree
      exact ⟨lifted, definitions, hroot, hgains,
        liftRoot_closed (walkable_stands _) (.initial _ _) rfl hroot ⟨hnone, schema, hstands⟩⟩
    · obtain ⟨hroot, hgains⟩ := liftRoot_leaf hleaf harray hsame
      refine ⟨_, [], hroot, hgains, ?_, .refl _⟩
      rw [htargets]
      exact fun _ hmem => (nomatch hmem)
  obtain ⟨lifted, definitions, hroot, ⟨hsame, hgains⟩, haccounted, hclosed⟩ := hlift
  have hentries : ∀ entry ∈ definitions,
      Accounted definitions (fun _ => False) (targets entry.2) := fun entry hentry =>
    hclosed entry.1 entry.2 (by simp [Table.names])
      (Table.get?_of_mem (nodup_names_of_liftRoot hroot) hentry)
  have hadopt (scope : Scope) := @adopt_of_closed scope lifted definitions haccounted hentries
    (adoptionBound draft)
  have hdefinitions : lifted.get? "definitions" = none := by
    rw [get?_liftRoot hroot (by decide) (by decide), get?_definitions_rootOf]
  have hlifted : lifted.isObject = true := by
    rw [← label_eq_obj_iff, label_liftRoot hroot, label_eq_obj_iff, isObject_rootOf, hobject]
  obtain ⟨hrootOf, hdefinitionsOf⟩ := parts_of_set hlifted hdefinitions definitions
  refine ⟨lifted.set "definitions" (.obj definitions), ?_, ?_, ?_⟩
  · rw [rootOf] at hroot
    simp only [lift, hobject, hroot, hadopt, if_true, bind, Except.bind]
  · rwa [hrootOf]
  · rwa [hdefinitionsOf]

end Drafts

end RequestShapes.Schema
