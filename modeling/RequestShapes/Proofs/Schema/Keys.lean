import RequestShapes.Proofs.Schema.Marking
import RequestShapes.Proofs.Schema.Naming

/-!
# No key is invented

The keys in the schema of a sample are words of the schema language and keys of the
sample. Sharing, lifting and marking move nodes and put references and markers in
their place, so they bring no other keys with them.
-/

namespace RequestShapes.Schema

/-- What holds of scalars, and of containers if it holds of all in them, holds of every
value. -/
theorem contents_induction {motive : Json → Prop}
    (scalar : ∀ node : Json, node.isContainer = false → motive node)
    (arr : ∀ items : List Json, (∀ item ∈ items, motive item) → motive (.arr items))
    (obj : ∀ members : List (String × Json), (∀ entry ∈ members, motive entry.2) →
      motive (.obj members)) (node : Json) : motive node := by
  induction hsize : sizeOf node using Nat.strongRecOn generalizing node with
  | ind size ih =>
      subst hsize
      cases node with
      | arr items =>
          refine arr items fun item hmem => ih _ ?_ item rfl
          have hlt := List.sizeOf_lt_of_mem hmem
          simp only [Json.arr.sizeOf_spec]
          omega
      | obj members =>
          refine obj members fun entry hmem => ih _ ?_ entry.2 rfl
          have hlt := List.sizeOf_lt_of_mem hmem
          have hvalue : sizeOf entry.2 < sizeOf entry := by
            cases entry
            simp only [Prod.mk.sizeOf_spec]
            omega
          simp only [Json.obj.sizeOf_spec]
          omega
      | _ => exact scalar _ rfl

/-- The keys that schemas have of their own. -/
def schemaWords : List String :=
  ["$ref", "$schema", "additionalProperties", "anyOf", "const", "format", "items", "properties",
    "required", "title", "type"]

/-- Something holds of all keys of a value, be they deep inside. -/
def AllKeys (Holds : String → Prop) (node : Json) : Prop := ∀ key, HasKey node key → Holds key

section Values

variable {Holds : String → Prop}

theorem allKeys_of_scalar {node : Json} (h : node.isContainer = false) : AllKeys Holds node := by
  intro key hkey
  cases hkey <;> cases h

theorem allKeys_arr_iff {items : List Json} :
    AllKeys Holds (.arr items) ↔ ∀ item ∈ items, AllKeys Holds item := by
  refine ⟨fun h item hmem key hkey => h key (.item hmem hkey), fun h key hkey => ?_⟩
  cases hkey with
  | item hmem hkey => exact h _ hmem key hkey

theorem allKeys_obj_iff {members : List (String × Json)} : AllKeys Holds (.obj members) ↔
    ∀ entry ∈ members, Holds entry.1 ∧ AllKeys Holds entry.2 := by
  refine ⟨fun h entry hmem => ⟨h _ (.own (List.mem_map_of_mem hmem)), fun key hkey =>
    h key (.inner hmem hkey)⟩, fun h key hkey => ?_⟩
  cases hkey with
  | own hname =>
      obtain ⟨entry, hmem, rfl⟩ := List.mem_map.mp hname
      exact (h entry hmem).1
  | inner hmem hkey => exact (h _ hmem).2 key hkey

theorem AllKeys.get? {node value : Json} {name : String} (h : AllKeys Holds node)
    (hget : node.get? name = some value) : AllKeys Holds value := by
  cases node with
  | obj members => exact (allKeys_obj_iff.mp h _ (Table.mem_of_get? hget)).2
  | _ => cases hget

theorem AllKeys.set {node value : Json} {name : String} (h : AllKeys Holds node)
    (hname : Holds name) (hvalue : AllKeys Holds value) : AllKeys Holds (node.set name value) := by
  cases node with
  | obj members =>
      refine allKeys_obj_iff.mpr fun entry hmem => ?_
      obtain rfl | hmem := Table.mem_set hmem
      · exact ⟨hname, hvalue⟩
      · exact allKeys_obj_iff.mp h entry hmem
  | _ => exact h

theorem AllKeys.erase {node : Json} (h : AllKeys Holds node) (name : String) :
    AllKeys Holds (node.erase name) := by
  cases node with
  | obj members =>
      exact allKeys_obj_iff.mpr fun entry hmem =>
        allKeys_obj_iff.mp h entry (List.mem_of_mem_filter hmem)
  | _ => exact h

theorem allKeys_strings (names : List String) : AllKeys Holds (.arr (names.map .str)) :=
  allKeys_arr_iff.mpr (List.forall_mem_map.mpr fun _ _ => allKeys_of_scalar rfl)

/-- All keys of every definition of a table have a property. -/
def AllKeysIn (Holds : String → Prop) (definitions : Table Json) : Prop :=
  ∀ entry ∈ definitions, AllKeys Holds entry.2

theorem AllKeysIn.set {definitions : Table Json} (h : AllKeysIn Holds definitions) {node : Json}
    (hnode : AllKeys Holds node) (name : String) :
    AllKeysIn Holds (Table.set definitions name node) := by
  intro entry hmem
  obtain rfl | hmem := Table.mem_set hmem
  · exact hnode
  · exact h entry hmem

end Values

section Words

variable {Holds : String → Prop} (hwords : ∀ word ∈ schemaWords, Holds word)

include hwords

/-! ## Parts of schemas -/

theorem allKeys_refTo (name : String) : AllKeys Holds (refTo name) :=
  allKeys_obj_iff.mpr
    (List.forall_mem_singleton.mpr ⟨hwords "$ref" (by decide), allKeys_of_scalar rfl⟩)

theorem allKeys_ofArray {items : Json} (h : AllKeys Holds items) : AllKeys Holds (ofArray items) :=
  allKeys_obj_iff.mpr (List.forall_mem_cons.mpr ⟨⟨hwords "type" (by decide), allKeys_of_scalar rfl⟩,
    List.forall_mem_singleton.mpr ⟨hwords "items" (by decide), h⟩⟩)

theorem allKeys_anyOf {alternatives : List Json} (h : ∀ node ∈ alternatives, AllKeys Holds node) :
    AllKeys Holds (anyOf alternatives) :=
  allKeys_obj_iff.mpr
    (List.forall_mem_singleton.mpr ⟨hwords "anyOf" (by decide), allKeys_arr_iff.mpr h⟩)

theorem allKeys_closedObject {properties : List (String × Json)}
    (h : AllKeys Holds (.obj properties)) (required : List String) (title : String) :
    AllKeys Holds (closedObject properties (.arr (required.map .str)) title) := by
  refine allKeys_obj_iff.mpr ?_
  simp only [List.forall_mem_cons, List.not_mem_nil, false_imp_iff, implies_true, and_true]
  exact ⟨⟨hwords _ (by decide), allKeys_of_scalar rfl⟩,
    ⟨hwords _ (by decide), allKeys_of_scalar rfl⟩, ⟨hwords _ (by decide), h⟩,
    ⟨hwords _ (by decide), allKeys_strings required⟩,
    ⟨hwords _ (by decide), allKeys_of_scalar rfl⟩⟩

theorem Plain.allKeys {node : Json} (h : Plain node) : AllKeys Holds node := by
  have hscalar {type : Json} {name : String} {rest : List (String × Json)} (h : Scalar name rest)
      (htype : AllKeys Holds type) : AllKeys Holds (.obj (("type", type) :: rest)) := by
    refine allKeys_obj_iff.mpr (List.forall_mem_cons.mpr ⟨⟨hwords "type" (by decide), htype⟩, ?_⟩)
    cases h with
    | plain => exact List.forall_mem_nil _
    | format =>
        exact List.forall_mem_singleton.mpr ⟨hwords "format" (by decide), allKeys_of_scalar rfl⟩
  cases h with
  | null =>
      exact allKeys_obj_iff.mpr
        (List.forall_mem_singleton.mpr ⟨hwords _ (by decide), allKeys_of_scalar rfl⟩)
  | scalar h => exact hscalar h (allKeys_of_scalar rfl)
  | @nullable type _ h => exact hscalar h (allKeys_strings [type, "null"])

/-! ## Drafts -/

/-- Sharing leaves keys of which something holds, in the node and in the definitions. -/
def SharesKeys (Holds : String → Prop) (schema : Json) : Prop :=
  ∀ definitions name, AllKeysIn Holds definitions →
    AllKeys Holds (share definitions schema name).1 ∧
      AllKeysIn Holds (share definitions schema name).2

omit hwords in
theorem shareItems_allKeys {schemas : List Json} (h : ∀ schema ∈ schemas, SharesKeys Holds schema)
    {definitions : Table Json} (hdefinitions : AllKeysIn Holds definitions) (name : String) :
    (∀ node ∈ (shareItems definitions schemas name).1, AllKeys Holds node) ∧
      AllKeysIn Holds (shareItems definitions schemas name).2 := by
  induction schemas generalizing definitions with
  | nil =>
      rw [shareItems]
      exact ⟨List.forall_mem_nil _, hdefinitions⟩
  | cons schema rest ih =>
      obtain ⟨hschema, hrest⟩ := List.forall_mem_cons.mp h
      obtain ⟨hnode, hmiddle⟩ := hschema definitions name hdefinitions
      obtain ⟨hnodes, hlater⟩ := ih hrest hmiddle
      rw [shareItems]
      exact ⟨List.forall_mem_cons.mpr ⟨hnode, hnodes⟩, hlater⟩

omit hwords in
theorem shareMembers_allKeys {members : List (String × Json)}
    (h : ∀ entry ∈ members, Holds entry.1 ∧ SharesKeys Holds entry.2) {definitions : Table Json}
    (hdefinitions : AllKeysIn Holds definitions) :
    AllKeys Holds (.obj (shareMembers definitions members).1) ∧
      AllKeysIn Holds (shareMembers definitions members).2 := by
  induction members generalizing definitions with
  | nil =>
      rw [shareMembers]
      exact ⟨allKeys_obj_iff.mpr (List.forall_mem_nil _), hdefinitions⟩
  | cons entry rest ih =>
      obtain ⟨property, schema⟩ := entry
      obtain ⟨⟨hproperty, hschema⟩, hrest⟩ := List.forall_mem_cons.mp h
      obtain ⟨hnode, hmiddle⟩ := hschema definitions (propertyShapeName property) hdefinitions
      obtain ⟨hnodes, hlater⟩ := ih hrest hmiddle
      rw [shareMembers]
      exact ⟨allKeys_obj_iff.mpr (List.forall_mem_cons.mpr
        ⟨⟨hproperty, hnode⟩, allKeys_obj_iff.mp hnodes⟩), hlater⟩

theorem sharesKeys_plain {schema : Json} (h : Plain schema) : SharesKeys Holds schema := by
  intro definitions name hdefinitions
  have hkeys : AllKeys Holds schema := h.allKeys hwords
  obtain ⟨members, rfl, hleaf⟩ := h.exists_leaf
  rw [share_leaf hleaf]
  exact ⟨hkeys, hdefinitions⟩

/-- What summarizes values is shared with their keys. -/
theorem Summarizes.sharesKeys {observed : Observed} {schema : Json} (h : Summarizes observed schema)
    (hkeys : ∀ value, observed value → AllKeys Holds value) : SharesKeys Holds schema := by
  induction h with
  | empty =>
      intro definitions name hdefinitions
      rw [Json.empty, share_leaf .empty]
      exact ⟨allKeys_obj_iff.mpr (List.forall_mem_nil _), hdefinitions⟩
  | null => exact sharesKeys_plain hwords .null
  | scalar hscalar => exact sharesKeys_plain hwords (.scalar hscalar)
  | nullable hscalar => exact sharesKeys_plain hwords (.nullable hscalar)
  | @object observed properties required _ _ _ _ hnames _ _ ih =>
      intro definitions name hdefinitions
      have hproperties : ∀ entry ∈ properties, Holds entry.1 ∧ SharesKeys Holds entry.2 := by
        intro entry hmem
        obtain ⟨members, hmembers, hname⟩ := (hnames entry.1).mp (List.mem_map_of_mem hmem)
        refine ⟨hkeys _ hmembers _ (.own hname), ih entry hmem fun value hvalue => ?_⟩
        obtain ⟨members, hmembers, hget⟩ := hvalue
        exact (hkeys _ hmembers).get? hget
      obtain ⟨hnodes, hmiddle⟩ := shareMembers_allKeys hproperties hdefinitions
      rw [share_ofObject]
      obtain ⟨final, later, hregister, hlater⟩ := register_eq
        (shareMembers definitions properties).2 (shareMembers definitions properties).1
        (.arr (required.map .str)) name name
      simp only [hregister]
      refine ⟨allKeys_refTo hwords final, ?_⟩
      obtain rfl | rfl := hlater
      · exact hmiddle
      · exact hmiddle.set (allKeys_closedObject hwords hnodes required final) final
  | @array observed schema _ _ _ ih =>
      intro definitions name hdefinitions
      have hitems : ∀ value, observed.elements value → AllKeys Holds value := by
        rintro value ⟨items, hitems, hmem⟩
        exact allKeys_arr_iff.mp (hkeys _ hitems) value hmem
      obtain ⟨hnode, hlater⟩ := ih hitems definitions name hdefinitions
      rw [share_ofArray]
      exact ⟨allKeys_ofArray hwords hnode, hlater⟩
  | @anyOf observed parts nullable _ _ _ _ hjoined ih =>
      intro definitions name hdefinitions
      have halternatives : ∀ schema ∈ (parts ++ nullParts nullable).map Prod.snd,
          SharesKeys Holds schema := by
        refine List.forall_mem_map.mpr fun part hmem => ?_
        rcases List.mem_append.mp hmem with hpart | hnull
        · exact ih part hpart fun value hvalue =>
            hkeys value ((hjoined value).mpr ⟨part, hmem, hvalue⟩)
        · cases nullable with
          | false => cases hnull
          | true =>
              rw [List.mem_singleton.mp hnull]
              exact sharesKeys_plain hwords .null
      obtain ⟨hnodes, hlater⟩ := shareItems_allKeys halternatives hdefinitions name
      rw [share_anyOf]
      exact ⟨allKeys_anyOf hwords hnodes, hlater⟩

theorem allKeys_declared {root : Json} (h : AllKeys Holds root) :
    AllKeys Holds (declared root) := by
  refine allKeys_obj_iff.mpr (List.forall_mem_cons.mpr
    ⟨⟨hwords _ (by decide), allKeys_of_scalar rfl⟩, ?_⟩)
  cases root with
  | obj members => exact allKeys_obj_iff.mp h
  | _ => exact List.forall_mem_nil _

/-- The keys of an inlined draft are keys of the sample. -/
theorem inlineRoot_allKeys {sample schema inlined : Json} (h : Summarizes (· = sample) schema)
    (hkeys : AllKeys Holds sample) {name : String}
    (hinline : inlineRoot (draftOf schema name) = .ok inlined) :
    AllKeys Holds (rootOf inlined) ∧ AllKeysIn Holds (definitionsOf inlined) := by
  generalize hname : (if (Identifier.pascalCase name).isEmpty then "Root"
    else Identifier.pascalCase name) = rootName
  have hshares := h.normal.shareable [] rootName .nil
  obtain ⟨hroot, hdefinitions⟩ := h.sharesKeys hwords (fun _ heq => heq ▸ hkeys) [] rootName
    (List.forall_mem_nil _)
  generalize hshare : share [] schema rootName = shared at hshares hroot hdefinitions
  obtain ⟨root, definitions⟩ := shared
  rw [draftOf_eq (hname ▸ hshare) hshares.drafted] at hinline
  cases htarget : target? root with
  | none =>
      rw [inlineRoot_node hshares.drafted.isObject htarget] at hinline
      cases hinline
      obtain ⟨hrootOf, hparts⟩ := @parts_draftWith definitions root hshares.drafted.isObject
        (hshares.drafted.get?_eq_none (by decide))
      rw [hrootOf, hparts]
      exact ⟨allKeys_declared hwords hroot, hdefinitions⟩
  | some final =>
      obtain rfl : root = refTo final := hshares.drafted.eq_refTo htarget
      obtain ⟨definition, hget⟩ := Table.exists_get?_of_mem_names
        (hshares.resolves final (mem_targets_of_target? htarget))
      obtain ⟨properties, required, title, rfl, _⟩ := hshares.layered.isShape hget
      rw [inlineRoot_shape hget] at hinline
      cases hinline
      obtain ⟨hrootOf, hparts⟩ := @parts_draftWith (Table.erase definitions final)
        (closedObject properties (.arr (required.map .str)) title) rfl rfl
      rw [hrootOf, hparts]
      exact ⟨allKeys_declared hwords (hdefinitions _ (Table.mem_of_get? hget)),
        fun entry hmem => hdefinitions entry (List.mem_of_mem_filter hmem)⟩

/-! ## Lifting -/

/-- Lifting keeps keys, in what is lifted and in all definitions. -/
theorem Lifts.allKeys {part : Part} {scope : Scope} {definitions later : Table Json}
    {node lifted : Json} {path : String}
    (h : Lifts part scope definitions node path lifted later)
    (hscope : AllKeysIn Holds scope.pending) (hnode : AllKeys Holds node)
    (hdefinitions : AllKeysIn Holds definitions) :
    AllKeys Holds lifted ∧ AllKeysIn Holds later := by
  induction h with
  | plain | nil | kept => exact ⟨hnode, hdefinitions⟩
  | back => exact ⟨allKeys_refTo hwords _, hdefinitions⟩
  | within hget _ ih =>
      obtain ⟨hlifted, hlater⟩ := ih hscope (hnode.get? hget) hdefinitions
      exact ⟨hnode.set (hwords _ (by decide)) hlifted, hlater⟩
  | cons _ _ ihvalue ihrest =>
      obtain ⟨⟨hname, hvalue⟩, hrest⟩ := List.forall_mem_cons.mp (allKeys_obj_iff.mp hnode)
      obtain ⟨hlifted, hmiddle⟩ := ihvalue hscope hvalue hdefinitions
      obtain ⟨hothers, hlater⟩ := ihrest hscope (allKeys_obj_iff.mpr hrest) hmiddle
      exact ⟨allKeys_obj_iff.mpr (List.forall_mem_cons.mpr
        ⟨⟨hname, hlifted⟩, allKeys_obj_iff.mp hothers⟩), hlater⟩
  | moved _ _ _ _ ih =>
      obtain ⟨hlifted, hlater⟩ := ih hscope hnode (hdefinitions.set hnode _)
      exact ⟨allKeys_refTo hwords _, hlater.set hlifted _⟩
  | copied _ _ _ _ hget _ _ _ ih =>
      have hdefinition := hscope _ (Table.mem_of_get? hget)
      obtain ⟨hlifted, hlater⟩ := ih (fun entry hmem => hscope entry (List.mem_of_mem_filter hmem))
        hdefinition (hdefinitions.set hdefinition _)
      exact ⟨allKeys_refTo hwords _, hlater.set hlifted _⟩
  | copiedArray _ _ _ _ hget _ _ _ ih =>
      exact ih hscope (hscope _ (Table.mem_of_get? hget)) hdefinitions
  | direct _ _ _ ih => exact ih hscope hnode hdefinitions
  | @array scope definitions later node items path name _ _ _ ih =>
      have hitems : AllKeys Holds (itemsOf node) := by
        unfold itemsOf
        cases hfilled : Json.filled? (node.get? "items") with
        | none => exact allKeys_obj_iff.mpr (List.forall_mem_nil _)
        | some items => exact hnode.get? (Json.get?_of_filled? hfilled)
      obtain ⟨hlifted, hlater⟩ := ih hscope hitems hdefinitions
      exact ⟨allKeys_refTo hwords _,
        hlater.set ((hnode.erase _).set (hwords _ (by decide)) hlifted) _⟩

theorem liftRoot_allKeys {scope : Scope} {root lifted : Json} {path : String}
    {definitions : Table Json} (h : liftRoot scope root path = .ok (lifted, definitions))
    (hscope : AllKeysIn Holds scope.pending) (hroot : AllKeys Holds root) :
    AllKeys Holds lifted ∧ AllKeysIn Holds definitions := by
  rw [liftRoot] at h
  split at h
  next =>
    obtain ⟨⟨inner, later⟩, hitem, heq⟩ := bind_eq_ok h
    cases heq
    have hitems : AllKeys Holds ((Json.filled? (root.get? "items")).getD .empty) := by
      cases hfilled : Json.filled? (root.get? "items") with
      | none => exact allKeys_obj_iff.mpr (List.forall_mem_nil _)
      | some items => exact hroot.get? (Json.get?_of_filled? hfilled)
    obtain ⟨hinner, hlater⟩ := (lifts_of_liftItem hitem).allKeys hwords hscope hitems
      (List.forall_mem_nil _)
    exact ⟨hroot.set (hwords _ (by decide)) hinner, hlater⟩
  next => exact (lifts_of_liftProperties h).allKeys hwords hscope hroot (List.forall_mem_nil _)

theorem retarget_allKeys (old new : String) {node : Json} (h : AllKeys Holds node) :
    AllKeys Holds (retarget old new node) := by
  induction node using contents_induction with
  | scalar node hscalar => cases node <;> first | exact h | cases hscalar
  | arr items ih =>
      rw [retarget, retargetItems_eq_map]
      exact allKeys_arr_iff.mpr (List.forall_mem_map.mpr fun item hmem =>
        ih item hmem (allKeys_arr_iff.mp h item hmem))
  | obj members ih =>
      have hmembers : AllKeys Holds (.obj (retargetMembers old new members)) := by
        rw [retargetMembers_eq_map]
        refine allKeys_obj_iff.mpr (List.forall_mem_map.mpr fun entry hmem => ?_)
        obtain ⟨hname, hvalue⟩ := allKeys_obj_iff.mp h entry hmem
        exact ⟨hname, ih entry hmem hvalue⟩
      rw [retarget]
      split
      · exact hmembers.set (hwords _ (by decide)) (allKeys_of_scalar rfl)
      · exact hmembers

theorem adopt_allKeys {scope : Scope} {fuel : Nat} {root root' : Json}
    {definitions later : Table Json} (h : adopt scope fuel root definitions = .ok (root', later))
    (hscope : AllKeysIn Holds scope.pending) (hroot : AllKeys Holds root)
    (hdefinitions : AllKeysIn Holds definitions) :
    AllKeys Holds root' ∧ AllKeysIn Holds later := by
  refine (adopt_invariant (fun _ root definitions => AllKeys Holds root ∧
    AllKeysIn Holds definitions) ?_ ⟨hroot, hdefinitions⟩ h).1
  rintro _ root definitions target node _ _ ⟨hroot, hdefinitions⟩ hmissing hone
  obtain ⟨_, _, hget⟩ := missing?_eq_some hmissing
  obtain ⟨name, lifted, inner, _, hlifted, rfl, rfl⟩ := adoptOne_eq_ok hone
  have hbody := retarget_allKeys hwords target name (hscope _ (Table.mem_of_get? hget))
  have hturned : AllKeysIn Holds (definitions.map fun entry =>
      (entry.1, retarget target name entry.2)) :=
    List.forall_mem_map.mpr fun entry hmem =>
      retarget_allKeys hwords target name (hdefinitions entry hmem)
  obtain ⟨hlifted, hinner⟩ := (lifts_of_liftProperties hlifted).allKeys hwords hscope hbody
    (hturned.set hbody name)
  exact ⟨retarget_allKeys hwords target name hroot, hinner.set hlifted name⟩

theorem lift_allKeys {draft result : Json} {rootName : String} {reserved : List String}
    (h : lift draft rootName reserved = .ok result) (hroot : AllKeys Holds (rootOf draft))
    (hdefinitions : AllKeysIn Holds (definitionsOf draft)) :
    AllKeys Holds (rootOf result) ∧ AllKeysIn Holds (definitionsOf result) := by
  obtain ⟨root, definitions, hlift, hadopt⟩ := lift_phases h
  obtain ⟨hlifted, hlater⟩ := liftRoot_allKeys hwords hlift hdefinitions hroot
  exact adopt_allKeys hwords hadopt hdefinitions hlifted hlater

/-! ## Marking -/

theorem mark_allKeys (constants : Table String) {node : Json} (h : AllKeys Holds node) :
    AllKeys Holds (mark constants node) := by
  induction node using contents_induction with
  | scalar node hscalar => cases node <;> first | exact h | cases hscalar
  | arr items ih =>
      rw [mark, markItems_eq_map]
      exact allKeys_arr_iff.mpr (List.forall_mem_map.mpr fun item hmem =>
        ih item hmem (allKeys_arr_iff.mp h item hmem))
  | obj members ih =>
      rw [mark]
      split
      · exact (h.erase _).set (hwords _ (by decide)) (allKeys_of_scalar rfl)
      · rw [markMembers_eq_map]
        refine allKeys_obj_iff.mpr (List.forall_mem_map.mpr fun entry hmem => ?_)
        obtain ⟨hname, hvalue⟩ := allKeys_obj_iff.mp h entry hmem
        exact ⟨hname, ih entry hmem hvalue⟩

end Words

end RequestShapes.Schema
