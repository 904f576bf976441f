import RequestShapes.Proofs.Schema.Sample
import RequestShapes.Proofs.Schema.Sealed

/-!
# Sharing shapes loses nothing

Replacing the references of a draft by the definitions they designate, over and
over, comes to an end and gives back the inline schema, apart from what was added
to object schemas and from the order of members.
-/

namespace RequestShapes.Schema

/-! ## Expanding references -/

/-- Replacing every reference by the definition that it designates, and the
references in there in turn, makes another node of a node. Nothing beside a
reference counts. -/
inductive Expands (definitions : Table Json) : Json → Json → Prop
  | follow {node definition result : Json} : Designates definitions node definition →
      Expands definitions definition result → Expands definitions node result
  | scalar {node : Json} : node.isContainer = false → Expands definitions node node
  | items {items : List Json} {result : Json → Json} :
      (∀ item ∈ items, Expands definitions item (result item)) →
      Expands definitions (.arr items) (.arr (items.map result))
  | members {members : List (String × Json)} {result : String × Json → Json} :
      target? (.obj members) = none →
      (∀ entry ∈ members, Expands definitions entry.2 (result entry)) →
      Expands definitions (.obj members) (.obj (members.map fun entry => (entry.1, result entry)))

theorem Designates.isContainer {definitions : Table Json} {node definition : Json}
    (h : Designates definitions node definition) : node.isContainer = true := by
  obtain ⟨name, htarget, _⟩ := h
  have hobject := isObject_of_target? htarget
  cases node with
  | obj members => rfl
  | _ => cases hobject

namespace Expands

variable {definitions later : Table Json} {node result : Json}

/-- There is one way to expand a node. -/
theorem unique (h : Expands definitions node result) {other : Json}
    (hother : Expands definitions node other) : result = other := by
  induction h generalizing other with
  | follow hdesignates _ ih =>
      cases hother with
      | follow hdesignates' hother => exact ih (hdesignates.unique hdesignates' ▸ hother)
      | scalar hscalar =>
          rw [hdesignates.isContainer] at hscalar
          cases hscalar
      | items => exact absurd rfl hdesignates.target?_ne_none
      | members hnone => exact absurd hnone hdesignates.target?_ne_none
  | @scalar node hscalar =>
      cases hother with
      | follow hdesignates =>
          rw [hdesignates.isContainer] at hscalar
          cases hscalar
      | scalar => rfl
      | items | members => cases hscalar
  | items _ ih =>
      cases hother with
      | follow hdesignates => exact absurd rfl hdesignates.target?_ne_none
      | scalar hscalar => cases hscalar
      | items hitems =>
          exact congrArg _ (List.map_congr_left fun item hmem => ih item hmem (hitems item hmem))
  | members hnone _ ih =>
      cases hother with
      | follow hdesignates => exact absurd hnone hdesignates.target?_ne_none
      | scalar hscalar => cases hscalar
      | members _ hmembers =>
          refine congrArg _ (List.map_congr_left fun entry hmem => ?_)
          rw [ih entry hmem (hmembers entry hmem)]

/-- More definitions change nothing. -/
theorem mono (h : Expands definitions node result) (hgrows : Extends definitions later) :
    Expands later node result := by
  induction h with
  | follow hdesignates _ ih =>
      obtain ⟨name, htarget, hget⟩ := hdesignates
      exact .follow ⟨name, htarget, hgrows name _ hget⟩ ih
  | scalar hscalar => exact .scalar hscalar
  | items _ ih => exact .items ih
  | members hnone _ ih => exact .members hnone ih

end Expands

/-- A node without references stays as it is. -/
theorem expands_self (definitions : Table Json) (node : Json) (h : targets node = []) :
    Expands definitions node node := by
  match node, h with
  | .obj members, h =>
      obtain ⟨hnone, hmembers⟩ := List.append_eq_nil_iff.mp h
      have hself := @Expands.members definitions members Prod.snd
        (Option.toList_eq_nil_iff.mp hnone) fun entry hmem =>
          have := List.sizeOf_lt_of_mem hmem
          expands_self definitions entry.2 (List.eq_nil_iff_forall_not_mem.mpr fun target htarget =>
            List.eq_nil_iff_forall_not_mem.mp hmembers target
              (mem_memberTargets.mpr ⟨entry, hmem, htarget⟩))
      simpa using hself
  | .arr items, h =>
      have hself := @Expands.items definitions items id fun item hmem =>
        have := List.sizeOf_lt_of_mem hmem
        expands_self definitions item (List.eq_nil_iff_forall_not_mem.mpr fun target htarget =>
          List.eq_nil_iff_forall_not_mem.mp h target (mem_itemTargets.mpr ⟨item, hmem, htarget⟩))
      simpa using hself
  | .null, _ | .bool _, _ | .int _, _ | .float _, _ | .str _, _ => exact .scalar rfl
termination_by sizeOf node
decreasing_by
  · obtain ⟨name, value⟩ := entry
    simp only [Json.obj.sizeOf_spec, Prod.mk.sizeOf_spec] at *
    omega
  · simp only [Json.arr.sizeOf_spec]
    omega

/-! ## What sharing adds -/

/-- Take the title away, and the closing to other names. -/
def bareMembers (members : List (String × Json)) : List (String × Json) :=
  Table.erase (Table.erase members "title") "additionalProperties"

/-- The schema without titles, and without what closes object schemas. -/
def bare (schema : Json) : Json := reworked bareMembers schema

theorem bare_ofArray (schema : Json) : bare (ofArray schema) = ofArray (bare schema) :=
  reworked_ofArray bareMembers schema

theorem bare_anyOf (alternatives : List Json) :
    bare (anyOf alternatives) = anyOf (alternatives.map bare) :=
  reworked_anyOf bareMembers alternatives

theorem bare_closedObject (properties : List (String × Json)) (required : List String)
    (title : String) :
    bare (closedObject properties (.arr (required.map .str)) title) =
      ofObject (properties.map fun entry => (entry.1, bare entry.2)) required := by
  rw [bare, closedObject, reworked]
  simp only [reworkedMembers, reworkedUnder, reworkedProperties_eq_map]
  rfl

/-- A node stands for a schema: if its references are expanded and what was
added is taken away, nothing but the order of members differs. -/
def Restores (definitions : Table Json) (node schema : Json) : Prop :=
  ∃ inline, Expands definitions node inline ∧ alike (bare inline) schema = true

theorem Restores.mono {definitions later : Table Json} {node schema : Json}
    (h : Restores definitions node schema) (hgrows : Extends definitions later) :
    Restores later node schema := by
  obtain ⟨inline, hexpands, halike⟩ := h
  exact ⟨inline, hexpands.mono hgrows, halike⟩

section Forms

variable {definitions : Table Json} {node schema : Json}

theorem restores_leaf {members : List (String × Json)} (h : Leaf members) :
    Restores definitions (.obj members) (.obj members) := by
  have hbare : bare (.obj members) = .obj members := by
    cases h with
    | empty => rfl
    | typed hflat | format _ hflat => cases hflat <;> rfl
  refine ⟨.obj members, expands_self definitions _ ?_, ?_⟩
  · cases h with
    | empty => rfl
    | typed hflat | format _ hflat =>
        cases hflat <;> simp [targets, memberTargets, itemTargets, target?, Json.get?, Table.get?]
  · rw [hbare]
    cases h with
    | empty => rfl
    | typed hflat | format _ hflat =>
        cases hflat <;> simp [alike, alikeMembers, alikeItems, Table.get?]

theorem restores_array (h : Restores definitions node schema) :
    Restores definitions (ofArray node) (ofArray schema) := by
  obtain ⟨inline, hexpands, halike⟩ := h
  refine ⟨ofArray inline, ?_, ?_⟩
  · have hmembers := @Expands.members definitions [("type", .str "array"), ("items", node)]
      (fun entry => if entry.1 = "items" then inline else entry.2) rfl
      (by simpa using ⟨.scalar rfl, hexpands⟩)
    simpa [ofArray] using hmembers
  · rw [bare_ofArray]
    simpa [ofArray, alike, alikeMembers, Table.get?] using halike

theorem alikeItems_of_forall₂ {items others : List Json}
    (h : List.Forall₂ (fun item other => alike item other = true) items others) :
    alikeItems items others = true := by
  induction h with
  | nil => rfl
  | cons hfirst _ ih => rw [alikeItems, hfirst, ih, Bool.and_self]

theorem restores_anyOf {nodes schemas : List Json}
    (h : List.Forall₂ (Restores definitions) nodes schemas) :
    Restores definitions (anyOf nodes) (anyOf schemas) := by
  have hall : ∀ node ∈ nodes, ∃ inline, Expands definitions node inline := fun node hmem => by
    obtain ⟨_, _, inline, hexpands, _⟩ := exists_right_of_forall₂ h hmem
    exact ⟨inline, hexpands⟩
  choose! inline hexpands using hall
  refine ⟨anyOf (nodes.map inline), ?_, ?_⟩
  · have hmembers := @Expands.members definitions [("anyOf", .arr nodes)]
      (fun _ => .arr (nodes.map inline)) rfl
      (by simpa using .items hexpands)
    simpa [anyOf] using hmembers
  · have halike : alikeItems ((nodes.map inline).map bare) schemas = true := by
      refine alikeItems_of_forall₂ ?_
      rw [List.forall₂_map_left_iff, List.forall₂_map_left_iff]
      refine (List.forall₂_and_left _ _ |>.mpr ⟨hexpands, h⟩).imp fun node schema hnode => ?_
      obtain ⟨hexpands, other, hother, halike⟩ := hnode
      rwa [hexpands.unique hother]
    rw [bare_anyOf]
    simpa [anyOf, alike, alikeMembers, Table.get?] using halike

theorem alikeMembers_of_forall {members others : List (String × Json)}
    (h : ∀ entry ∈ members, ∃ other, Table.get? others entry.1 = some other ∧
      alike entry.2 other = true) : alikeMembers members others = true := by
  induction members with
  | nil => rfl
  | cons entry rest ih =>
      obtain ⟨⟨other, hget, halike⟩, hrest⟩ := List.forall_mem_cons.mp h
      simp only [alikeMembers, hget, halike, ih hrest, Bool.and_self]

theorem alikeItems_self_strings (names : List String) :
    alikeItems (names.map .str) (names.map .str) = true :=
  alikeItems_of_forall₂ (by simp [List.forall₂_same, alike])

/-- A reference to a definition stands for an object schema, if the properties
of the definition stand for those of the same name. -/
theorem restores_object {properties others : List (String × Json)} {required : List String}
    {title final : String}
    (hget : Table.get? definitions final =
      some (closedObject others (.arr (required.map .str)) title))
    (hnone : target? (.obj others) = none) (hlength : others.length = properties.length)
    (hothers : ∀ entry ∈ others, ∃ schema, Table.get? properties entry.1 = some schema ∧
      Restores definitions entry.2 schema) :
    Restores definitions (refTo final) (ofObject properties required) := by
  have hall : ∀ entry ∈ others, ∃ inline, Expands definitions entry.2 inline ∧
      ∃ schema, Table.get? properties entry.1 = some schema ∧ alike (bare inline) schema = true := by
    intro entry hmem
    obtain ⟨schema, hschema, inline, hexpands, halike⟩ := hothers entry hmem
    exact ⟨inline, hexpands, schema, hschema, halike⟩
  choose! inline hexpands halike using hall
  have hproperties := Expands.members hnone hexpands
  have hrequired : Expands definitions (.arr (required.map .str)) (.arr (required.map .str)) :=
    expands_self definitions _ (itemTargets_strings required)
  refine ⟨closedObject (others.map fun entry => (entry.1, inline entry))
    (.arr (required.map .str)) title, .follow ⟨final, target?_refTo final, hget⟩ ?_, ?_⟩
  · have hmembers := @Expands.members definitions
      (closedObject others (.arr (required.map .str)) title).members
      (fun entry => if entry.1 = "properties" then
        .obj (others.map fun entry => (entry.1, inline entry)) else entry.2) rfl
      (by simpa [closedObject, Json.members] using
        ⟨.scalar rfl, .scalar rfl, hproperties, hrequired, .scalar rfl⟩)
    simpa [closedObject, Json.members] using hmembers
  · rw [bare_closedObject, List.map_map]
    have hmembers := @alikeMembers_of_forall (others.map
      ((fun entry => (entry.1, bare entry.2)) ∘ fun entry => (entry.1, inline entry)))
      properties fun entry hmem => by
        obtain ⟨node, hnode, rfl⟩ := List.mem_map.mp hmem
        exact halike node hnode
    simp [ofObject, alike, alikeMembers, Table.get?, hmembers, hlength, alikeItems_self_strings]

end Forms

/-! ## Sharing -/

/-- What is shared stands for the schema, whatever is defined already. -/
def Restorable (schema : Json) : Prop :=
  ∀ definitions name, Layered definitions →
    Restores (share definitions schema name).2 (share definitions schema name).1 schema

theorem shareItems_restores {schemas : List Json}
    (h : ∀ schema ∈ schemas, Shareable schema ∧ Restorable schema) (definitions : Table Json)
    (name : String) (hlayered : Layered definitions) :
    Extends definitions (shareItems definitions schemas name).2 ∧
      List.Forall₂ (Restores (shareItems definitions schemas name).2)
        (shareItems definitions schemas name).1 schemas := by
  induction schemas generalizing definitions with
  | nil =>
      rw [shareItems]
      exact ⟨.refl _, .nil⟩
  | cons schema rest ih =>
      obtain ⟨⟨hshareable, hrestorable⟩, hrest⟩ := List.forall_mem_cons.mp h
      have hshares := hshareable definitions name hlayered
      obtain ⟨hgrows, hall⟩ := ih hrest _ hshares.layered
      rw [shareItems]
      exact ⟨hshares.grows.trans hgrows, .cons ((hrestorable definitions name hlayered).mono hgrows) hall⟩

/-- More definitions keep what relates nodes to schemas. -/
def Lasting (Rel : Table Json → Json → Json → Prop) : Prop :=
  ∀ earlier later node schema, Extends earlier later → Rel earlier node schema →
    Rel later node schema

/-- What is shared is related to the schema, whatever is defined already. -/
def SharedAs (Rel : Table Json → Json → Json → Prop) (schema : Json) : Prop :=
  ∀ definitions name, Layered definitions →
    Rel (share definitions schema name).2 (share definitions schema name).1 schema

section SharedAs

variable {Rel : Table Json → Json → Json → Prop}

theorem shareMembers_forall₂ (hlasting : Lasting Rel) {members : List (String × Json)}
    (h : ∀ entry ∈ members, Shareable entry.2 ∧ SharedAs Rel entry.2) (definitions : Table Json)
    (hlayered : Layered definitions) :
    Extends definitions (shareMembers definitions members).2 ∧
      List.Forall₂ (fun node entry => entry.1 = node.1 ∧
        Rel (shareMembers definitions members).2 node.2 entry.2)
        (shareMembers definitions members).1 members := by
  induction members generalizing definitions with
  | nil =>
      rw [shareMembers]
      exact ⟨.refl _, .nil⟩
  | cons entry rest ih =>
      obtain ⟨property, schema⟩ := entry
      obtain ⟨⟨hshareable, hshared⟩, hrest⟩ := List.forall_mem_cons.mp h
      have hshares := hshareable definitions (propertyShapeName property) hlayered
      obtain ⟨hgrows, hall⟩ := ih hrest _ hshares.layered
      rw [shareMembers]
      exact ⟨hshares.grows.trans hgrows,
        .cons ⟨rfl, hlasting _ _ _ _ hgrows (hshared definitions _ hlayered)⟩ hall⟩

theorem length_eq_of_get?_eq {α : Type} {first second : Table α}
    (hfirst : (Table.names first).Nodup) (hsecond : (Table.names second).Nodup)
    (h : ∀ name, Table.get? first name = Table.get? second name) :
    first.length = second.length := by
  have hperm : (Table.names first).Perm (Table.names second) := by
    refine (List.perm_ext_iff_of_nodup hfirst hsecond).mpr fun name => ?_
    rw [← Table.has_iff_mem_names, ← Table.has_iff_mem_names, Table.has, Table.has, h]
  simpa [Table.names] using hperm.length_eq

/-- An object schema becomes a reference to a shape with as many properties, each
of which is related to the property of its name. -/
theorem share_object (hlasting : Lasting Rel) {properties : List (String × Json)}
    {required : List String} (hnodup : (Table.names properties).Nodup)
    (h : ∀ entry ∈ properties, Shareable entry.2 ∧ SharedAs Rel entry.2)
    (definitions : Table Json) (name : String) (hlayered : Layered definitions) :
    ∃ final later others title,
      share definitions (ofObject properties required) name = (refTo final, later) ∧
        Table.get? later final = some (closedObject others (.arr (required.map .str)) title) ∧
        target? (.obj others) = none ∧ (Table.names others).Nodup ∧
        others.length = properties.length ∧
        ∀ entry ∈ others, ∃ schema, Table.get? properties entry.1 = some schema ∧
          Rel later entry.2 schema := by
  obtain ⟨_, hnodes⟩ := shareMembers_forall₂ hlasting h definitions hlayered
  obtain ⟨entries, hproperties, hentries, hall⟩ :=
    shareMembers_ok (fun entry hmem => (h entry hmem).1) definitions hlayered
  rw [share_ofObject]
  generalize shareMembers definitions properties = shared at hnodes hentries hall ⊢
  obtain ⟨nodes, middle⟩ := shared
  have hshape : IsShape middle nodes := by
    have hnames : (Table.names entries).Nodup := by
      simpa [hproperties, Table.names, Function.comp_def] using hnodup
    have hnodes' : nodes = entries.map fun entry => (entry.1, entry.2.2) := hentries
    exact hnodes' ▸ hall.isShape hnames
  obtain ⟨final, later, hregister, hcases⟩ := register_ok hall.layered hshape required name name
  simp only [hregister]
  obtain ⟨_, hfound⟩ := get?_of_forall₂ hnodes
  -- the definition has the properties just shared, or others that are the same
  have hrelated {others : List (String × Json)} (hothers : IsShape middle others)
      (hgrows : Extends middle later)
      (hsame : ∀ name, Table.get? others name = Table.get? nodes name) :
      target? (.obj others) = none ∧ (Table.names others).Nodup ∧
        others.length = properties.length ∧
        ∀ entry ∈ others, ∃ schema, Table.get? properties entry.1 = some schema ∧
          Rel later entry.2 schema := by
    refine ⟨target?_properties hothers.drafted, hothers.nodup, ?_, fun entry hmem => ?_⟩
    · rw [length_eq_of_get?_eq hothers.nodup hshape.nodup hsame, hnodes.length_eq]
    · have hnode := Table.get?_of_mem hothers.nodup hmem
      rw [hsame] at hnode
      obtain ⟨schema, hschema, hrel⟩ := hfound entry.1 entry.2 hnode
      exact ⟨schema, hschema, hlasting _ _ _ _ hgrows hrel⟩
  rcases hcases with ⟨hfresh, rfl⟩ | ⟨rfl, others, title, hget, hothers, hsame⟩
  · exact ⟨final, _, nodes, final, rfl, Table.get?_set_self _ _ _,
      hrelated hshape (.set hfresh _) fun _ => rfl⟩
  · exact ⟨final, _, others, title, rfl, hget, hrelated hothers (.refl _) hsame⟩

end SharedAs

theorem restorable_leaf {members : List (String × Json)} (h : Leaf members) :
    Restorable (.obj members) := by
  intro definitions name _
  rw [share_leaf h]
  exact restores_leaf h

theorem restorable_array {schema : Json} (h : Restorable schema) : Restorable (ofArray schema) := by
  intro definitions name hlayered
  rw [share_ofArray]
  exact restores_array (h definitions name hlayered)

theorem restorable_anyOf {schemas : List Json}
    (h : ∀ schema ∈ schemas, Shareable schema ∧ Restorable schema) :
    Restorable (anyOf schemas) := by
  intro definitions name hlayered
  rw [share_anyOf]
  exact restores_anyOf (shareItems_restores h definitions name hlayered).2

theorem restorable_object {properties : List (String × Json)} {required : List String}
    (hnodup : (Table.names properties).Nodup)
    (h : ∀ entry ∈ properties, Shareable entry.2 ∧ Restorable entry.2) :
    Restorable (ofObject properties required) := by
  intro definitions name hlayered
  obtain ⟨final, later, others, title, hshare, hget, hnone, _, hlength, hothers⟩ :=
    share_object (fun _ _ _ _ hgrows hrestores => hrestores.mono hgrows) hnodup h definitions name
      hlayered
  rw [hshare]
  exact restores_object hget hnone hlength hothers

/-- Every inferred schema is restored. -/
theorem Normal.restorable {schema : Json} (h : Normal schema) : Restorable schema := by
  induction h with
  | empty => exact restorable_leaf .empty
  | null => exact restorable_leaf (.typed (.one (by decide) (by decide)))
  | scalar hscalar => exact restorable_leaf (hscalar.leaf hscalar.flat)
  | nullable hscalar => exact restorable_leaf (hscalar.leaf (.nullable _))
  | object hnodup hproperties ih =>
      exact restorable_object hnodup fun entry hmem => ⟨(hproperties entry hmem).shareable, ih entry hmem⟩
  | array _ ih => exact restorable_array ih
  | anyOf halternatives _ ih =>
      exact restorable_anyOf fun schema hmem => ⟨(halternatives schema hmem).shareable, ih schema hmem⟩

/-! ## Drafts -/

/-- Every list of samples has a draft. Its references are to definitions of its
own, those of a definition to earlier ones, and expanding its root gives back the
inline schema of the samples, apart from titles, closings and order. -/
theorem draft_restores (name : String) (samples : List Json)
    (h : ∀ sample ∈ samples, Distinct sample) :
    ∃ schema result, ofSamples samples = .ok schema ∧ draft name samples = .ok result ∧
      (∀ target ∈ targets result, target ∈ Table.names (definitionsOf result)) ∧
      (∀ shape node, Table.get? (definitionsOf result) shape = some node →
        ∀ target ∈ targets node, (Table.names (definitionsOf result)).idxOf target <
          (Table.names (definitionsOf result)).idxOf shape) ∧
      ∃ inline, (∀ other, Expands (definitionsOf result) ((rootOf result).erase "$schema") other ↔
          other = inline) ∧
        alike (bare inline) schema = true := by
  obtain ⟨schema, hschema, hnormal, _⟩ := ofSamples_ok h
  generalize hname : (if (Identifier.pascalCase name).isEmpty then "Root"
    else Identifier.pascalCase name) = rootName
  have hshares := hnormal.shareable [] rootName .nil
  obtain ⟨inline, hexpands, halike⟩ := hnormal.restorable [] rootName .nil
  generalize hshare : share [] schema rootName = shared at hshares hexpands
  obtain ⟨root, definitions⟩ := shared
  have hobject := hshares.drafted.isObject
  obtain ⟨hroot, hdefinitions⟩ := @parts_draftWith definitions root hobject
    (hshares.drafted.get?_eq_none (by decide))
  refine ⟨schema, draftWith root definitions, hschema, ?_, ?_, ?_, inline, fun other => ?_, halike⟩
  · rw [draft, hschema, ok_bind, draftOf_eq (hname ▸ hshare) hshares.drafted]
  · rw [hdefinitions]
    exact targets_draftWith hshares.layered hobject hshares.resolves
  · rw [hdefinitions]
    exact fun _ _ hget _ htarget => hshares.layered.idxOf_lt hget htarget
  · rw [hroot, hdefinitions, erase_declared hobject (hshares.drafted.get?_eq_none (by decide))]
    exact ⟨fun hother => hother.unique hexpands, fun heq => heq ▸ hexpands⟩

/-- Corners of two lists, which have their properties in another order. -/
def cornerSample : Json :=
  .obj [("to", .arr [.obj [("x", .int 1)], .obj [("y", .int 2)]]),
    ("more", .obj [("to", .arr [.obj [("y", .int 3)], .obj [("x", .int 4)]])])]

/-- One shape serves both lists. -/
def cornerDraft : Json :=
  draftWith (refTo "Line")
    [("To", closedObject [("x", ofType (.str "integer")), ("y", ofType (.str "integer"))]
        (.arr []) "To"),
      ("More", closedObject [("to", ofArray (refTo "To"))] (.arr [.str "to"]) "More"),
      ("Line", closedObject [("to", ofArray (refTo "To")), ("more", refTo "More")]
        (.arr [.str "to", .str "more"]) "Line")]

theorem cornerDraft_restores :
    Distinct cornerSample ∧ draft "line" [cornerSample] = .ok cornerDraft ∧
      ∃ schema inline, ofSamples [cornerSample] = .ok schema ∧
        Expands (definitionsOf cornerDraft) ((rootOf cornerDraft).erase "$schema") inline ∧
        alike (bare inline) schema = true := by
  have hdistinct : Distinct cornerSample := by decide
  have hdraft : draft "line" [cornerSample] = .ok cornerDraft := by decide +kernel
  obtain ⟨schema, result, hschema, hresult, _, _, inline, hexpands, halike⟩ :=
    draft_restores "line" [cornerSample] (List.forall_mem_singleton.mpr hdistinct)
  obtain rfl := Except.ok.inj (hdraft.symm.trans hresult)
  exact ⟨hdistinct, hdraft, schema, inline, hschema, (hexpands inline).mpr rfl, halike⟩

end RequestShapes.Schema
