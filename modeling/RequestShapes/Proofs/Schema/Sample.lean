import RequestShapes.Proofs.Schema.Evaluation
import RequestShapes.Proofs.Schema.Inferring
import RequestShapes.Proofs.Schema.Mixed
import RequestShapes.Proofs.Schema.Sharing

/-!
# Samples and the schemas made from them

A sample is accepted by the draft that is inferred from it. Lifting the draft
keeps this, unless a reference is captured by a definition that accepts less.
-/

namespace RequestShapes.Schema

/-! ## Roots -/

/-- A root with the dialect that it declares. -/
def declared (root : Json) : Json := .obj (("$schema", .str dialect) :: root.members)

/-- The root of a draft that is no reference: a node of the draft or a shape. -/
inductive IsRoot (definitions : Table Json) : Json → Prop
  | node {root : Json} : Drafted root → target? root = none → IsRoot definitions root
  | shape {properties : List (String × Json)} {required : List String} {title : String} :
      IsShape definitions properties →
      IsRoot definitions (closedObject properties (.arr (required.map .str)) title)

section Declared

variable {root : Json}

theorem get?_declared (hobject : root.isObject = true) {name : String}
    (hname : name ≠ "$schema") : (declared root).get? name = root.get? name := by
  cases root with
  | obj members => simp [declared, Json.members, Json.get?, Table.get?, hname.symm]
  | _ => simp [Json.isObject] at hobject

theorem isArray_declared (hobject : root.isObject = true) :
    isArray (declared root) = isArray root := by
  rw [isArray, isArray, get?_declared hobject (by decide)]

theorem target?_declared (hobject : root.isObject = true) :
    target? (declared root) = target? root := by
  rw [target?, target?, get?_declared hobject (by decide)]

theorem itemsOf_declared (hobject : root.isObject = true) :
    itemsOf (declared root) = itemsOf root := by
  rw [itemsOf, itemsOf, get?_declared hobject (by decide)]

theorem targets_declared (hobject : root.isObject = true) :
    targets (declared root) = targets root := by
  have htarget := target?_declared hobject
  cases root with
  | obj members =>
      simp only [declared, Json.members] at htarget ⊢
      simp [targets, memberTargets, htarget]
  | _ => simp [Json.isObject] at hobject

/-- The dialect can be taken away again. -/
theorem erase_declared (hobject : root.isObject = true) (hnone : root.get? "$schema" = none) :
    (declared root).erase "$schema" = root := by
  cases root with
  | obj members =>
      have hrest := Table.erase_of_not_mem (Table.get?_eq_none_iff.mp hnone)
      simpa [declared, Json.members, Json.erase, Table.erase] using hrest
  | _ => simp [Json.isObject] at hobject

theorem accepts_declared {definitions : Table Json} {value : Json}
    (hobject : root.isObject = true) (hnone : target? root = none)
    (h : Accepts (unfolding definitions root) value) :
    Accepts (unfolding definitions (declared root)) value := by
  have hnone' : target? (declared root) = none := (target?_declared hobject).trans hnone
  refine h.congr ((unfolding_nil hnone' _).mpr rfl) fun name hname rest => ?_
  have hne : name ≠ "$schema" := by
    rintro rfl
    exact absurd hname (by decide)
  have hchild : child? (declared root) (.member name) = child? root (.member name) := by
    rw [child?, child?, isArray_declared hobject, itemsOf_declared hobject,
      get?_declared hobject hne]
  funext shown
  apply propext
  rw [unfolding_cons hnone, unfolding_cons hnone', hchild]

theorem Solid.declared {source : Table Json} (hobject : root.isObject = true)
    (h : Solid source root) : Solid source (Schema.declared root) := by
  cases h with
  | intro hnone hproperties hitems =>
      refine .intro ((target?_declared hobject).trans hnone) ?_ ?_
      · rw [get?_declared hobject (by decide)]
        exact hproperties
      · rw [isArray_declared hobject, itemsOf_declared hobject]
        exact hitems

theorem Orderly.declared (hobject : root.isObject = true) (h : Orderly root) :
    Orderly (Schema.declared root) := by
  cases h with
  | intro hitems hinner hproperties =>
      refine .intro ?_ ?_ ?_
      · rw [isArray_declared hobject, itemsOf_declared hobject]
        exact hitems
      · rw [isArray_declared hobject, itemsOf_declared hobject]
        exact hinner
      · rw [get?_declared hobject (by decide)]
        exact hproperties

end Declared

/-! ## Nodes of drafts can be lifted -/

section Drafted

variable {definitions : Table Json}

theorem Leaf.plain {members : List (String × Json)} (h : Leaf members) :
    target? (.obj members) = none ∧ isArray (.obj members) = false ∧
      Table.get? members "properties" = none := by
  cases h with
  | empty => exact ⟨rfl, rfl, rfl⟩
  | typed hflat | format _ hflat =>
      cases hflat <;> simp_all [target?, isArray, Json.get?, Table.get?]

/-- The members that nodes of drafts have. -/
theorem Drafted.get?_eq_none {node : Json} (h : Drafted node) {name : String}
    (hname : name ∉ ["type", "format", "$ref", "items", "anyOf"]) : node.get? name = none := by
  simp only [List.mem_cons, List.not_mem_nil, or_false, not_or] at hname
  obtain ⟨htype, hformat, href, hitems, hany⟩ := hname
  cases h with
  | leaf hleaf => cases hleaf <;> simp [Json.get?, Table.get?, Ne.symm htype, Ne.symm hformat]
  | refTo => simp [Schema.refTo, Json.get?, Table.get?, Ne.symm href]
  | array => simp [ofArray, Json.get?, Table.get?, Ne.symm htype, Ne.symm hitems]
  | anyOf => simp [Schema.anyOf, Json.get?, Table.get?, Ne.symm hany]

theorem Drafted.solid {node : Json} (h : Drafted node)
    (hresolves : ∀ target ∈ targets node, target ∈ Table.names definitions)
    (hbare : ¬ Resolves definitions node) : Solid definitions node := by
  induction h with
  | leaf hleaf =>
      obtain ⟨hnone, harray, hproperties⟩ := hleaf.plain
      refine .intro hnone (fun members hget => ?_) (by simp [harray])
      rw [Json.get?, hproperties] at hget
      cases hget
  | refTo name => exact absurd ⟨name, hresolves name (by simp), rfl⟩ hbare
  | @array schema hschema ih =>
      refine .intro rfl (fun members hget => (by cases hget)) fun _ hnot => ?_
      rw [itemsOf_ofArray hschema.isObject] at hnot ⊢
      refine ih (fun target hmem => hresolves target ?_) hnot
      simp [ofArray, targets, memberTargets, hmem]
  | anyOf => exact .intro rfl (fun members hget => (by cases hget)) fun harray => (by cases harray)

theorem Drafted.orderly {node : Json} (h : Drafted node) : Orderly node := by
  induction h with
  | leaf hleaf =>
      obtain ⟨_, harray, hproperties⟩ := hleaf.plain
      exact .of_plain harray fun members hget => by rw [Json.get?, hproperties] at hget; cases hget
  | refTo name => exact .refTo name
  | @array schema hschema ih =>
      have hitems := itemsOf_ofArray hschema.isObject
      exact .intro (fun _ => by rw [hitems]; exact hschema.isObject) (fun _ => by rw [hitems]; exact ih)
        fun members hget => (nomatch hget)
  | anyOf => exact .of_plain rfl fun members hget => (nomatch hget)

theorem IsShape.solid {properties : List (String × Json)} (h : IsShape definitions properties)
    (required : List String) (title : String) :
    Solid definitions (closedObject properties (.arr (required.map .str)) title) := by
  refine .intro rfl (fun members hget entry hmem hnot => ?_) fun harray => (nomatch harray)
  obtain rfl : properties = members := by
    simpa [closedObject, Json.get?, Table.get?] using hget
  exact (h.drafted entry hmem).solid (fun target htarget =>
    h.resolves target (mem_memberTargets.mpr ⟨entry, hmem, htarget⟩)) hnot

theorem IsShape.orderly {properties : List (String × Json)} (h : IsShape definitions properties)
    (required : List String) (title : String) :
    Orderly (closedObject properties (.arr (required.map .str)) title) := by
  refine .intro (fun harray => (nomatch harray)) (fun harray => (nomatch harray))
    fun members hget entry hmem => ?_
  obtain rfl : properties = members := by
    simpa [closedObject, Json.get?, Table.get?] using hget
  exact (h.drafted entry hmem).orderly

theorem Layered.solid (h : Layered definitions) (name : String) (node : Json)
    (hget : Table.get? definitions name = some node) : Solid definitions node := by
  obtain ⟨_, required, title, rfl, hshape⟩ := h.isShape hget
  exact hshape.solid required title

theorem Layered.orderly (h : Layered definitions) : OrderlyTable definitions := by
  intro name node hget
  obtain ⟨_, required, title, rfl, hshape⟩ := h.isShape hget
  exact ⟨rfl, hshape.orderly required title⟩

end Drafted

/-! ## The root of an inferred draft -/

namespace IsRoot

variable {definitions : Table Json} {root : Json}

theorem isObject (h : IsRoot definitions root) : root.isObject = true := by
  cases h with
  | node hnode => exact hnode.isObject
  | shape => rfl

theorem target? (h : IsRoot definitions root) : target? root = none := by
  cases h with
  | node _ hnone => exact hnone
  | shape => rfl

theorem get?_definitions (h : IsRoot definitions root) : root.get? "definitions" = none := by
  cases h with
  | node hnode => exact hnode.get?_eq_none (by decide)
  | shape => rfl

theorem solid (h : IsRoot definitions root)
    (hresolves : ∀ target ∈ targets root, target ∈ Table.names definitions) :
    Solid definitions root := by
  cases h with
  | node hnode hnone =>
      refine hnode.solid hresolves ?_
      rintro ⟨name, _, rfl⟩
      simp at hnone
  | @shape _ required title hshape => exact hshape.solid required title

theorem orderly (h : IsRoot definitions root) : Orderly root := by
  cases h with
  | node hnode => exact hnode.orderly
  | @shape _ required title hshape => exact hshape.orderly required title

end IsRoot

/-- A draft with a root and definitions in layers. -/
def draftWith (root : Json) (definitions : Table Json) : Json :=
  (declared root).set "definitions" (.obj definitions)

section DraftWith

variable {definitions : Table Json} {root : Json}

theorem parts_draftWith (hobject : root.isObject = true)
    (hnone : root.get? "definitions" = none) :
    rootOf (draftWith root definitions) = declared root ∧
      definitionsOf (draftWith root definitions) = definitions :=
  parts_of_set rfl ((get?_declared hobject (by decide)).trans hnone) definitions

theorem targets_draftWith (hlayered : Layered definitions) (hobject : root.isObject = true)
    (hresolves : ∀ target ∈ targets root, target ∈ Table.names definitions) :
    ∀ target ∈ targets (draftWith root definitions), target ∈ Table.names definitions := by
  intro target hmem
  rcases targets_set (by decide) hmem with hmem | hmem
  · refine hresolves target ?_
    rw [← targets_declared hobject]
    rw [declared, Json.set, targets, List.mem_append] at hmem
    rw [declared, targets, List.mem_append]
    refine hmem.imp (fun htarget => ?_) memberTargets_set_null
    rwa [target?, Json.get?, Table.get?_set_of_ne _ _ (by decide)] at htarget
  · have hnone : target? (.obj definitions) = none := by
      rw [target?, Json.get?]
      split
      next hget =>
        obtain ⟨_, _, _, heq, _⟩ := hlayered.isShape hget
        cases heq
      next => rfl
    rw [targets, hnone, Option.toList_none, List.nil_append] at hmem
    obtain ⟨entry, hentry, htarget⟩ := mem_memberTargets.mp hmem
    exact hlayered.resolves (Table.get?_of_mem hlayered.nodup hentry) htarget

/-- A root that refers to a shape is replaced by it. -/
theorem inlineRoot_shape {properties : List (String × Json)} {required : List String}
    {title final : String} (hget : Table.get? definitions final =
      some (closedObject properties (.arr (required.map .str)) title)) :
    inlineRoot (draftWith (refTo final) definitions) =
      .ok (draftWith (closedObject properties (.arr (required.map .str)) title)
        (Table.erase definitions final)) := by
  obtain ⟨_, hdefinitions⟩ := @parts_draftWith definitions (refTo final) rfl rfl
  have htarget : target? (draftWith (refTo final) definitions) = some final := target?_refTo final
  rw [inlineRoot, htarget, hdefinitions]
  simp only [hget]
  rfl

/-- A root that refers to the newest definition is replaced by it. -/
theorem inlineRoot_newest {properties : List (String × Json)} {required : List String}
    {title final : String} (hfresh : final ∉ Table.names definitions) :
    inlineRoot (draftWith (refTo final) (Table.set definitions final
        (closedObject properties (.arr (required.map .str)) title))) =
      .ok (draftWith (closedObject properties (.arr (required.map .str)) title) definitions) := by
  rw [inlineRoot_shape (Table.get?_set_self definitions final _), Table.erase_set_of_not_mem hfresh]

theorem inlineRoot_node (hobject : root.isObject = true) (hnone : target? root = none) :
    inlineRoot (draftWith root definitions) = .ok (draftWith root definitions) := by
  have htarget : target? (draftWith root definitions) = none := by
    rw [← hnone, ← target?_declared hobject]
    unfold draftWith declared
    rw [Json.set, Schema.target?, Schema.target?, Json.get?, Json.get?,
      Table.get?_set_of_ne _ _ (by decide)]
  rw [inlineRoot, htarget]

end DraftWith

theorem Drafted.eq_refTo {node : Json} (h : Drafted node) {name : String}
    (htarget : target? node = some name) : node = Schema.refTo name := by
  cases h with
  | leaf hleaf =>
      rw [hleaf.plain.1] at htarget
      cases htarget
  | refTo other =>
      rw [target?_refTo] at htarget
      rw [Option.some.inj htarget]
  | array | anyOf => cases htarget

theorem draftOf_eq {schema root : Json} {name : String} {definitions : Table Json}
    (hshare : share [] schema (if (Identifier.pascalCase name).isEmpty then "Root"
      else Identifier.pascalCase name) = (root, definitions)) (hroot : Drafted root) :
    draftOf schema name = draftWith root definitions := by
  have hupdate : Table.update [("$schema", .str dialect)] root.members =
      ("$schema", .str dialect) :: root.members := by
    cases hroot with
    | leaf hleaf => cases hleaf <;> rfl
    | _ => rfl
  unfold draftOf
  simp only [hshare, hupdate]
  rfl

/-- The root of an inferred draft can be inlined: if it refers to a definition
nothing else does. What is left is the shared node, or the shape it refers to. -/
theorem inlineRoot_shared {schema : Json} (h : Normal schema) (name : String) :
    ∃ rootName node later root definitions, share [] schema rootName = (node, later) ∧
      inlineRoot (draftOf schema name) = .ok (draftWith root definitions) ∧
      IsRoot definitions root ∧ Layered definitions ∧
      (∀ target ∈ targets root, target ∈ Table.names definitions) ∧
      Extends definitions later ∧ (node = root ∨ Designates later node root) := by
  generalize hname : (if (Identifier.pascalCase name).isEmpty then "Root"
    else Identifier.pascalCase name) = rootName
  have hshares := h.shareable [] rootName .nil
  generalize hshare : share [] schema rootName = shared at hshares
  obtain ⟨root, definitions⟩ := shared
  rw [draftOf_eq (hname ▸ hshare) hshares.drafted]
  cases htarget : target? root with
  | none =>
      exact ⟨rootName, root, definitions, root, definitions, hshare,
        inlineRoot_node hshares.drafted.isObject htarget, .node hshares.drafted htarget,
        hshares.layered, hshares.resolves, .refl _, .inl rfl⟩
  | some final =>
      have hmem := hshares.resolves final (mem_targets_of_target? htarget)
      obtain rfl : root = refTo final := hshares.drafted.eq_refTo htarget
      have hlast : (Table.names definitions).getLast? = some final := by
        rcases hshares.newest with rfl | ⟨newest, hnewest, hlast⟩
        · cases hmem
        · rw [targets_refTo, List.mem_singleton] at hnewest
          rw [hlast, hnewest]
      cases hshares.layered with
      | nil => cases hmem
      | @add earlier added title properties required hearlier hfresh hshape =>
          obtain rfl : added = final := by
            simpa [Table.names_set_of_not_mem hfresh] using hlast
          have hresolves : ∀ target ∈ targets (closedObject properties
              (.arr (required.map .str)) title), target ∈ Table.names earlier := by
            rw [targets_closedObject hshape.drafted]
            exact hshape.resolves
          exact ⟨rootName, _, _, _, earlier, hshare, inlineRoot_newest hfresh, .shape hshape,
            hearlier, hresolves, .set hfresh _,
            .inr ⟨added, target?_refTo added, Table.get?_set_self _ _ _⟩⟩

/-- An inlined draft accepts what the schema describes. -/
theorem inlineRoot_draftOf {schema : Json} (h : Normal schema) (name : String) :
    ∃ root definitions, inlineRoot (draftOf schema name) = .ok (draftWith root definitions) ∧
      IsRoot definitions root ∧ Layered definitions ∧
      (∀ target ∈ targets root, target ∈ Table.names definitions) ∧
      ∀ value, Fits schema value → Accepts (unfolding definitions root) value := by
  obtain ⟨rootName, node, later, root, definitions, hshare, hinline, hroot, hlayered, hresolves,
    hextends, hplace⟩ := inlineRoot_shared h name
  refine ⟨root, definitions, hinline, hroot, hlayered, hresolves, fun value hfits => ?_⟩
  have haccepts := (h.shareable [] rootName .nil).accepts value hfits
  have hsame : unfolding later node = unfolding definitions root := by
    rw [← unfolding_extends hextends (fun _ _ hget _ hmem => hlayered.resolves hget hmem) hresolves]
    rcases hplace with rfl | hdesignates
    · rfl
    · exact unfolding_of_designates hdesignates
  rw [hshare, hsame] at haccepts
  exact haccepts

/-! ## The schema of a sample -/

/-- Every sample gets a draft that accepts it and can be lifted. The schema that
comes of it accepts the sample exactly if the draft does when captured references
are read in that schema, so always if no reference is captured. -/
theorem validates_sample_iff (name : String) (sample : Json) (reserved : List String)
    (hdistinct : Distinct sample) :
    ∃ schema inlined result, draft (Identifier.pascalCase name) [sample] = .ok schema ∧
      inlineRoot schema = .ok inlined ∧
      lift inlined (Identifier.pascalCase name) reserved = .ok result ∧
      Validates inlined sample ∧
      (Validates result sample ↔ Accepts (mixedTree inlined result
        (Captured inlined (Identifier.pascalCase name) reserved result)) sample) ∧
      ((∀ path other, ¬ Captured inlined (Identifier.pascalCase name) reserved result path other) →
        Validates result sample) := by
  obtain ⟨inferred, hinfer, hnormal, hfits⟩ := infer_ok sample hdistinct
  obtain ⟨root, definitions, hinline, hroot, hlayered, hresolves, haccepts⟩ :=
    inlineRoot_draftOf hnormal (Identifier.pascalCase name)
  obtain ⟨hrootOf, hdefinitions⟩ :=
    @parts_draftWith definitions root hroot.isObject hroot.get?_definitions
  have hdraft : Validates (draftWith root definitions) sample := by
    rw [Validates, treeOf, hrootOf, hdefinitions]
    exact accepts_declared hroot.isObject hroot.target? (haccepts sample hfits)
  have hall : ∀ target ∈ targets (draftWith root definitions),
      target ∈ Table.names (definitionsOf (draftWith root definitions)) := by
    rw [hdefinitions]
    exact targets_draftWith hlayered hroot.isObject hresolves
  have hacyclic : Acyclic (definitionsOf (draftWith root definitions)) fun _ => True := by
    rw [hdefinitions]
    exact hlayered.acyclic
  obtain ⟨result, hlift⟩ := @lift_ok (draftWith root definitions) rfl
    (by rw [hrootOf]; exact hroot.orderly.declared hroot.isObject)
    (by rw [hdefinitions]; exact hlayered.orderly) hacyclic (Identifier.pascalCase name) reserved
  have htree := treeOf_lift
    (by rw [hrootOf, hdefinitions]; exact (hroot.solid hresolves).declared hroot.isObject)
    (by rw [hdefinitions]; exact hlayered.solid) hall hacyclic hlift
  refine ⟨_, _, result, ?_, hinline, hlift, hdraft, by rw [Validates, htree], fun hnone => ?_⟩
  · rw [draft, ofSamples_singleton hinfer, ok_bind]
  · rw [Validates, htree, mixedTree_eq_treeOf hnone]
    exact hdraft

section Examples

/-- The shape of an object with one count. -/
def counted (property title : String) : Json :=
  closedObject [(property, ofType (.str "integer"))] (.arr [.str property]) title

theorem lifts_counted {scope : Scope} {definitions : Table Json} {property title path : String} :
    Lifts .body scope definitions (counted property title) path (counted property title)
      definitions :=
  .within rfl (.cons (.kept rfl rfl rfl rfl) .nil)

/-- A shop with a pet and a gap. -/
def shopSample : Json := .obj [("pets", .arr [.obj [("age", .int 1)], .null])]

def shopDraft : Json :=
  draftWith (closedObject [("pets", ofArray (anyOf [refTo "Pets", nullType]))]
    (.arr [.str "pets"]) "Shop") [("Pets", counted "age" "Pets")]

/-- The pet is taken over under a new name. -/
def shopLifted : Json :=
  draftWith (closedObject [("pets", refTo "ShopPets")] (.arr [.str "pets"]) "Shop")
    [("ShopPetsItem", anyOf [refTo "Pets2", nullType]), ("ShopPets", ofArray (refTo "ShopPetsItem")),
      ("Pets2", counted "age" "Pets")]

theorem lift_shop : lift shopDraft "Shop" ["Pets"] = .ok shopLifted := by
  have hobjects : ∀ name node, Table.get? (definitionsOf shopDraft) name = some node →
      node.isObject = true := fun name node hget => by
    cases List.mem_singleton.mp (Table.mem_of_get? hget)
    rfl
  have hitem : Lifts .item (.initial ["Shop", "Pets"] (definitionsOf shopDraft)) []
      (anyOf [refTo "Pets", nullType]) ("ShopPets" ++ "Item") (refTo "ShopPetsItem")
      [("ShopPetsItem", anyOf [refTo "Pets", nullType])] :=
    .item_moved rfl rfl rfl rfl (by decide +kernel) (.plain nofun) rfl
  have hroot : Lifts .body (.initial ["Shop", "Pets"] (definitionsOf shopDraft)) []
      (rootOf shopDraft) "Shop" (rootOf shopLifted)
      [("ShopPetsItem", anyOf [refTo "Pets", nullType]),
        ("ShopPets", ofArray (refTo "ShopPetsItem"))] :=
    .within rfl (.cons (.property_array (by decide +kernel) hitem (by decide +kernel) rfl) .nil)
  have hmissing : missing? (definitionsOf shopDraft) (rootOf shopLifted)
      [("ShopPetsItem", anyOf [refTo "Pets", nullType]), ("ShopPets", ofArray (refTo "ShopPetsItem"))] =
        some ("Pets", counted "age" "Pets") := by decide +kernel
  have hadopt : adopt (.initial ["Shop", "Pets"] (definitionsOf shopDraft)) 1
      (rootOf shopLifted) [("ShopPetsItem", anyOf [refTo "Pets", nullType]),
        ("ShopPets", ofArray (refTo "ShopPetsItem"))] =
      .ok (rootOf shopLifted, definitionsOf shopLifted) :=
    @adopt_next _ 0 _ _ _ _ "Pets2" _ _ _ hmissing rfl (by decide +kernel) hobjects lifts_counted
      (by decide +kernel)
  exact lift_eq rfl (by decide +kernel) hobjects hroot hadopt
    (Nat.one_le_of_lt (lt_adoptionBound shopDraft)) rfl

theorem shopSample_distinct : Distinct shopSample := by
  have hpet : Distinct (.obj [("age", .int 1)]) :=
    .obj (by decide) (List.forall_mem_singleton.mpr (.scalar rfl))
  refine .obj (by decide) (List.forall_mem_singleton.mpr (.arr ?_))
  exact List.forall_mem_cons.mpr ⟨hpet, List.forall_mem_singleton.mpr (.scalar rfl)⟩

theorem shop_validates_sample :
    ∃ schema, draft (Identifier.pascalCase "shop") [shopSample] = .ok schema ∧
      inlineRoot schema = .ok shopDraft ∧
      lift shopDraft (Identifier.pascalCase "shop") ["Pets"] = .ok shopLifted ∧
      Validates shopLifted shopSample := by
  obtain ⟨schema, inlined, result, hdraft, hinline, hlift, _, _, hvalid⟩ :=
    validates_sample_iff "shop" shopSample ["Pets"] shopSample_distinct
  have hname : Identifier.pascalCase "shop" = "Shop" := by decide +kernel
  have hinlined : draft "Shop" [shopSample] >>= inlineRoot = .ok shopDraft := by decide +kernel
  rw [hname] at hdraft hlift hvalid ⊢
  rw [hdraft, ok_bind, hinline] at hinlined
  cases hinlined
  rw [lift_shop] at hlift
  cases hlift
  refine ⟨schema, hdraft, hinline, lift_shop, hvalid fun path name => ?_⟩
  exact not_captured (by decide +kernel) "Shop" ["Pets"] path name

/-- A sample in which the way to one property is called like the other. -/
def crossedSample : Json :=
  .obj [("b", .obj [("q", .int 1)]), ("aB", .arr [.obj [("z", .int 1)], .null])]

def crossedDraft : Json :=
  draftWith (closedObject [("b", refTo "B"), ("aB", ofArray (anyOf [refTo "AB", nullType]))]
    (.arr [.str "b", .str "aB"]) "A") [("B", counted "q" "B"), ("AB", counted "z" "AB")]

/-- The items under `aB` are now described by the shape under `b`. -/
def crossedLifted : Json :=
  draftWith (closedObject [("b", refTo "AB"), ("aB", refTo "AAB")] (.arr [.str "b", .str "aB"]) "A")
    [("AB", counted "q" "B"), ("AABItem", anyOf [refTo "AB", nullType]),
      ("AAB", ofArray (refTo "AABItem"))]

theorem lift_crossed : lift crossedDraft "A" [] = .ok crossedLifted := by
  have hobjects : ∀ name node, Table.get? (definitionsOf crossedDraft) name = some node →
      node.isObject = true := fun name node hget => by
    rcases List.mem_pair.mp (Table.mem_of_get? hget) with heq | heq <;> cases heq <;> rfl
  have hb : Lifts .property (.initial ["A"] (definitionsOf crossedDraft)) [] (refTo "B")
      ("A" ++ Identifier.pascalCase "b") (refTo "AB") [("AB", counted "q" "B")] :=
    .property_copied rfl rfl rfl rfl rfl rfl (by decide +kernel) lifts_counted rfl
  have hitem : Lifts .item (.initial ["A"] (definitionsOf crossedDraft)) [("AB", counted "q" "B")]
      (anyOf [refTo "AB", nullType]) ("A" ++ Identifier.pascalCase "aB" ++ "Item")
      (refTo "AABItem") [("AB", counted "q" "B"), ("AABItem", anyOf [refTo "AB", nullType])] :=
    .item_moved rfl rfl rfl rfl (by decide +kernel) (.plain nofun) rfl
  have hroot : Lifts .body (.initial ["A"] (definitionsOf crossedDraft)) [] (rootOf crossedDraft)
      "A" (rootOf crossedLifted) (definitionsOf crossedLifted) :=
    .within rfl (.cons hb (.cons (.property_array (by decide +kernel) hitem (by decide +kernel) rfl)
      .nil))
  have hadopt : adopt (.initial ["A"] (definitionsOf crossedDraft)) 0
      (rootOf crossedLifted) (definitionsOf crossedLifted) =
      .ok (rootOf crossedLifted, definitionsOf crossedLifted) := by decide +kernel
  exact lift_eq rfl (by decide +kernel) hobjects hroot hadopt (Nat.zero_le _) rfl

theorem crossedSample_rejected :
    Distinct crossedSample ∧
      ∃ schema, draft (Identifier.pascalCase "A") [crossedSample] = .ok schema ∧
        inlineRoot schema = .ok crossedDraft ∧
        lift crossedDraft (Identifier.pascalCase "A") [] = .ok crossedLifted ∧
        ¬ Validates crossedLifted crossedSample := by
  have hname : Identifier.pascalCase "A" = "A" := by decide +kernel
  have hinlined : draft "A" [crossedSample] >>= inlineRoot = .ok crossedDraft := by decide +kernel
  obtain ⟨schema, hdraft, hinline⟩ := bind_eq_ok hinlined
  rw [hname]
  refine ⟨?_, schema, hdraft, hinline, lift_crossed, fun hvalid => ?_⟩
  · have hshape (name : String) : Distinct (.obj [(name, .int 1)]) :=
      .obj (by simp [Table.names]) (List.forall_mem_singleton.mpr (.scalar rfl))
    refine .obj (by decide) (List.forall_mem_cons.mpr ⟨hshape "q", ?_⟩)
    refine List.forall_mem_singleton.mpr (.arr (List.forall_mem_cons.mpr ⟨hshape "z", ?_⟩))
    exact List.forall_mem_singleton.mpr (.scalar rfl)
  · have harray : Meets (definitionsOf crossedLifted) (rootOf crossedLifted)
        [.member "properties", .member "aB"] (ofArray (refTo "AABItem")) :=
      .step rfl rfl (.step rfl rfl (.follow ⟨"AAB", rfl, rfl⟩ (.here _)))
    have hitem : Meets (definitionsOf crossedLifted) (ofArray (refTo "AABItem"))
        [.member "items"] (anyOf [refTo "AB", nullType]) :=
      .step rfl rfl (.follow ⟨"AABItem", rfl, rfl⟩ (.here _))
    obtain ⟨alternative, hmem, haccepts⟩ := ((hvalid.property harray rfl rfl).item hitem rfl
      List.mem_cons_self).alternative (.step rfl rfl (.here _))
    rcases List.mem_pair.mp hmem with rfl | rfl
    · have hrequired := haccepts.demands.required 0 "q" [("z", .int 1)]
        ⟨.str "q", .follow ⟨"AB", rfl, rfl⟩ (.step rfl rfl (.step rfl rfl (.here _))), rfl, rfl⟩ rfl
      exact absurd hrequired (by decide)
    · have hnull := haccepts.demands.type "null" ⟨.str "null", .step rfl rfl (.here _), rfl, rfl⟩
      exact absurd hnull.eq_object (by decide)

end Examples

end RequestShapes.Schema
