import RequestShapes.Proofs.Schema.AccessPaths
import RequestShapes.Proofs.Schema.Restoring

/-!
# Names do not depend on sharing

Which shapes a draft shares, and how it numbers them, leaves no trace in the
lifted schema: as long as no two ways ask for one name, it is what lifting the
inline schema itself gives.
-/

namespace RequestShapes.Schema

/-! ## What drafts stand for -/

theorem isObject_set {node : Json} (hobject : node.isObject = true) {name : String}
    {value : Json} : (node.set name value).isObject = true := by
  cases node with
  | obj members => rfl
  | _ => cases hobject

theorem set_declared {node : Json} (hobject : node.isObject = true) {name : String}
    (hname : name ≠ "$schema") {value : Json} :
    (declared node).set name value = declared (node.set name value) := by
  cases node with
  | obj members => simp [declared, Json.members, Json.set, Table.set, hname.symm]
  | _ => cases hobject

namespace Stands

variable {source earlier later : Table Json} {node schema : Json}

/-- More definitions change nothing. -/
theorem mono (h : Stands earlier node schema) (hextends : Extends earlier later) :
    Stands later node schema := by
  induction h with
  | leaf hleaf => exact .leaf hleaf
  | array hsame hbeside hitems hobject _ ih => exact .array hsame hbeside hitems hobject ih
  | record hsame hbeside hget hperm hnodup _ ih => exact .record hsame hbeside hget hperm hnodup ih
  | refers hget hrecord _ ih => exact .refers (hextends _ _ hget) hrecord ih

/-- Definitions that are not referred to are not needed. -/
theorem restrict (h : Stands later node schema) (hextends : Extends earlier later)
    (hclosed : ∀ name definition, Table.get? earlier name = some definition →
      ∀ target ∈ targets definition, target ∈ Table.names earlier)
    (hnode : ∀ target ∈ targets node, target ∈ Table.names earlier) :
    Stands earlier node schema := by
  induction h with
  | leaf hleaf => exact .leaf hleaf
  | @array node items schema hsame hbeside hitems hobject _ ih =>
      refine .array hsame hbeside hitems hobject (ih fun target hmem => hnode target ?_)
      exact targets_itemsOf_subset node (hitems ▸ hmem)
  | record hsame hbeside hget hperm hnodup _ ih =>
      refine .record hsame hbeside hget hperm hnodup fun entry hentry => ?_
      refine ih entry hentry fun target hmem => hnode target (targets_get?_subset hget ?_)
      simp only [targets, List.mem_append, mem_memberTargets]
      exact .inr ⟨_, List.mem_map_of_mem hentry, hmem⟩
  | @refers definition schema target hget hrecord _ ih =>
      obtain ⟨found, hfound⟩ := Table.exists_get?_of_mem_names (hnode target (by simp))
      obtain rfl := Option.some.inj ((hextends _ _ hfound).symm.trans hget)
      exact .refers hfound hrecord (ih (hclosed target found hfound))

/-- A node in place stands for its schema also with a dialect. -/
theorem declared (h : Stands source node schema) (hnone : Schema.target? node = none) :
    StandsAtRoot source (Schema.declared node) schema := by
  have hobject := h.isObject.1
  have hsame {member : String} {other : Json} (hbeside : SameBeside member node other) :
      SameBeside member (Schema.declared node) other := by
    intro key hadded hne
    have hother : key ≠ "$schema" := by
      rintro rfl
      exact hadded (by decide)
    rw [get?_declared hobject hother]
    exact hbeside key hadded hne
  have hbelow {name : String} (hname : name ≠ "$schema")
      (hbeside : Beside (fun _ => False) node name) :
      Beside (fun _ => False) (Schema.declared node) name := by
    intro target hmem
    rw [set_declared hobject hname, targets_declared (isObject_set hobject)] at hmem
    exact hbeside target hmem
  have htarget : Schema.target? (Schema.declared node) = none :=
    (target?_declared hobject).trans hnone
  cases h with
  | leaf hleaf =>
      refine .inr ⟨_, hleaf, rfl, (targets_declared rfl).trans hleaf.targets_eq,
        (isArray_declared rfl).trans hleaf.isArray_eq, hsame (.refl _ _), ?_⟩
      rw [get?_declared rfl (by decide), hleaf.get?_properties]
      exact .none
  | array hitems hbeside hinner hschema hstands =>
      exact .inl ⟨htarget, .array (hsame hitems) (hbelow (by decide) hbeside)
        ((itemsOf_declared hobject).trans hinner) hschema hstands⟩
  | record hproperties hbeside hget hperm hnodup hstands =>
      exact .inl ⟨htarget, .record (hsame hproperties) (hbelow (by decide) hbeside)
        ((get?_declared hobject (by decide)).trans hget) hperm hnodup hstands⟩
  | refers =>
      rw [target?_refTo] at hnone
      cases hnone

end Stands

/-! ## Inline schemas and shared ones -/

section Standing

variable {source : Table Json} {node schema : Json}

theorem Unmixed.anyOf (h : Unmixed schema) : schema.get? "anyOf" = none := by
  cases h with
  | intro hnone => exact hnone

theorem Unmixed.ofArray (h : Unmixed (ofArray schema)) : Unmixed schema := by
  cases h with
  | intro _ _ hitems => exact hitems schema rfl

theorem Unmixed.ofObject {properties : List (String × Json)} {required : List String}
    (h : Unmixed (ofObject properties required)) : ∀ entry ∈ properties, Unmixed entry.2 := by
  cases h with
  | intro _ hproperties => exact hproperties properties rfl

theorem stands_ofArray (h : Stands source node schema) :
    Stands source (ofArray node) (ofArray schema) := by
  obtain ⟨hobject, hschema⟩ := h.isObject
  refine .array (fun key _ hne => ?_) ?_ (itemsOf_ofArray hobject) hschema h
  · simp [ofArray, Json.get?, Table.get?, hne.symm]
  · intro target hmem
    simp [ofArray, Json.set, Table.set, targets, memberTargets, target?, Json.get?, Table.get?] at hmem

theorem sameBeside_closedObject (properties others : List (String × Json))
    (required : List String) (title : String) :
    SameBeside "properties" (closedObject others (.arr (required.map .str)) title)
      (ofObject properties required) := by
  intro key hadded hne
  simp only [addedMembers, List.mem_cons, List.not_mem_nil, or_false, not_or] at hadded
  obtain ⟨_, htitle, hclosing⟩ := hadded
  by_cases htype : key = "type"
  · rw [htype]
    rfl
  by_cases hrequired : key = "required"
  · rw [hrequired]
    rfl
  have hfirst : (closedObject others (.arr (required.map .str)) title).get? key = none :=
    Table.get?_eq_none_iff.mpr (by simp [Table.names, htype, hclosing, hne, hrequired, htitle])
  have hsecond : (ofObject properties required).get? key = none :=
    Table.get?_eq_none_iff.mpr (by simp [Table.names, htype, hne, hrequired])
  rw [hfirst, hsecond]

/-- A shape stands for an object schema if its properties stand for those of the
same names. -/
theorem stands_closedObject {properties others : List (String × Json)} {required : List String}
    {title : String} (hnodup : (Table.names properties).Nodup) (hnames : (Table.names others).Nodup)
    (hlength : others.length = properties.length)
    (hothers : ∀ entry ∈ others, ∃ schema, Table.get? properties entry.1 = some schema ∧
      Stands source entry.2 schema) :
    Stands source (closedObject others (.arr (required.map .str)) title)
      (ofObject properties required) := by
  choose! found hfound hstands using hothers
  have hperm : (others.map fun entry => (entry.1, found entry)).Perm properties := by
    have hnodup' : (others.map fun entry => (entry.1, found entry)).Nodup := by
      refine List.Nodup.of_map Prod.fst ?_
      simpa [Table.names, Function.comp_def] using hnames
    refine (List.subperm_of_subset hnodup' fun pair hmem => ?_).perm_of_length_le
      (by simp [hlength])
    obtain ⟨entry, hentry, rfl⟩ := List.mem_map.mp hmem
    exact Table.mem_of_get? (hfound entry hentry)
  refine @Stands.record source _ (others.map fun entry => (entry.1, entry.2, found entry))
    properties required (sameBeside_closedObject _ _ _ _) ?_ ?_ ?_ hnodup ?_
  · intro target hmem
    simp [closedObject, Json.set, Table.set, targets, memberTargets, target?, Json.get?, Table.get?,
      itemTargets_strings] at hmem
  · simp [closedObject, Json.get?, Table.get?, Function.comp_def]
  · simpa [Function.comp_def] using hperm
  · exact List.forall_mem_map.mpr fun entry hmem => hstands entry hmem

/-- An inline schema stands for itself. -/
theorem Normal.stands_self (h : Normal schema) (hunmixed : Unmixed schema) (source : Table Json) :
    Stands source schema schema := by
  induction h with
  | empty => exact .leaf .empty
  | null => exact .leaf (.typed (.one (by decide) (by decide)))
  | scalar hscalar => exact .leaf (hscalar.leaf hscalar.flat)
  | nullable hscalar => exact .leaf (hscalar.leaf (.nullable _))
  | @object properties required hnodup _ ih =>
      refine @Stands.record source (ofObject properties required)
        (properties.map fun entry => (entry.1, entry.2, entry.2)) properties required (.refl _ _)
        ?_ ?_ ?_ hnodup ?_
      · intro target hmem
        simp [ofObject, Json.set, Table.set, targets, memberTargets, target?, Json.get?, Table.get?,
          itemTargets_strings] at hmem
      · simp [ofObject, Json.get?, Table.get?, Function.comp_def]
      · simp [Function.comp_def]
      · exact List.forall_mem_map.mpr fun entry hmem => ih entry hmem (hunmixed.ofObject entry hmem)
  | array _ ih => exact stands_ofArray (ih hunmixed.ofArray)
  | anyOf => cases hunmixed.anyOf

/-- What is shared stands for the inline schema. -/
theorem Normal.stands_shared (h : Normal schema) (hunmixed : Unmixed schema) :
    SharedAs Stands schema := by
  have hleaf {members : List (String × Json)} (hleaf : Leaf members) :
      SharedAs Stands (.obj members) := by
    intro definitions name _
    rw [share_leaf hleaf]
    exact .leaf hleaf
  induction h with
  | empty => exact hleaf .empty
  | null => exact hleaf (.typed (.one (by decide) (by decide)))
  | scalar hscalar => exact hleaf (hscalar.leaf hscalar.flat)
  | nullable hscalar => exact hleaf (hscalar.leaf (.nullable _))
  | @object properties required hnodup hproperties ih =>
      intro definitions name hlayered
      obtain ⟨final, later, others, title, hshare, hget, _, hnames, hlength, hothers⟩ :=
        share_object (fun _ _ _ _ hgrows hstands => hstands.mono hgrows) hnodup
          (fun entry hmem => ⟨(hproperties entry hmem).shareable,
            ih entry hmem (hunmixed.ofObject entry hmem)⟩) definitions name hlayered
      rw [hshare]
      exact .refers hget rfl (stands_closedObject hnodup hnames hlength hothers)
  | array _ ih =>
      intro definitions name hlayered
      rw [share_ofArray]
      exact stands_ofArray (ih hunmixed.ofArray definitions name hlayered)
  | anyOf => cases hunmixed.anyOf

end Standing

/-! ## One result for both -/

theorem Free.of_names {base : String} {reserved : List String} {schema : Json}
    (hnodup : (pathNames base schema).Nodup)
    (hfree : ∀ name ∈ pathNames base schema, name ≠ base ∧ name ∉ reserved) :
    Free (base :: reserved) (pathDefinitions base schema) :=
  ⟨hnodup, fun name hmem htaken =>
    (List.mem_cons.mp htaken).elim (hfree name hmem).1 (hfree name hmem).2⟩

theorem Gains.names_nil {asked later : Table Json} (h : Gains [] asked later) :
    (Table.names later).Perm (Table.names asked) := h.names

/-- Two tables that gained the same definitions say the same under every name. -/
theorem Gains.sameNode {asked first second : Table Json} (hfirst : Gains [] asked first)
    (hsecond : Gains [] asked second) (name : String) :
    Option.Rel SameNode (Table.get? first name) (Table.get? second name) := by
  by_cases hmem : name ∈ Table.names asked
  · obtain ⟨entry, hentry, rfl⟩ := List.mem_map.mp hmem
    obtain ⟨these, hthese, hsame⟩ := hfirst.gained entry hentry
    obtain ⟨those, hthose, hother⟩ := hsecond.gained entry hentry
    rw [hthese, hthose]
    exact .some (hsame.trans hother.symm)
  · have hnone {table : Table Json} (h : Gains [] asked table) : Table.get? table name = none :=
      Table.get?_eq_none_iff.mpr fun hname => hmem (h.names_nil.mem_iff.mp hname)
    rw [hnone hfirst, hnone hsecond]
    exact .none

/-- The parts of an inline schema: it has no definitions. -/
theorem Normal.parts {schema : Json} (h : Normal schema) :
    rootOf schema = schema ∧ definitionsOf schema = [] := by
  have hnone : schema.get? "definitions" = none := by
    cases h with
    | scalar hscalar | nullable hscalar => cases hscalar <;> rfl
    | _ => rfl
  refine ⟨?_, by rw [definitionsOf, hnone]; rfl⟩
  cases schema with
  | obj members => exact congrArg _ (Table.erase_of_not_mem (Table.get?_eq_none_iff.mp hnone))
  | _ => rfl

/-- The inline schema itself is lifted to the definitions that it asks for. -/
theorem Normal.lift_self {schema : Json} (h : Normal schema) (hunmixed : Unmixed schema)
    {base : String} {reserved : List String}
    (hfree : Free (base :: reserved) (pathDefinitions base schema)) :
    ∃ result, lift schema base reserved = .ok result ∧
      SameNode (rootOf result) (shallow base schema) ∧
      Gains [] (pathDefinitions base schema) (definitionsOf result) := by
  obtain ⟨hroot, hdefinitions⟩ := h.parts
  have hstands := h.stands_self hunmixed []
  have hnone : target? schema = none := by
    rcases hstands.target? with hnone | ⟨_, _, _, hget, _⟩
    · exact hnone
    · cases hget
  refine lift_stands h.isObject ?_ (.inl ?_) hfree
  · rw [hdefinitions]
    exact .nil
  · rw [hroot, hdefinitions]
    exact ⟨hnone, hstands⟩

/-- So is the draft with shared shapes. -/
theorem Normal.lift_shared {schema : Json} (h : Normal schema) (hunmixed : Unmixed schema)
    (name : String) {base : String} {reserved : List String}
    (hfree : Free (base :: reserved) (pathDefinitions base schema)) :
    ∃ inlined result, inlineRoot (draftOf schema name) = .ok inlined ∧
      lift inlined base reserved = .ok result ∧
      SameNode (rootOf result) (shallow base schema) ∧
      Gains [] (pathDefinitions base schema) (definitionsOf result) := by
  obtain ⟨rootName, node, later, root, definitions, hshare, hinline, hroot, hlayered, hresolves,
    hextends, hplace⟩ := inlineRoot_shared h name
  have hnode : Stands later node schema := by
    have hshared := h.stands_shared hunmixed [] rootName .nil
    rwa [hshare] at hshared
  have hstands : Stands later root schema := by
    rcases hplace with rfl | ⟨final, htarget, hget⟩
    · exact hnode
    · rcases hnode.target? with hnone | ⟨target, definition, rfl, hfound, _, hinner⟩
      · rw [hnone] at htarget
        cases htarget
      · rw [target?_refTo] at htarget
        cases htarget
        cases hfound.symm.trans hget
        exact hinner
  obtain ⟨hrootOf, hdefinitions⟩ :=
    @parts_draftWith definitions root hroot.isObject hroot.get?_definitions
  have hlift := @lift_stands schema (draftWith root definitions) base reserved rfl
    (by rw [hdefinitions]; exact hlayered) (by
      rw [hrootOf, hdefinitions]
      exact (hstands.restrict hextends (fun _ _ hget _ hmem => hlayered.resolves hget hmem)
        hresolves).declared hroot.target?) hfree
  obtain ⟨result, hresult, hsame⟩ := hlift
  exact ⟨_, result, hinline, hresult, hsame⟩

/-- If the samples need no alternatives, and no two ways into their schema ask for
one name or for a name that is taken, lifting the inferred draft gives what
lifting the inline schema gives: the same root, and under the same names the same
definitions, apart from dialect, titles, closings and order. The names are those
that the ways ask for. -/
theorem lift_independent_of_sharing (name base : String) (reserved : List String)
    {samples : List Json} {schema : Json} (hdistinct : ∀ sample ∈ samples, Distinct sample)
    (hschema : ofSamples samples = .ok schema) (hunmixed : Unmixed schema)
    (hnodup : (pathNames base schema).Nodup)
    (hfree : ∀ path ∈ pathNames base schema, path ≠ base ∧ path ∉ reserved) :
    ∃ sampled inlined shared direct, draft name samples = .ok sampled ∧
      inlineRoot sampled = .ok inlined ∧ lift inlined base reserved = .ok shared ∧
      lift schema base reserved = .ok direct ∧ SameNode (rootOf shared) (rootOf direct) ∧
      (∀ path, Option.Rel SameNode (Table.get? (definitionsOf shared) path)
        (Table.get? (definitionsOf direct) path)) ∧
      (Table.names (definitionsOf shared)).Perm (pathNames base schema) ∧
      (Table.names (definitionsOf direct)).Perm (pathNames base schema) := by
  obtain ⟨found, hfound, hnormal, _⟩ := ofSamples_ok hdistinct
  obtain rfl := Except.ok.inj (hschema.symm.trans hfound)
  have hasked : Free (base :: reserved) (pathDefinitions base schema) := .of_names hnodup hfree
  obtain ⟨inlined, shared, hinline, hshared, hrootShared, hgainsShared⟩ :=
    hnormal.lift_shared hunmixed name hasked
  obtain ⟨direct, hdirect, hrootDirect, hgainsDirect⟩ := hnormal.lift_self hunmixed hasked
  refine ⟨draftOf schema name, inlined, shared, direct, ?_, hinline, hshared, hdirect,
    hrootShared.trans hrootDirect.symm, hgainsShared.sameNode hgainsDirect,
    hgainsShared.names_nil, hgainsDirect.names_nil⟩
  rw [draft, hschema, ok_bind]

/-- Two authors, one of which the draft describes by the shape of the other. -/
def blogSample : Json :=
  .obj [("author", .obj [("id", .int 1)]),
    ("post", .obj [("author", .obj [("id", .int 2)]), ("tags", .arr [])])]

def blogSchema : Json :=
  let author := ofObject [("id", ofType (.str "integer"))] ["id"]
  ofObject [("author", author),
    ("post", ofObject [("author", author), ("tags", ofArray .empty)] ["author", "tags"])]
    ["author", "post"]

theorem blogSchema_unmixed : Unmixed blogSchema := by
  have hobject {properties : List (String × Json)} {required : List String}
      (h : ∀ entry ∈ properties, Unmixed entry.2) : Unmixed (ofObject properties required) := by
    refine .intro rfl (fun members hget => ?_) nofun
    obtain rfl := Json.obj.inj (Option.some.inj hget)
    exact h
  have hnumber : Unmixed (ofType (.str "integer")) := .intro rfl nofun nofun
  have hauthor : Unmixed (ofObject [("id", ofType (.str "integer"))] ["id"]) :=
    hobject (List.forall_mem_singleton.mpr hnumber)
  have htags : Unmixed (ofArray .empty) := by
    refine .intro rfl nofun fun items hget => ?_
    obtain rfl := Option.some.inj hget
    exact .intro rfl nofun nofun
  refine hobject (List.forall_mem_cons.mpr ⟨hauthor, List.forall_mem_singleton.mpr ?_⟩)
  exact hobject (List.forall_mem_cons.mpr ⟨hauthor, List.forall_mem_singleton.mpr htags⟩)

theorem blog_independent_of_sharing :
    Distinct blogSample ∧ ofSamples [blogSample] = .ok blogSchema ∧ Unmixed blogSchema ∧
      pathNames "Body" blogSchema =
        ["BodyAuthor", "BodyPost", "BodyPostAuthor", "BodyPostTags", "BodyPostTagsItem"] ∧
      ∃ sampled inlined shared direct, draft "blog" [blogSample] = .ok sampled ∧
        inlineRoot sampled = .ok inlined ∧ lift inlined "Body" ["Author"] = .ok shared ∧
        lift blogSchema "Body" ["Author"] = .ok direct ∧ SameNode (rootOf shared) (rootOf direct) := by
  have hdistinct : Distinct blogSample := by decide
  have hschema : ofSamples [blogSample] = .ok blogSchema := by decide +kernel
  have hnames : pathNames "Body" blogSchema =
      ["BodyAuthor", "BodyPost", "BodyPostAuthor", "BodyPostTags", "BodyPostTagsItem"] := by
    decide +kernel
  refine ⟨hdistinct, hschema, blogSchema_unmixed, hnames, ?_⟩
  obtain ⟨sampled, inlined, shared, direct, hdraft, hinline, hshared, hdirect, hroot, _⟩ :=
    lift_independent_of_sharing "blog" "Body" ["Author"]
      (List.forall_mem_singleton.mpr hdistinct) hschema blogSchema_unmixed (by rw [hnames]; decide)
      (by rw [hnames]; decide)
  exact ⟨sampled, inlined, shared, direct, hdraft, hinline, hshared, hdirect, hroot⟩

end RequestShapes.Schema
