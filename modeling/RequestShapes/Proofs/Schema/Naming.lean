import RequestShapes.Proofs.Identifier
import RequestShapes.Proofs.Schema.Adoption
import RequestShapes.Proofs.Schema.Sharing
import RequestShapes.Proofs.Schema.Inferring

/-!
# Names of definitions

The definitions of a schema are named by keys and by ways to them, numbered where
a name is taken. So their names are identifiers, and distinct; none is the name of
the root or reserved.
-/

namespace RequestShapes.Schema

open Identifier (BeginsLarge IsAlphanumeric beginsLarge_iff beginsSmall pascalCase)

theorem isAlphanumeric_numbered {name : String} (h : IsAlphanumeric name) (attempt : Nat) :
    IsAlphanumeric (numbered name attempt) := by
  unfold numbered
  split
  · exact h
  · exact h.append (Identifier.isAlphanumeric_toString attempt)

/-- Every way hands on that names are identifiers. -/
theorem nameInvariant_isAlphanumeric : NameInvariant IsAlphanumeric where
  member _ key h := h.append (Identifier.isAlphanumeric_pascalCase key)
  item _ h := h.append (by simp [IsAlphanumeric])
  number _ attempt h := isAlphanumeric_numbered h attempt

/-- Every way hands on that a name begins with no small letter. -/
theorem nameInvariant_beginsLarge : NameInvariant BeginsLarge where
  member _ _ h := h.append _
  item _ h := h.append _
  number name attempt h := by
    unfold numbered
    split
    · exact h
    · exact h.append _

/-! ## Names of drafts -/

/-- All names of a table have a property. -/
def AllNamed (Holds : String → Prop) (definitions : Table Json) : Prop :=
  ∀ name ∈ Table.names definitions, Holds name

/-- An inline schema describes a property, be it deep inside. -/
inductive HasProperty : Json → String → Prop
  | own {schema : Json} {members : List (String × Json)} {key : String} :
      schema.get? "properties" = some (.obj members) → key ∈ Table.names members →
      HasProperty schema key
  | inner {schema : Json} {members : List (String × Json)} {entry : String × Json} {key : String} :
      schema.get? "properties" = some (.obj members) → entry ∈ members →
      HasProperty entry.2 key → HasProperty schema key
  | item {schema items : Json} {key : String} : schema.get? "items" = some items →
      HasProperty items key → HasProperty schema key
  | alternative {schema alternative : Json} {alternatives : List Json} {key : String} :
      schema.get? "anyOf" = some (.arr alternatives) → alternative ∈ alternatives →
      HasProperty alternative key → HasProperty schema key

theorem sizeOf_listed_lt {node : Json} {name : String} {items : List Json}
    (h : node.get? name = some (.arr items)) : sizeOf items < sizeOf node := by
  have hlt := Json.sizeOf_get?_lt h
  simp only [Json.arr.sizeOf_spec] at hlt
  omega

section Sharing

variable {Holds : String → Prop}

theorem AllNamed.set {definitions : Table Json} (h : AllNamed Holds definitions)
    {name : String} (hname : Holds name) (node : Json) :
    AllNamed Holds (Table.set definitions name node) := by
  intro other hmem
  rcases Table.mem_names_set.mp hmem with rfl | hmem
  · exact hname
  · exact h other hmem

theorem register_named (hinvariant : NameInvariant Holds) {definitions : Table Json}
    (h : AllNamed Holds definitions) (shape : Json) {name : String} (hname : Holds name) :
    AllNamed Holds (register definitions shape name).2 := by
  unfold register
  dsimp only
  split
  · exact h
  · obtain ⟨final, _, _, heq, _⟩ := firstNumbered_eq _ name definitions.length 1
    rw [heq]
    exact h.set (hinvariant.number name final hname) _

mutual

/-- Shapes are named after properties, but for the outermost ones. -/
theorem share_named (hinvariant : NameInvariant Holds) {definitions : Table Json}
    (h : AllNamed Holds definitions) (schema : Json) {name : String} (hname : Holds name)
    (hkeys : ∀ key, HasProperty schema key → Holds (propertyShapeName key)) :
    AllNamed Holds (share definitions schema name).2 := by
  rw [share]
  split
  next members hget =>
    have hlt : sizeOf members < sizeOf schema := sizeOf_listed_lt hget
    exact shareItems_named hinvariant h members hname fun alternative hmem key hkey =>
      hkeys key (.alternative hget hmem hkey)
  next =>
    split
    next =>
      split
      next items hget =>
        have hlt : sizeOf items < sizeOf schema := Json.sizeOf_get?_lt hget
        exact share_named hinvariant h items hname fun key hkey => hkeys key (.item hget hkey)
      next => exact h
    next =>
      split
      next =>
        split
        next members hget =>
          have hlt : sizeOf members < sizeOf schema := sizeOf_properties_lt hget
          have hmembers := shareMembers_named hinvariant h members fun entry hmem =>
            ⟨hkeys _ (.own hget (List.mem_map_of_mem hmem)),
              fun key hkey => hkeys key (.inner hget hmem hkey)⟩
          exact register_named hinvariant hmembers _ hname
        next => exact h
      next => exact h
termination_by sizeOf schema

theorem shareItems_named (hinvariant : NameInvariant Holds) {definitions : Table Json}
    (h : AllNamed Holds definitions) (schemas : List Json) {name : String} (hname : Holds name)
    (hkeys : ∀ schema ∈ schemas, ∀ key, HasProperty schema key → Holds (propertyShapeName key)) :
    AllNamed Holds (shareItems definitions schemas name).2 := by
  cases schemas with
  | nil =>
      rw [shareItems]
      exact h
  | cons schema rest =>
      obtain ⟨hschema, hrest⟩ := List.forall_mem_cons.mp hkeys
      rw [shareItems]
      exact shareItems_named hinvariant (share_named hinvariant h schema hname hschema) rest hname hrest
termination_by sizeOf schemas

theorem shareMembers_named (hinvariant : NameInvariant Holds) {definitions : Table Json}
    (h : AllNamed Holds definitions) (members : List (String × Json))
    (hkeys : ∀ entry ∈ members, Holds (propertyShapeName entry.1) ∧
      ∀ key, HasProperty entry.2 key → Holds (propertyShapeName key)) :
    AllNamed Holds (shareMembers definitions members).2 := by
  match members, hkeys with
  | [], _ =>
      rw [shareMembers]
      exact h
  | (property, schema) :: rest, hkeys =>
      obtain ⟨⟨hproperty, hschema⟩, hrest⟩ := List.forall_mem_cons.mp hkeys
      rw [shareMembers]
      exact shareMembers_named hinvariant (share_named hinvariant h schema hproperty hschema) rest hrest
termination_by sizeOf members

end

theorem draftOf_named (hinvariant : NameInvariant Holds) {schema : Json} {name : String}
    (hname : Holds (pascalCase name)) (hroot : Holds "Root")
    (hkeys : ∀ key, HasProperty schema key → Holds (propertyShapeName key)) :
    AllNamed Holds (definitionsOf (draftOf schema name)) := by
  have hdefinitions : definitionsOf (draftOf schema name) =
      (share [] schema (if (pascalCase name).isEmpty then "Root" else pascalCase name)).2 := by
    unfold draftOf
    dsimp only
    generalize share [] schema _ = shared
    simp [definitionsOf, Json.set, Json.get?, Json.members]
  have hnone : AllNamed Holds [] := fun _ hmem => (by cases hmem)
  rw [hdefinitions]
  refine share_named hinvariant hnone schema ?_ hkeys
  split
  · exact hroot
  · exact hname

end Sharing

/-- Inlining the root adds no definition. -/
theorem inlineRoot_named {Holds : String → Prop} {draft inlined : Json}
    (h : inlineRoot draft = .ok inlined) (hdraft : AllNamed Holds (definitionsOf draft)) :
    AllNamed Holds (definitionsOf inlined) := by
  rw [inlineRoot] at h
  dsimp only at h
  split at h
  next =>
    cases h
    exact hdraft
  next target _ =>
    split at h
    next =>
      cases h
      exact hdraft
    next =>
      split at h
      next => cases h
      next =>
        cases h
        intro name hmem
        refine hdraft name ?_
        rw [definitionsOf, Json.set, Json.get?, Table.get?_set_self] at hmem
        obtain ⟨entry, hentry, rfl⟩ := List.mem_map.mp hmem
        exact List.mem_map_of_mem (List.mem_of_mem_filter hentry)

theorem isAlphanumeric_propertyShapeName (property : String) :
    IsAlphanumeric (propertyShapeName property) := by
  unfold propertyShapeName
  dsimp only
  split
  · simp [IsAlphanumeric]
  · exact Identifier.isAlphanumeric_pascalCase property

theorem beginsLarge_propertyShapeName {property : String}
    (h : beginsSmall (pascalCase property) = false) : BeginsLarge (propertyShapeName property) := by
  unfold propertyShapeName
  dsimp only
  split
  · exact ⟨_, rfl, by decide⟩
  next hempty => exact beginsLarge_iff.mpr ⟨by simpa using hempty, h⟩

/-! ## Properties are keys -/

/-- A value has a key, be it deep inside. -/
inductive HasKey : Json → String → Prop
  | own {members : List (String × Json)} {key : String} : key ∈ Table.names members →
      HasKey (.obj members) key
  | inner {members : List (String × Json)} {entry : String × Json} {key : String} :
      entry ∈ members → HasKey entry.2 key → HasKey (.obj members) key
  | item {items : List Json} {item : Json} {key : String} : item ∈ items → HasKey item key →
      HasKey (.arr items) key

theorem not_hasProperty_leaf {members : List (String × Json)} (h : Leaf members) (key : String) :
    ¬ HasProperty (.obj members) key := by
  have hnone : Table.get? members "properties" = none ∧ Table.get? members "items" = none ∧
      Table.get? members "anyOf" = none := by
    cases h <;> simp [Table.get?]
  rintro (⟨hget, _⟩ | ⟨hget, _⟩ | ⟨hget, _⟩ | ⟨hget, _⟩) <;>
    simp [Json.get?, hnone.1, hnone.2.1, hnone.2.2] at hget

/-- The properties of a schema are keys of what it summarizes. -/
theorem Summarizes.hasKey {sample : Json} {observed : Observed} {schema : Json}
    (h : Summarizes observed schema)
    (hkeys : ∀ value key, observed value → HasKey value key → HasKey sample key) {key : String}
    (hkey : HasProperty schema key) : HasKey sample key := by
  induction h with
  | empty => exact absurd hkey (not_hasProperty_leaf .empty key)
  | null => exact absurd hkey (not_hasProperty_leaf (.typed (.one (by decide) (by decide))) key)
  | scalar hscalar => exact absurd hkey (not_hasProperty_leaf (hscalar.leaf hscalar.flat) key)
  | nullable hscalar => exact absurd hkey (not_hasProperty_leaf (hscalar.leaf (.nullable _)) key)
  | @object observed properties required _ _ _ _ hnames _ _ ih =>
      cases hkey with
      | own hget hmem =>
          cases hget
          obtain ⟨members, hmembers, hname⟩ := (hnames key).mp hmem
          exact hkeys _ key hmembers (.own hname)
      | inner hget hmem hkey =>
          cases hget
          exact ih _ hmem (fun value other ⟨members, hmembers, hvalue⟩ hother =>
            hkeys _ other hmembers (.inner (Table.mem_of_get? hvalue) hother)) hkey
      | item hget => cases hget
      | alternative hget => cases hget
  | @array observed schema _ _ _ ih =>
      cases hkey with
      | own hget => cases hget
      | inner hget => cases hget
      | item hget hkey =>
          cases hget
          exact ih (fun value other ⟨items, hitems, hvalue⟩ hother =>
            hkeys _ other hitems (.item hvalue hother)) hkey
      | alternative hget => cases hget
  | @anyOf observed parts nullable _ _ _ _ hjoined ih =>
      cases hkey with
      | own hget => cases hget
      | inner hget => cases hget
      | item hget => cases hget
      | alternative hget hmem hkey =>
          cases hget
          obtain ⟨part, hpart, rfl⟩ := List.mem_map.mp hmem
          rcases List.mem_append.mp hpart with hpart' | hnull
          · exact ih part hpart' (fun value other hvalue =>
              hkeys value other ((hjoined value).mpr ⟨part, hpart, hvalue⟩)) hkey
          · have hleaf : part.2 = nullType := by
              cases nullable with
              | false => cases hnull
              | true => rw [List.mem_singleton.mp hnull]
            rw [hleaf] at hkey
            exact absurd hkey (not_hasProperty_leaf (.typed (.one (by decide) (by decide))) key)

/-- The shapes of a sample are named after the root and after keys. -/
theorem draft_named {Holds : String → Prop} (hinvariant : NameInvariant Holds) {name : String}
    {sample draft : Json} (h : Schema.draft name [sample] = .ok draft) (hdistinct : Distinct sample)
    (hname : Holds (pascalCase name)) (hroot : Holds "Root")
    (hkeys : ∀ key, HasKey sample key → Holds (propertyShapeName key)) :
    AllNamed Holds (definitionsOf draft) := by
  obtain ⟨schema, hschema, hsummarizes⟩ :=
    ofSamples_summarizes (List.forall_mem_singleton.mpr hdistinct)
  rw [Schema.draft, hschema] at h
  cases h
  refine draftOf_named hinvariant hname hroot fun key hkey => hkeys key (hsummarizes.hasKey ?_ hkey)
  exact fun value key hmem => List.mem_singleton.mp hmem ▸ id

/-! ## Names of lifted definitions -/

theorem Adds.of_names {Holds : String → Prop} {reserved : List String}
    {definitions others later : Table Json} (h : Adds Holds reserved definitions later)
    (hsame : Table.names definitions = Table.names others) : Adds Holds reserved others later := by
  rwa [Adds, ← hsame]

section Adopting

variable {Holds : String → Prop} (hinvariant : NameInvariant Holds)
  {scope : Scope} {root root' : Json} {definitions later : Table Json}

include hinvariant

/-- Taking a definition over adds its name, and those of what is lifted in it. -/
theorem adoptOne_adds {target : String} {node : Json} (htarget : Holds target)
    (h : adoptOne scope root definitions target node = .ok (root', later)) :
    Adds Holds scope.reserved definitions later := by
  obtain ⟨name, lifted, middle, hname, hlifted, _, rfl⟩ := adoptOne_eq_ok h
  have hfresh := Adds.fresh hinvariant hname htarget (retarget target name node)
  have hholds : Holds name := hname ▸ hinvariant.freshFor scope definitions htarget
  have hbody := ((lifts_of_liftProperties hlifted).adds hinvariant hholds).finish lifted
  have hnew : name ∉ Table.names definitions := hname ▸ (scope.freshFor_not_mem definitions target).1
  have hsame : Table.names (Table.set (definitions.map fun entry =>
      (entry.1, retarget target name entry.2)) name (retarget target name node)) =
      Table.names (Table.set definitions name (retarget target name node)) := by
    rw [Table.names_set_of_not_mem hnew,
      Table.names_set_of_not_mem (by rwa [names_map_retarget]), names_map_retarget]
  exact hfresh.trans (hbody.of_names hsame)

/-- So does taking over one definition after the other. -/
theorem adopt_adds {fuel : Nat} (hsource : ∀ name ∈ Table.names scope.pending, Holds name)
    (h : adopt scope fuel root definitions = .ok (root', later)) :
    Adds Holds scope.reserved definitions later := by
  refine (adopt_invariant (fun _ _ later => Adds Holds scope.reserved definitions later) ?_
    (.refl _) h).1
  intro _ _ middle target node _ _ hadds hmissing hone
  obtain ⟨_, _, hget⟩ := missing?_eq_some hmissing
  exact hadds.trans (adoptOne_adds hinvariant (hsource target (Table.mem_names_of_get? hget)) hone)

/-- The definitions of a lifted schema have distinct names, none of which is the
name of the root or reserved. They have every property that the root has and that
the ways hand on, if the definitions of the draft have it too. -/
theorem liftWithin_adds {limit fuel : Nat} {draft result : Json} {rootName : String}
    {reserved : List String} (hroot : Holds rootName)
    (hsource : ∀ name ∈ Table.names (definitionsOf draft), Holds name)
    (h : liftWithin limit fuel draft rootName reserved = .ok result) :
    Adds Holds (rootName :: reserved) [] (definitionsOf result) := by
  obtain ⟨root, definitions, hlift, hadopt⟩ := liftWithin_phases h
  exact (liftRoot_adds hinvariant hlift hroot).trans (adopt_adds hinvariant hsource hadopt)

theorem lift_adds {draft result : Json} {rootName : String} {reserved : List String}
    (hroot : Holds rootName) (hsource : ∀ name ∈ Table.names (definitionsOf draft), Holds name)
    (h : lift draft rootName reserved = .ok result) :
    Adds Holds (rootName :: reserved) [] (definitionsOf result) :=
  liftWithin_adds hinvariant hroot hsource (lift_eq_liftWithin draft rootName reserved ▸ h)

end Adopting

end RequestShapes.Schema
