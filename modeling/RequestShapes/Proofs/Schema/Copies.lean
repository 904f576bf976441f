import RequestShapes.Proofs.Schema.Walkable

/-!
# Copies of nodes of a draft

Every emitted definition is made for one node of the draft, its origin. It is a
copy of that node in which properties and items are exchanged for references
to definitions made for them, while everything else keeps its place. A copy
unfolds like its origin as long as no reference that kept its name has come to
designate something else.
-/

namespace RequestShapes.Schema

/-- The node of the draft that a node stands for: itself or the definition
that it refers to. -/
def StandsFor (source : Table Json) (node origin : Json) : Prop :=
  origin = node ∨ Designates source node origin

/-- In place of a node stands a reference to the definition made for it. -/
def Exchanged (source origins : Table Json) (node copy : Json) : Prop :=
  node.isObject = true ∧ ∃ name origin, copy = refTo name ∧
    Table.get? origins name = some origin ∧ StandsFor source node origin

/-- A reference is turned to a definition that was made for the one it
designated, or it is one of those that may keep their names. -/
def Turned (source origins : Table Json) (kept : String → Prop) (old new : String) : Prop :=
  (new = old ∧ kept old) ∨ ∃ definition, Table.get? source old = some definition ∧
    Table.get? origins new = some definition

/-- A node of the draft and what stands in its place: a reference to the
definition made for it, or a node alike with further such places inside. -/
inductive Place (source origins : Table Json) (kept : String → Prop) : Json → Json → Prop
  | exchanged {node copy : Json} :
      Exchanged source origins node copy → Place source origins kept node copy
  | alike {node copy : Json} :
      Option.Rel (Turned source origins kept) (target? node) (target? copy) →
      label node = label copy →
      (target? node = none → ∀ step,
        Option.Rel (Place source origins kept) (child? node step) (child? copy step)) →
      Place source origins kept node copy

/-- A definition is a copy of a node of the draft. -/
structure Copies (source origins : Table Json) (kept : String → Prop) (node copy : Json) :
    Prop where
  target : Option.Rel (Turned source origins kept) (target? node) (target? copy)
  label : label node = label copy
  children : target? node = none → ∀ step,
    Option.Rel (Place source origins kept) (child? node step) (child? copy step)

theorem Copies.place {source origins : Table Json} {kept : String → Prop} {node copy : Json}
    (h : Copies source origins kept node copy) : Place source origins kept node copy :=
  .alike h.target h.label h.children

theorem rel_of_eq {α : Type} {R : α → α → Prop} {value : Option α}
    (hrefl : ∀ inner, value = some inner → R inner inner) : Option.Rel R value value := by
  cases value with
  | none => exact .none
  | some inner => exact .some (hrefl inner rfl)

theorem rel_mono {α β : Type} {R S : α → β → Prop} {first : Option α} {second : Option β}
    (hrel : Option.Rel R first second)
    (himp : ∀ value other, first = some value → second = some other → R value other →
      S value other) : Option.Rel S first second := by
  cases hrel with
  | none => exact .none
  | some h => exact .some (himp _ _ rfl rfl h)

/-- A node whose references may be kept is its own copy. -/
theorem copies_refl {source origins : Table Json} {kept : String → Prop} (node : Json)
    (hkept : ∀ name ∈ targets node, kept name) : Copies source origins kept node node := by
  refine ⟨rel_of_eq fun name htarget => .inl ⟨rfl, ?_⟩, rfl, fun _ step => ?_⟩
  · exact hkept name (mem_targets_of_target? htarget)
  · refine rel_of_eq fun inner hchild => ?_
    have := sizeOf_child?_lt hchild
    exact (copies_refl inner fun name hname =>
      hkept name (targets_child?_subset hchild hname)).place
termination_by sizeOf node

theorem place_refl {source origins : Table Json} {kept : String → Prop} (node : Json)
    (hkept : ∀ name ∈ targets node, kept name) : Place source origins kept node node :=
  (copies_refl node hkept).place

/-! ## Later definitions -/

section Extends

variable {source origins later : Table Json} {kept : String → Prop}

theorem Exchanged.extends {node copy : Json} (h : Exchanged source origins node copy)
    (hextends : Extends origins later) : Exchanged source later node copy := by
  obtain ⟨hobject, name, origin, heq, hget, hstands⟩ := h
  exact ⟨hobject, name, origin, heq, hextends name origin hget, hstands⟩

theorem Turned.extends {old new : String} (h : Turned source origins kept old new)
    (hextends : Extends origins later) : Turned source later kept old new := by
  rcases h with heq | ⟨definition, hsource, hget⟩
  · exact .inl heq
  · exact .inr ⟨definition, hsource, hextends new definition hget⟩

theorem Place.extends {node copy : Json} (h : Place source origins kept node copy)
    (hextends : Extends origins later) : Place source later kept node copy := by
  cases h with
  | exchanged h => exact .exchanged (h.extends hextends)
  | alike htarget hlabel hchildren =>
      refine .alike (rel_mono htarget fun _ _ _ _ hturned => hturned.extends hextends) hlabel
        fun hnone step => rel_mono (hchildren hnone step) fun inner other hinner _ hplace => ?_
      have := sizeOf_child?_lt hinner
      exact hplace.extends hextends
termination_by sizeOf node

theorem Copies.extends {node copy : Json} (h : Copies source origins kept node copy)
    (hextends : Extends origins later) : Copies source later kept node copy where
  target := rel_mono h.target fun _ _ _ _ hturned => hturned.extends hextends
  label := h.label
  children := fun hnone step =>
    rel_mono (h.children hnone step) fun _ _ _ _ hplace => hplace.extends hextends

end Extends

/-! ## Copies of objects -/

theorem filled?_refTo (name : String) : Json.filled? (some (refTo name)) = some (refTo name) := rfl

section Objects

variable {source origins : Table Json} {kept : String → Prop}

/-- An object is a copy if references, the type array and items agree and every
other member is a place. -/
theorem copies_of_members {members copied : List (String × Json)}
    (hkept : ∀ name, target? (.obj members) = some name → kept name)
    (htarget : target? (.obj copied) = target? (.obj members))
    (harray : isArray (.obj copied) = isArray (.obj members))
    (hitems : isArray (.obj members) = true →
      Place source origins kept (itemsOf (.obj members)) (itemsOf (.obj copied)))
    (hmembers : ∀ name, (isArray (.obj members) = true → name ≠ "items") →
      Option.Rel (Place source origins kept) (Table.get? members name)
        (Table.get? copied name)) :
    Copies source origins kept (.obj members) (.obj copied) := by
  refine ⟨?_, rfl, fun _ step => ?_⟩
  · rw [htarget]
    exact rel_of_eq fun name hname => .inl ⟨rfl, hkept name hname⟩
  · cases step with
    | item index => exact .none
    | member name =>
        simp only [child?, harray]
        split
        next h =>
          rw [Bool.and_eq_true] at h
          exact .some (hitems h.1)
        next h =>
          refine hmembers name fun hisArray hname => h ?_
          simp [hisArray, hname]

theorem Beside.place {node : Json} {name : String} (h : Beside kept node name) {other : String}
    (hne : other ≠ name) :
    Option.Rel (Place source origins kept) (node.get? other) (node.get? other) :=
  rel_of_eq fun value hget => place_refl value (h.member hne hget)

/-- One member of an object is exchanged for another one. -/
theorem copies_set {node inner copy : Json} {name : String} (hbeside : Beside kept node name)
    (href : "$ref" ≠ name) (htype : "type" ≠ name) (hitems : "items" ≠ name)
    (hget : node.get? name = some inner) (hplace : Place source origins kept inner copy) :
    Copies source origins kept node (node.set name copy) := by
  cases node with
  | obj members =>
      have hother {other : String} (hne : other ≠ name) :
          Json.get? (.obj (Table.set members name copy)) other = Json.get? (.obj members) other :=
        Table.get?_set_of_ne members copy hne
      have harray : isArray (.obj (Table.set members name copy)) = isArray (.obj members) := by
        simp only [isArray, hother htype]
      refine copies_of_members (fun _ => hbeside.reference href) ?_ harray ?_ fun other _ => ?_
      · simp only [target?, hother href]
      · intro _
        simp only [itemsOf, hother hitems]
        exact place_refl _ (hbeside.itemsOf hitems)
      · by_cases heq : other = name
        · rw [heq, Table.get?_set_self, show Table.get? members name = some inner from hget]
          exact .some hplace
        · rw [Table.get?_set_of_ne _ _ heq]
          exact hbeside.place heq
  | _ => simp [Json.get?] at hget

/-- The items of an array are exchanged for a reference. -/
theorem copies_of_items {members copied : List (String × Json)} {name : String}
    (hbeside : Beside kept (.obj members) "items")
    (hother : ∀ other, other ≠ "items" → Table.get? copied other = Table.get? members other)
    (hitems : Table.get? copied "items" = some (refTo name))
    (hplace : Place source origins kept (itemsOf (.obj members)) (refTo name)) :
    isArray (.obj members) = true → Copies source origins kept (.obj members) (.obj copied) := by
  intro harray
  refine copies_of_members (fun _ => hbeside.reference (by decide)) ?_ ?_ ?_ fun other hne => ?_
  · simp only [target?, Json.get?, hother "$ref" (by decide)]
  · refine decide_eq_decide.mpr ?_
    rw [Json.get?, Json.get?, hother "type" (by decide)]
  · intro _
    rw [show itemsOf (.obj copied) = refTo name by
      rw [itemsOf, Json.get?, hitems, filled?_refTo, Option.getD_some]]
    exact hplace
  · rw [hother other (hne harray)]
    exact hbeside.place (hne harray)

theorem copies_replaceItems {node : Json} {name : String} (hbeside : Beside kept node "items")
    (harray : isArray node = true)
    (hplace : Place source origins kept (itemsOf node) (refTo name)) :
    Copies source origins kept node ((node.erase "items").set "items" (refTo name)) := by
  cases node with
  | obj members =>
      refine copies_of_items hbeside (fun other hne => ?_) (Table.get?_set_self _ _ _) hplace harray
      rw [Table.get?_set_of_ne _ _ hne, Table.get?_erase, if_neg hne]
  | _ => simp [isArray, Json.get?] at harray

theorem copies_setItems {node : Json} {name : String} (hbeside : Beside kept node "items")
    (harray : isArray node = true)
    (hplace : Place source origins kept (itemsOf node) (refTo name)) :
    Copies source origins kept node (node.set "items" (refTo name)) := by
  cases node with
  | obj members =>
      exact copies_of_items hbeside (fun other hne => Table.get?_set_of_ne _ _ hne)
        (Table.get?_set_self _ _ _) hplace harray
  | _ => simp [isArray, Json.get?] at harray

/-- A property is left as it is or exchanged; what is exchanged is not vacant. -/
def Property (source origins : Table Json) (kept : String → Prop) (node copy : Json) : Prop :=
  (copy = node ∧ ∀ target ∈ targets node, kept target) ∨
    (node.isVacant = false ∧ Exchanged source origins node copy)

theorem Property.place {node copy : Json} (h : Property source origins kept node copy) :
    Place source origins kept node copy := by
  rcases h with ⟨rfl, hkept⟩ | ⟨_, h⟩
  · exact place_refl _ hkept
  · exact .exchanged h

theorem Property.eq_str_iff {node copy : Json} (h : Property source origins kept node copy)
    (text : String) : copy = .str text ↔ node = .str text := by
  rcases h with ⟨rfl, _⟩ | ⟨_, hobject, name, _, rfl, _⟩
  · rfl
  · constructor
    · intro hcopy
      simp [refTo] at hcopy
    · rintro rfl
      simp [Json.isObject] at hobject

theorem Property.place_filled {node copy : Json} (h : Property source origins kept node copy) :
    Place source origins kept ((Json.filled? (some node)).getD .empty)
      ((Json.filled? (some copy)).getD .empty) := by
  rcases h with ⟨rfl, hkept⟩ | ⟨hvacant, h⟩
  · refine place_refl _ ?_
    rw [Json.filled?, Option.filter_some]
    split
    · exact hkept
    · simp [Json.empty, targets, memberTargets, target?, Json.get?]
  · obtain ⟨_, name, _, rfl, _⟩ := id h
    rw [filled?_refTo, Json.filled?, Option.filter_some, hvacant]
    exact .exchanged h

/-- A list of properties that are exchanged one by one is a copy, also if it is
read as a node of its own. -/
theorem copies_of_properties {members copied : List (String × Json)}
    (hkept : ∀ name, target? (.obj members) = some name → kept name)
    (h : ∀ name, Option.Rel (Property source origins kept) (Table.get? members name)
      (Table.get? copied name)) :
    Copies source origins kept (.obj members) (.obj copied) := by
  have hstr (name text : String) :
      Table.get? copied name = some (.str text) ↔ Table.get? members name = some (.str text) := by
    generalize Table.get? copied name = second, Table.get? members name = first, h name = hrel
    cases hrel with
    | none => simp
    | some hproperty => simpa using hproperty.eq_str_iff text
  refine copies_of_members hkept ?_ ?_ ?_
    fun name _ => rel_mono (h name) fun _ _ _ _ => Property.place
  · have href := hstr "$ref"
    simp only [target?, Json.get?]
    split
    next path hcopied => rw [(href path).mp hcopied]
    next hnone =>
      split
      next path hmembers => exact absurd ((href path).mpr hmembers) (hnone path)
      next => rfl
  · exact decide_eq_decide.mpr (hstr "type" "array")
  · intro _
    simp only [itemsOf, Json.get?]
    generalize Table.get? copied "items" = second, Table.get? members "items" = first,
      h "items" = hrel
    cases hrel with
    | none =>
        refine place_refl _ ?_
        simp [Json.filled?, Json.empty, targets, memberTargets, target?, Json.get?]
    | some hproperty => exact hproperty.place_filled

end Objects

/-! ## Copies unfold alike -/

section Mirrors

variable {source origins definitions : Table Json} {kept : String → Prop}

/-- A node tracks one of the draft if it is a copy of it or refers to a
definition made for the same one. -/
def Tracks (source origins : Table Json) (kept : String → Prop) (node copy : Json) : Prop :=
  Copies source origins kept node copy ∨
    ∃ name origin, copy = refTo name ∧ Table.get? origins name = some origin ∧
      Designates source node origin

/-- The definitions are copies of their origins. -/
def AreCopies (source origins : Table Json) (kept : String → Prop) (definitions : Table Json) :
    Prop :=
  ∀ name origin, Table.get? origins name = some origin →
    ∃ copy, Table.get? definitions name = some copy ∧ Copies source origins kept origin copy

/-- A relation between nodes that goes on into what they refer to and what is
inside of them. -/
structure GoesOn (source definitions : Table Json) (Along : Json → Json → Prop) : Prop where
  follow : ∀ node copy origin inner, Along node copy → Designates source node origin →
    Designates definitions copy inner → Along origin inner
  behind : ∀ node copy inner, Along node copy → Designates definitions copy inner →
    Along node inner
  step : ∀ node copy step inner other, Along node copy → target? node = none →
    target? copy = none → child? node step = some inner → child? copy step = some other →
    Along inner other

theorem Place.behind (hcopies : AreCopies source origins kept definitions)
    {Along : Json → Json → Prop} {node copy : Json}
    (hbehind : ∀ inner, Along node copy → Designates definitions copy inner → Along node inner)
    (hplace : Place source origins kept node copy) (halong : Along node copy) :
    Behind definitions (fun node copy => Along node copy ∧ Tracks source origins kept node copy)
      node copy := by
  cases hplace with
  | exchanged h =>
      obtain ⟨_, name, origin, rfl, hget, hstands⟩ := h
      rcases hstands with rfl | hdesignates
      · obtain ⟨inner, hinner, hcopy⟩ := hcopies name origin hget
        have hdesignates : Designates definitions (refTo name) inner :=
          ⟨name, target?_refTo name, hinner⟩
        exact .inr ⟨inner, hdesignates, hbehind inner halong hdesignates, .inl hcopy⟩
      · exact .inl ⟨halong, .inr ⟨name, origin, rfl, hget, hdesignates⟩⟩
  | alike htarget hlabel hchildren => exact .inl ⟨halong, .inl ⟨htarget, hlabel, hchildren⟩⟩

/-- The draft and the definitions mirror one another if references that kept
their names unfold alike wherever one gets along. -/
theorem mirrors_of_copies (hcopies : AreCopies source origins kept definitions)
    {Along : Json → Json → Prop} (hgoes : GoesOn source definitions Along)
    (hkept : ∀ node copy name, Along node copy → target? node = some name →
      target? copy = some name → kept name →
      unfolding source node = unfolding definitions copy ∨
        ∃ origin, Table.get? source name = some origin ∧ Table.get? origins name = some origin) :
    Mirrors source definitions
      fun node copy => Along node copy ∧ Tracks source origins kept node copy := by
  rintro node copy ⟨halong, hcopy | ⟨name, origin, rfl, hget, hdesignates⟩⟩
  · cases htarget : target? node with
    | none =>
        have hnone := eq_none_of_rel hcopy.target htarget
        refine .inr (.inr ⟨rfl, hnone, hcopy.label, fun step => ?_⟩)
        refine rel_mono (hcopy.children htarget step) fun inner other hinner hother hplace => ?_
        exact hplace.behind hcopies (hgoes.behind _ _)
          (hgoes.step node copy step inner other halong htarget hnone hinner hother)
    | some old =>
        obtain ⟨new, hother, hturned⟩ := exists_right_of_rel hcopy.target htarget
        have hfollow {definition : Json} (hsource : Table.get? source old = some definition)
            (hget : Table.get? origins new = some definition) :
            ∃ definition inner, Designates source node definition ∧
              Designates definitions copy inner ∧ Along definition inner ∧
                Tracks source origins kept definition inner := by
          obtain ⟨inner, hinner, hcopy⟩ := hcopies new definition hget
          have hfirst : Designates source node definition := ⟨old, htarget, hsource⟩
          have hsecond : Designates definitions copy inner := ⟨new, hother, hinner⟩
          exact ⟨definition, inner, hfirst, hsecond,
            hgoes.follow _ _ _ _ halong hfirst hsecond, .inl hcopy⟩
        rcases hturned with ⟨rfl, hname⟩ | ⟨definition, hsource, hget⟩
        · rcases hkept node copy new halong htarget hother hname with
            heq | ⟨origin, hsource, hget⟩
          · exact .inl heq
          · exact .inr (.inl (hfollow hsource hget))
        · exact .inr (.inl (hfollow hsource hget))
  · obtain ⟨inner, hinner, hcopy⟩ := hcopies name origin hget
    have hsecond : Designates definitions (refTo name) inner := ⟨name, target?_refTo name, hinner⟩
    exact .inr (.inl ⟨origin, inner, hdesignates, hsecond,
      hgoes.follow _ _ _ _ halong hdesignates hsecond, .inl hcopy⟩)

end Mirrors

end RequestShapes.Schema
