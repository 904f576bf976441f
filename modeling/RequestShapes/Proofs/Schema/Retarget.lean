import RequestShapes.Proofs.Schema.Unfolding

/-!
# References inside of nodes

What a node refers to, what its parts refer to, and what changes when all
references to one definition are turned to another one.
-/

namespace RequestShapes.Schema

/-! ## Paths of references -/

theorem after?_append (lead rest : List Char) : Text.after? lead (lead ++ rest) = some rest := by
  induction lead with
  | nil => rfl
  | cons c lead ih => simp [Text.after?, ih]

theorem nameOfPath?_definitionsPath (name : String) :
    nameOfPath? (definitionsPath ++ name) = some name := by
  simp [nameOfPath?, after?_append]

theorem path_of_nameOfPath? {path name : String} (h : nameOfPath? path = some name) :
    path = definitionsPath ++ name := by
  simp only [nameOfPath?, Option.map_eq_some_iff] at h
  obtain ⟨rest, hrest, rfl⟩ := h
  apply String.toList_injective
  simp [Text.after?_eq_some hrest]

@[simp] theorem target?_refTo (name : String) : target? (refTo name) = some name := by
  simp [target?, refTo, Json.get?, Table.get?, nameOfPath?_definitionsPath]

@[simp] theorem targets_refTo (name : String) : targets (refTo name) = [name] := by
  have htarget := target?_refTo name
  unfold refTo at htarget ⊢
  simp only [targets, htarget, memberTargets, Option.toList_some, List.append_nil]

theorem target?_eq_some {members : List (String × Json)} {name : String}
    (h : target? (.obj members) = some name) :
    Table.get? members "$ref" = some (.str (definitionsPath ++ name)) := by
  simp only [target?, Json.get?] at h
  split at h
  next path hget => rw [hget, path_of_nameOfPath? h]
  next => simp at h

theorem isObject_of_target? {node : Json} {name : String} (h : target? node = some name) :
    node.isObject = true := by
  cases node <;> simp_all [target?, Json.get?, Json.isObject]

/-! ## References of parts -/

theorem mem_targets_of_target? {node : Json} {name : String} (h : target? node = some name) :
    name ∈ targets node := by
  cases node with
  | obj members => simp [targets, h]
  | _ => simp [target?, Json.get?] at h

theorem mem_memberTargets {members : List (String × Json)} {name : String} :
    name ∈ memberTargets members ↔ ∃ entry ∈ members, name ∈ targets entry.2 := by
  induction members with
  | nil => simp [memberTargets]
  | cons entry members ih =>
      obtain ⟨key, value⟩ := entry
      simp [memberTargets, ih]

theorem mem_itemTargets {items : List Json} {name : String} :
    name ∈ itemTargets items ↔ ∃ item ∈ items, name ∈ targets item := by
  induction items with
  | nil => simp [itemTargets]
  | cons item items ih => simp [itemTargets, ih]

theorem targets_get?_subset {node inner : Json} {name : String}
    (h : node.get? name = some inner) : targets inner ⊆ targets node := by
  cases node with
  | obj members =>
      intro target htarget
      simp only [targets, List.mem_append, mem_memberTargets]
      exact .inr ⟨_, Table.mem_of_get? h, htarget⟩
  | _ => simp [Json.get?] at h

theorem targets_itemsOf_subset (node : Json) : targets (itemsOf node) ⊆ targets node := by
  unfold itemsOf
  cases hfilled : Json.filled? (node.get? "items") with
  | none => simp [Json.empty, targets, memberTargets, target?, Json.get?]
  | some items => exact targets_get?_subset (Json.get?_of_filled? hfilled)

theorem targets_child?_subset {node inner : Json} {step : Step}
    (h : child? node step = some inner) : targets inner ⊆ targets node := by
  cases step with
  | member name =>
      simp only [child?] at h
      split at h
      · obtain rfl := Option.some.inj h
        exact targets_itemsOf_subset node
      · exact targets_get?_subset h
  | item index =>
      cases node with
      | arr items =>
          intro target htarget
          simp only [targets, mem_itemTargets]
          exact ⟨inner, List.mem_of_getElem? h, htarget⟩
      | _ => simp [child?] at h

theorem memberTargets_set {members : List (String × Json)} {name target : String} {value : Json}
    (h : target ∈ memberTargets (Table.set members name value)) :
    target ∈ memberTargets (Table.set members name .null) ∨ target ∈ targets value := by
  induction members with
  | nil => simp_all [Table.set, memberTargets]
  | cons entry members ih =>
      obtain ⟨key, old⟩ := entry
      by_cases hkey : key = name
      · simp only [Table.set, hkey, if_true, memberTargets, List.mem_append] at h ⊢
        exact h.symm.imp .inr id
      · simp only [Table.set, hkey, if_false, memberTargets, List.mem_append] at h ⊢
        rcases h with h | h
        · exact .inl (.inl h)
        · exact (ih h).imp .inr id

theorem memberTargets_set_null {members : List (String × Json)} {name target : String}
    (h : target ∈ memberTargets (Table.set members name .null)) :
    target ∈ memberTargets members := by
  obtain ⟨entry, hentry, htarget⟩ := mem_memberTargets.mp h
  rcases Table.mem_set hentry with rfl | hentry
  · simp [targets] at htarget
  · exact mem_memberTargets.mpr ⟨entry, hentry, htarget⟩

/-- What is referred to after a member was written stands elsewhere in the node
or came with that member. -/
theorem targets_set {node value : Json} {name target : String} (hname : "$ref" ≠ name)
    (h : target ∈ targets (node.set name value)) :
    target ∈ targets (node.set name .null) ∨ target ∈ targets value := by
  cases node with
  | obj members =>
      have htarget (written : Json) :
          target? (.obj (Table.set members name written)) = target? (.obj members) := by
        rw [target?, target?, Json.get?, Json.get?, Table.get?_set_of_ne _ _ hname]
      simp only [Json.set, targets, htarget, List.mem_append] at h ⊢
      rcases h with h | h
      · exact .inl (.inl h)
      · exact (memberTargets_set h).imp .inr id
  | _ => exact .inl h

theorem targets_rootOf_subset (draft : Json) : targets (rootOf draft) ⊆ targets draft := by
  cases draft with
  | obj members =>
      intro target hmem
      rw [rootOf, Json.erase, targets, List.mem_append, Option.mem_toList] at hmem
      rw [targets, List.mem_append, Option.mem_toList]
      refine hmem.imp (fun htarget => ?_) fun hmem => ?_
      · rwa [target?, Json.get?, Table.get?_erase, if_neg (by decide)] at htarget
      · obtain ⟨entry, hentry, hmem⟩ := mem_memberTargets.mp hmem
        exact mem_memberTargets.mpr ⟨entry, (List.mem_filter.mp hentry).1, hmem⟩
  | _ => exact fun _ hmem => hmem

theorem targets_definition_subset {draft definition : Json} {name : String}
    (h : Table.get? (definitionsOf draft) name = some definition) :
    targets definition ⊆ targets draft := by
  rw [definitionsOf] at h
  cases hget : draft.get? "definitions" with
  | none => simp [hget] at h
  | some table =>
      rw [hget, Option.map_some, Option.getD_some] at h
      cases table with
      | obj members =>
          have hmember : (Json.obj members).get? name = some definition := h
          exact List.Subset.trans (targets_get?_subset hmember) (targets_get?_subset hget)
      | _ => simp [Json.members] at h

/-! ## Sizes of parts -/

theorem isObject_of_isArray {node : Json} (h : isArray node = true) : node.isObject = true := by
  cases node <;> simp_all [isArray, Json.get?, Json.isObject]

theorem sizeOf_itemsOf_lt {node : Json} (h : isArray node = true) :
    sizeOf (itemsOf node) < sizeOf node := by
  unfold itemsOf
  cases hfilled : Json.filled? (node.get? "items") with
  | none =>
      cases node with
      | obj members =>
          have hget : Table.get? members "type" = some (.str "array") := of_decide_eq_true h
          have htype := Json.sizeOf_lt_of_lookup hget
          have hpos := Json.sizeOf_pos (.str "array")
          simp only [Option.getD_none, Json.empty, Json.obj.sizeOf_spec, List.nil.sizeOf_spec]
          omega
      | _ => simp [isArray, Json.get?] at h
  | some items => exact Json.sizeOf_get?_lt (Json.get?_of_filled? hfilled)

theorem sizeOf_child?_lt {node inner : Json} {step : Step} (h : child? node step = some inner) :
    sizeOf inner < sizeOf node := by
  cases step with
  | member name =>
      simp only [child?] at h
      split at h
      next hitems =>
        obtain rfl := Option.some.inj h
        simp only [Bool.and_eq_true] at hitems
        exact sizeOf_itemsOf_lt hitems.1
      next => exact Json.sizeOf_get?_lt h
  | item index =>
      cases node with
      | arr items =>
          have := List.sizeOf_lt_of_mem (List.mem_of_getElem? h)
          simp only [Json.arr.sizeOf_spec]
          omega
      | _ => simp [child?] at h

/-! ## Turning references -/

section Retarget

variable (old new : String)

theorem get?_retargetMembers (members : List (String × Json)) (name : String) :
    Table.get? (retargetMembers old new members) name =
      (Table.get? members name).map (retarget old new) := by
  induction members with
  | nil => rfl
  | cons entry members ih =>
      obtain ⟨key, value⟩ := entry
      by_cases hkey : key = name
      · simp [retargetMembers, Table.get?, hkey]
      · simp [retargetMembers, Table.get?, hkey, ih]

/-- Away from the reference itself members are turned one by one. -/
theorem get?_retarget {node : Json} {name : String}
    (h : name ≠ "$ref" ∨ target? node ≠ some old) :
    (retarget old new node).get? name = (node.get? name).map (retarget old new) := by
  cases node with
  | obj members =>
      simp only [retarget]
      split
      next htarget =>
        have hname := h.resolve_right (not_not_intro htarget)
        simp only [Json.set, Json.get?, Table.get?_set_of_ne _ _ hname, get?_retargetMembers]
      next => simp only [Json.get?, get?_retargetMembers]
  | _ => rfl

@[simp] theorem label_retarget (node : Json) : label (retarget old new node) = label node := by
  cases node with
  | obj members =>
      simp only [retarget]
      split <;> rfl
  | _ => rfl

theorem target?_retargetMembers (members : List (String × Json)) :
    target? (.obj (retargetMembers old new members)) = target? (.obj members) := by
  simp only [target?, Json.get?, get?_retargetMembers]
  cases Table.get? members "$ref" with
  | none => rfl
  | some value =>
      cases value with
      | obj inner => by_cases h : target? (.obj inner) = some old <;> simp [retarget, h, Json.set]
      | _ => rfl

theorem target?_retarget (node : Json) :
    target? (retarget old new node) =
      (target? node).map fun name => if name = old then new else name := by
  cases node with
  | obj members =>
      simp only [retarget]
      split
      next htarget =>
        rw [htarget]
        simp [target?, Json.set, Json.get?, Table.get?_set_self, nameOfPath?_definitionsPath]
      next htarget =>
        rw [target?_retargetMembers]
        cases hname : target? (.obj members) with
        | none => rfl
        | some name =>
            have hne : name ≠ old := fun heq => htarget (heq ▸ hname)
            simp [hne]
  | _ => rfl

@[simp] theorem isVacant_retarget (node : Json) :
    (retarget old new node).isVacant = node.isVacant := by
  cases node with
  | obj members =>
      simp only [retarget]
      split
      next htarget =>
        cases members with
        | nil => simp [target?, Json.get?] at htarget
        | cons entry members =>
            obtain ⟨key, value⟩ := entry
            by_cases hkey : key = "$ref" <;>
              simp [retargetMembers, Json.set, Table.set, Json.isVacant, hkey]
      next => cases members <;> rfl
  | arr items => cases items <;> rfl
  | _ => rfl

theorem get?_type_retarget {node : Json} {name type : String} (hname : name ≠ "$ref") :
    (retarget old new node).get? name = some (.str type) ↔ node.get? name = some (.str type) := by
  rw [get?_retarget old new (.inl hname)]
  cases node.get? name with
  | none => simp
  | some value =>
      cases value with
      | obj members =>
          simp only [Option.map_some, Option.some.injEq, retarget]
          split <;> simp [Json.set]
      | _ => simp [retarget]

@[simp] theorem isArray_retarget (node : Json) : isArray (retarget old new node) = isArray node := by
  simp [isArray, get?_type_retarget]

theorem itemsOf_retarget (node : Json) :
    itemsOf (retarget old new node) = retarget old new (itemsOf node) := by
  simp only [itemsOf, get?_retarget old new (.inl (show "items" ≠ "$ref" by decide))]
  cases node.get? "items" with
  | none => simp [Json.filled?, Json.empty, retarget, retargetMembers, target?, Json.get?]
  | some items =>
      by_cases hvacant : items.isVacant = true
      · simp [Json.filled?, Option.filter, hvacant, Json.empty, retarget, retargetMembers,
          target?, Json.get?]
      · simp [Json.filled?, Option.filter, hvacant]

theorem retargetItems_eq_map (items : List Json) :
    retargetItems old new items = items.map (retarget old new) := by
  induction items with
  | nil => rfl
  | cons item items ih => simp [retargetItems, ih]

/-- What is inside of a node that is no reference is turned part by part. -/
theorem child?_retarget {node : Json} (hnone : target? node = none) (step : Step) :
    child? (retarget old new node) step = (child? node step).map (retarget old new) := by
  cases step with
  | member name =>
      simp only [child?, isArray_retarget, itemsOf_retarget]
      split
      next => rfl
      next => exact get?_retarget old new (.inr (by simp [hnone]))
  | item index =>
      cases node with
      | arr items => simp [child?, retarget, retargetItems_eq_map]
      | obj members =>
          simp only [child?, retarget]
          split <;> simp_all
      | _ => rfl

end Retarget

mutual

/-- Where nothing refers to a definition nothing is turned, and turning
references to where they point already changes nothing. -/
theorem retarget_eq_self {old new : String} :
    (node : Json) → (old ∈ targets node → old = new) → retarget old new node = node
  | .obj members, h => by
      have hmembers : retargetMembers old new members = members :=
        retargetMembers_eq_self members fun hmem => h (by simp [targets, hmem])
      simp only [retarget, hmembers]
      split
      next htarget =>
        obtain rfl := h (mem_targets_of_target? htarget)
        rw [Json.set, Table.set_eq_self (target?_eq_some htarget)]
      next => rfl
  | .arr items, h => by
      rw [retarget, retargetItems_eq_self items fun hmem => h (by simpa [targets] using hmem)]
  | .null, _ | .bool _, _ | .int _, _ | .float _, _ | .str _, _ => rfl

theorem retargetItems_eq_self {old new : String} :
    (items : List Json) → (old ∈ itemTargets items → old = new) →
      retargetItems old new items = items
  | [], _ => rfl
  | item :: items, h => by
      rw [retargetItems, retarget_eq_self item fun hmem => h (by simp [itemTargets, hmem]),
        retargetItems_eq_self items fun hmem => h (by simp [itemTargets, hmem])]

theorem retargetMembers_eq_self {old new : String} :
    (members : List (String × Json)) → (old ∈ memberTargets members → old = new) →
      retargetMembers old new members = members
  | [], _ => rfl
  | (name, value) :: members, h => by
      rw [retargetMembers, retarget_eq_self value fun hmem => h (by simp [memberTargets, hmem]),
        retargetMembers_eq_self members fun hmem => h (by simp [memberTargets, hmem])]

end

mutual

/-- After turning, references are to the new definition or to others than the
old one. -/
theorem mem_targets_retarget {old new target : String} :
    (node : Json) → target ∈ targets (retarget old new node) →
      target = new ∨ (target ∈ targets node ∧ target ≠ old)
  | .obj members, h => by
      have hmembers : target ∈ memberTargets (retargetMembers old new members) →
          target = new ∨ (target ∈ targets (.obj members) ∧ target ≠ old) := fun hmem => by
        refine (mem_memberTargets_retarget members hmem).imp_right (And.imp_left fun hmem => ?_)
        rw [targets, List.mem_append]
        exact .inr hmem
      rw [retarget] at h
      split at h
      next htarget =>
        rw [Json.set, targets, List.mem_append, Option.mem_toList] at h
        rcases h with h | h
        · left
          rw [target?, Json.get?, Table.get?_set_self] at h
          exact Option.some.inj (h.symm.trans (nameOfPath?_definitionsPath new))
        · refine hmembers ((memberTargets_set h).elim (fun h => ?_) fun h => ?_)
          · exact memberTargets_set_null h
          · cases h
      next htarget =>
        rw [targets, List.mem_append, target?_retargetMembers] at h
        rcases h with h | h
        · rw [Option.mem_toList] at h
          exact .inr ⟨mem_targets_of_target? h, fun heq => htarget (heq ▸ h)⟩
        · exact hmembers h
  | .arr items, h => by
      rw [retarget, targets] at h
      rw [targets]
      exact mem_itemTargets_retarget items h
  | .null, h | .bool _, h | .int _, h | .float _, h | .str _, h => by cases h

theorem mem_itemTargets_retarget {old new target : String} :
    (items : List Json) → target ∈ itemTargets (retargetItems old new items) →
      target = new ∨ (target ∈ itemTargets items ∧ target ≠ old)
  | [], h => by cases h
  | item :: items, h => by
      rw [retargetItems, itemTargets, List.mem_append] at h
      rw [itemTargets, List.mem_append, or_and_right]
      rcases h with h | h
      · exact (mem_targets_retarget item h).imp_right .inl
      · exact (mem_itemTargets_retarget items h).imp_right .inr

theorem mem_memberTargets_retarget {old new target : String} :
    (members : List (String × Json)) →
      target ∈ memberTargets (retargetMembers old new members) →
      target = new ∨ (target ∈ memberTargets members ∧ target ≠ old)
  | [], h => by cases h
  | (name, value) :: members, h => by
      rw [retargetMembers, memberTargets, List.mem_append] at h
      rw [memberTargets, List.mem_append, or_and_right]
      rcases h with h | h
      · exact (mem_targets_retarget value h).imp_right .inl
      · exact (mem_memberTargets_retarget members h).imp_right .inr

end

end RequestShapes.Schema
