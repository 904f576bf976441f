import RequestShapes.Proofs.Schema.Adoption

/-!
# The rules of lifting say what it answers

Together with the rules that every successful run follows, this makes the rules
and the functions two descriptions of one thing.
-/

namespace RequestShapes.Schema

/-- The function that lifts a part. -/
def Part.run (part : Part) (scope : Scope) (definitions : Table Json) (node : Json)
    (path : String) : Except Fault (Json × Table Json) :=
  match part with
  | .body => liftProperties scope definitions node path
  | .members => do
      let (lifted, later) ← liftMembers scope definitions node.members path
      .ok (.obj lifted, later)
  | .property => liftProperty scope definitions node path
  | .item => liftItem scope definitions node path
  | .array => liftArray scope definitions node path

section Functions

variable {scope : Scope} {definitions later : Table Json} {node : Json} {path : String}

theorem liftProperties_plain (h : ∀ members, node.get? "properties" ≠ some (.obj members)) :
    liftProperties scope definitions node path = .ok (node, definitions) := by
  rw [liftProperties]
  split
  next members hproperties => exact absurd hproperties (h members)
  next => rfl

theorem liftProperties_within {members : List (String × Json)}
    (h : node.get? "properties" = some (.obj members)) :
    liftProperties scope definitions node path = (do
      let (lifted, later) ← liftMembers scope definitions members path
      .ok (node.set "properties" (.obj lifted), later)) := by
  rw [liftProperties]
  split
  next found hproperties =>
    cases h.symm.trans hproperties
    rfl
  next hplain => exact absurd h (hplain members)

theorem Scope.pending?_of_get? {definition : Json} {target : String}
    (htarget : target? node = some target)
    (hget : Table.get? scope.pending target = some definition) :
    ∃ hmem, scope.pending? node = some ⟨target, hmem⟩ := by
  have hmem := Table.mem_names_of_get? hget
  refine ⟨hmem, ?_⟩
  unfold Scope.pending?
  split
  next hnone =>
    rw [htarget] at hnone
    cases hnone
  next found hfound =>
    cases htarget.symm.trans hfound
    exact dif_pos hmem

theorem liftRecord_eq {lifted : Json} {name : String}
    (hname : scope.freshFor definitions path = name)
    (h : liftProperties scope (Table.set definitions name node) node name = .ok (lifted, later)) :
    liftRecord scope definitions node path = .ok (refTo name, Table.set later name lifted) := by
  subst hname
  rw [liftRecord, h]
  rfl

theorem liftItem_empty : liftItem scope definitions .empty path =
    .ok (refTo (scope.freshFor definitions path),
      Table.set definitions (scope.freshFor definitions path) .empty) := by
  have hplain : ∀ members, Json.empty.get? "properties" ≠ some (.obj members) := nofun
  have hrecord := liftRecord_eq rfl
    (@liftProperties_plain scope (Table.set definitions (scope.freshFor definitions path) .empty)
      .empty (scope.freshFor definitions path) hplain)
  rw [Table.set_set] at hrecord
  rw [liftItem, if_neg (by decide), if_neg (by decide)]
  exact hrecord

/-- What accepts everything is moved like any other items schema. -/
theorem liftArray_bind : liftArray scope definitions node path = (do
    let (items, later) ← liftItem scope definitions (itemsOf node) (path ++ "Item")
    .ok (refTo (scope.freshFor later path),
      Table.set later (scope.freshFor later path) ((node.erase "items").set "items" items))) := by
  rw [liftArray]
  split
  next inner hfilled =>
    rw [itemsOf, hfilled, Option.getD_some]
  next hfilled =>
    rw [itemsOf, hfilled, Option.getD_none, liftItem_empty]

theorem liftArray_eq {items : Json}
    (h : liftItem scope definitions (itemsOf node) (path ++ "Item") = .ok (items, later)) :
    liftArray scope definitions node path =
      .ok (refTo (scope.freshFor later path),
        Table.set later (scope.freshFor later path) ((node.erase "items").set "items" items)) := by
  rw [liftArray_bind, h]
  rfl

section Definitions

variable {definition : Json} {target : { target // target ∈ Table.names scope.pending }}

theorem liftDefinition_noObject (hget : Table.get? scope.pending target = some definition)
    (hobject : definition.isObject = false) :
    liftDefinition scope definitions target path = .error .noObject := by
  rw [liftDefinition]
  split
  next hnone =>
    rw [hget] at hnone
    cases hnone
  next found hfound =>
    cases hget.symm.trans hfound
    rw [if_pos (by simp [hobject])]

theorem liftDefinition_copies (hget : Table.get? scope.pending target = some definition)
    (hobject : definition.isObject = true) (hdefinition : isArray definition = false) :
    liftDefinition scope definitions target path = (do
      let (lifted, later) ← liftProperties (scope.copy target (scope.freshFor definitions path))
        (Table.set definitions (scope.freshFor definitions path) definition) definition
        (scope.freshFor definitions path)
      .ok (refTo (scope.freshFor definitions path),
        Table.set later (scope.freshFor definitions path) lifted)) := by
  rw [liftDefinition]
  split
  next hnone =>
    rw [hget] at hnone
    cases hnone
  next found hfound =>
    cases hget.symm.trans hfound
    rw [if_neg (by simp [hobject]), if_neg (by simp [hdefinition])]
    rfl

theorem liftDefinition_record {lifted : Json} {name : String}
    (hget : Table.get? scope.pending target = some definition)
    (hobject : definition.isObject = true) (hdefinition : isArray definition = false)
    (hname : scope.freshFor definitions path = name)
    (h : liftProperties (scope.copy target name) (Table.set definitions name definition) definition
      name = .ok (lifted, later)) :
    liftDefinition scope definitions target path =
      .ok (refTo name, Table.set later name lifted) := by
  subst hname
  rw [liftDefinition_copies hget hobject hdefinition, h]
  rfl

theorem liftDefinition_array {hops : Nat}
    (hget : Table.get? scope.pending target = some definition)
    (hobject : definition.isObject = true) (hdefinition : isArray definition = true)
    (hhops : scope.hops = hops + 1) :
    liftDefinition scope definitions target path =
      liftArray (scope.hop hops) definitions definition path := by
  rw [liftDefinition]
  split
  next hnone =>
    rw [hget] at hnone
    cases hnone
  next found hfound =>
    cases hget.symm.trans hfound
    rw [if_neg (by simp [hobject]), if_pos hdefinition]
    split
    next hzero => omega
    next left hleft =>
      obtain rfl : left = hops := by omega
      rfl

end Definitions

end Functions

/-- A part that may refer looks at what its reference designates. -/
theorem Part.run_refer {part : Part} {scope : Scope} {definitions : Table Json} {node : Json}
    {path : String} (hrefer : part.MayRefer node) (harray : isArray node = false)
    {result : Except Fault (Json × Table Json)}
    (hcopied : ∀ name, scope.copied? node = some name → .ok (refTo name, definitions) = result)
    (hpending : ∀ target, scope.copied? node = none → scope.pending? node = some target →
      liftDefinition scope definitions target path = result)
    (hnone : scope.copied? node = none → scope.pending? node ≠ none) :
    part.run scope definitions node path = result := by
  cases part with
  | property =>
      have hrecord : isRecord node = false := hrefer
      rw [run, liftProperty, if_neg (by simp [harray]), if_neg (by simp [hrecord])]
      split
      next name hname => exact hcopied name hname
      next hcopied? =>
        split
        next target htarget => exact hpending target hcopied? htarget
        next hpending? => exact absurd hpending? (hnone hcopied?)
  | item =>
      have hobject : node.isObject = true := hrefer
      rw [run, liftItem, if_neg (by simp [hobject]), if_neg (by simp [harray])]
      split
      next name hname => exact hcopied name hname
      next hcopied? =>
        split
        next target htarget => exact hpending target hcopied? htarget
        next hpending? => exact absurd hpending? (hnone hcopied?)
  | _ => exact hrefer.elim

/-- What the rules derive is what lifting answers, if all open definitions are
objects. -/
theorem Lifts.run_eq {part : Part} {scope : Scope} {definitions later : Table Json}
    {node lifted : Json} {path : String}
    (h : Lifts part scope definitions node path lifted later)
    (hobjects : ∀ name node, Table.get? scope.pending name = some node → node.isObject = true) :
    part.run scope definitions node path = .ok (lifted, later) := by
  induction h with
  | plain hplain => exact liftProperties_plain hplain
  | @within scope definitions later node path members lifted hproperties _ ih =>
      have hmembers := ih hobjects
      rw [Part.run] at hmembers
      obtain ⟨⟨found, last⟩, hfound, heq⟩ := bind_eq_ok hmembers
      cases heq
      rw [Part.run, liftProperties_within hproperties]
      simp only [Json.members] at hfound
      rw [hfound]
      rfl
  | nil =>
      rw [Part.run, Json.members, liftMembers]
      rfl
  | @cons scope definitions middle later path name value lifted rest liftedRest _ _ ihvalue
      ihrest =>
      have hvalue := ihvalue hobjects
      obtain ⟨⟨found, last⟩, hfound, heq⟩ := bind_eq_ok (ihrest hobjects)
      cases heq
      rw [Part.run] at hvalue
      rw [Part.run, Json.members, liftMembers, hvalue]
      simp only [Json.members] at hfound
      simp only [bind, Except.bind, hfound]
  | kept harray hrecord hcopied hpending =>
      rw [Part.run, liftProperty, if_neg (by simp [harray]), if_neg (by simp [hrecord]), hcopied,
        hpending]
  | back hrefer harray hcopied =>
      refine Part.run_refer hrefer harray (fun name hname => ?_) (fun _ hnone => ?_) fun hnone => ?_
      · cases hcopied.symm.trans hname
        rfl
      · rw [hcopied] at hnone
        cases hnone
      · rw [hcopied] at hnone
        cases hnone
  | @moved part scope definitions later node lifted path name hmoves harray hname _ ih =>
      have hrecord := liftRecord_eq hname (ih hobjects)
      cases part with
      | property =>
          have hmoves : isRecord node = true := hmoves
          rw [Part.run, liftProperty, if_neg (by simp [harray]), if_pos hmoves]
          exact hrecord
      | item =>
          obtain ⟨hobject, hcopied, hpending⟩ := hmoves
          rw [Part.run, liftItem, if_neg (by simp [hobject]), if_neg (by simp [harray]), hcopied,
            hpending]
          exact hrecord
      | _ => exact hmoves.elim
  | @copied part scope definitions later node definition lifted path name target hrefer harray
      hcopied htarget hget hdefinition hname _ ih =>
      obtain ⟨hmem, hpending⟩ := Scope.pending?_of_get? htarget hget
      have hinner := ih fun other found hfound => by
        rw [Scope.copy, Table.get?_erase] at hfound
        split at hfound
        · cases hfound
        · exact hobjects other found hfound
      refine Part.run_refer hrefer harray (fun _ hsome => ?_) (fun _ _ hfound => ?_) fun _ => ?_
      · rw [hcopied] at hsome
        cases hsome
      · cases hpending.symm.trans hfound
        exact liftDefinition_record hget (hobjects _ _ hget) hdefinition hname hinner
      · rw [hpending]
        intro heq
        cases heq
  | @copiedArray part scope definitions later node definition lifted path target hops hrefer harray
      hcopied htarget hget hdefinition hhops _ ih =>
      obtain ⟨hmem, hpending⟩ := Scope.pending?_of_get? htarget hget
      refine Part.run_refer hrefer harray (fun _ hsome => ?_) (fun _ _ hfound => ?_) fun _ => ?_
      · rw [hcopied] at hsome
        cases hsome
      · cases hpending.symm.trans hfound
        rw [liftDefinition_array hget (hobjects _ _ hget) hdefinition hhops]
        exact ih hobjects
      · rw [hpending]
        intro heq
        cases heq
  | direct hpart harray _ ih =>
      rcases hpart with rfl | rfl
      · rw [Part.run, liftProperty, if_pos harray]
        exact ih hobjects
      · rw [Part.run, liftItem, if_neg (by simp [isObject_of_isArray harray]), if_pos harray]
        exact ih hobjects
  | array harray _ hname ih =>
      rw [Part.run, liftArray_eq (ih hobjects), hname]

/-! ## Derivations with given results -/

section Derivations

variable {scope : Scope} {definitions later final : Table Json} {node lifted : Json}
  {path name : String}

theorem Lifts.item_moved (hobject : node.isObject = true) (hcopied : scope.copied? node = none)
    (hpending : scope.pending? node = none) (harray : isArray node = false)
    (hname : scope.freshFor definitions path = name)
    (h : Lifts .body scope (Table.set definitions name node) node name lifted later)
    (hfinal : Table.set later name lifted = final) :
    Lifts .item scope definitions node path (refTo name) final :=
  hfinal ▸ .moved ⟨hobject, hcopied, hpending⟩ harray hname h

theorem Lifts.property_copied {definition : Json} {target : String}
    (hrecord : isRecord node = false) (harray : isArray node = false)
    (hcopied : scope.copied? node = none) (htarget : target? node = some target)
    (hget : Table.get? scope.pending target = some definition)
    (hdefinition : isArray definition = false) (hname : scope.freshFor definitions path = name)
    (h : Lifts .body (scope.copy target name) (Table.set definitions name definition) definition
      name lifted later)
    (hfinal : Table.set later name lifted = final) :
    Lifts .property scope definitions node path (refTo name) final :=
  hfinal ▸ .copied hrecord harray hcopied htarget hget hdefinition hname h

theorem Lifts.property_array {items : Json} (harray : isArray node = true)
    (h : Lifts .item scope definitions (itemsOf node) (path ++ "Item") items later)
    (hname : scope.freshFor later path = name)
    (hfinal : Table.set later name ((node.erase "items").set "items" items) = final) :
    Lifts .property scope definitions node path (refTo name) final :=
  .direct (.inl rfl) harray (hfinal ▸ .array harray h hname)

end Derivations

/-- What the rules derive for the root is what lifting the draft starts from. -/
theorem lift_eq {fuel : Nat} {draft root final result : Json} {rootName : String}
    {reserved : List String} {middle definitions : Table Json} (hobject : draft.isObject = true)
    (harray : isArray (rootOf draft) = false)
    (hobjects : ∀ name node, Table.get? (definitionsOf draft) name = some node →
      node.isObject = true)
    (h : Lifts .body (.initial (rootName :: reserved) (definitionsOf draft)) [] (rootOf draft)
      rootName root middle)
    (hadopt : adopt (.initial (rootName :: reserved) (definitionsOf draft)) fuel root middle =
      .ok (final, definitions)) (hfuel : fuel ≤ adoptionBound draft)
    (hresult : final.set "definitions" (.obj definitions) = result) :
    lift draft rootName reserved = .ok result := by
  have hroot : liftRoot (.initial (rootName :: reserved) (definitionsOf draft)) (rootOf draft)
      rootName = .ok (root, middle) := by
    rw [liftRoot, if_neg (by simp [harray])]
    exact h.run_eq hobjects
  unfold lift
  simp only [hobject, bind, Except.bind]
  rw [rootOf] at hroot
  simp [hroot, adopt_mono hadopt hfuel, hresult]

/-- Taking over what is missing, then the rest. -/
theorem adopt_next {scope : Scope} {fuel : Nat} {root node lifted : Json} {target name : String}
    {definitions later : Table Json} {result : Json × Table Json}
    (hmissing : missing? scope.pending root definitions = some (target, node))
    (hobject : node.isObject = true) (hname : scope.freshFor definitions target = name)
    (hobjects : ∀ name node, Table.get? scope.pending name = some node → node.isObject = true)
    (h : Lifts .body scope (Table.set (definitions.map fun entry =>
      (entry.1, retarget target name entry.2)) name (retarget target name node))
      (retarget target name node) name lifted later)
    (hrest : adopt scope fuel (retarget target name root) (Table.set later name lifted) =
      .ok result) : adopt scope (fuel + 1) root definitions = .ok result := by
  have hone : adoptOne scope root definitions target node =
      .ok (retarget target name root, Table.set later name lifted) := by
    subst hname
    have hrun := h.run_eq hobjects
    rw [Part.run] at hrun
    rw [adoptOne]
    simp only [hobject, bind, Except.bind]
    simp [hrun]
  rw [adopt, hmissing]
  simp only [hone, bind, Except.bind, hrest]

end RequestShapes.Schema
