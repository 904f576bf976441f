import RequestShapes.Proofs.Schema.Copies

/-!
# What emitted definitions were made for

Along every run of lifting the new definitions are copies of nodes of the
draft, which are recorded under the names of their copies.
-/

namespace RequestShapes.Schema

/-- What stands in place of a lifted part. -/
def Part.Made (source origins : Table Json) (kept : String → Prop) : Part → Json → Json → Prop
  | .body, node, lifted => Copies source origins kept node lifted
  | .members, node, lifted =>
      ∀ name, Option.Rel (Property source origins kept) (node.get? name) (lifted.get? name)
  | .property, node, lifted => Property source origins kept node lifted
  | .item, node, lifted => Exchanged source origins node lifted
  | .array, node, lifted => ∃ name, lifted = refTo name ∧ Table.get? origins name = some node

/-- Every definition that is new is a copy of what it was made for, a node of a
class. -/
structure Recorded (source : Table Json) (kept : String → Prop) (Node : Json → Prop)
    (definitions later origins origins' : Table Json) : Prop where
  grows : Extends origins origins'
  names : ∀ name, name ∈ Table.names origins' ↔ name ∈ Table.names later
  copies : ∀ name origin, name ∉ Table.names definitions →
    Table.get? origins' name = some origin → Node origin ∧
      ∃ copy, Table.get? later name = some copy ∧ Copies source origins' kept origin copy

/-- A name on the way is the name of a copy of the definition under copy. -/
structure Scope.Sound (scope : Scope) (source origins : Table Json) : Prop
    extends scope.Serves source where
  copying : ∀ target name, Table.get? scope.copying target = some name →
    ∃ definition, Table.get? source target = some definition ∧
      Table.get? origins name = some definition

theorem Property.extends {source origins later : Table Json} {kept : String → Prop}
    {node copy : Json} (h : Property source origins kept node copy)
    (hextends : Extends origins later) : Property source later kept node copy :=
  h.imp id fun ⟨hvacant, hexchanged⟩ => ⟨hvacant, hexchanged.extends hextends⟩

namespace Recorded

variable {source definitions middle later origins origins' origins'' : Table Json}
  {kept : String → Prop} {Node : Json → Prop}

theorem refl (hnames : ∀ name, name ∈ Table.names origins ↔ name ∈ Table.names definitions) :
    Recorded source kept Node definitions definitions origins origins where
  grows := Extends.refl _
  names := hnames
  copies := fun _ _ hnew hget => absurd ((hnames _).mp (Table.mem_names_of_get? hget)) hnew

theorem trans (h : Recorded source kept Node definitions middle origins origins')
    (h' : Recorded source kept Node middle later origins' origins'') (hextends : Extends middle later) :
    Recorded source kept Node definitions later origins origins'' where
  grows := h.grows.trans h'.grows
  names := h'.names
  copies := fun name origin hnew hget => by
    by_cases hmiddle : name ∈ Table.names middle
    · obtain ⟨earlier, hearlier⟩ := Table.exists_get?_of_mem_names ((h.names name).mpr hmiddle)
      obtain rfl : earlier = origin :=
        Option.some.inj ((h'.grows _ _ hearlier).symm.trans hget)
      obtain ⟨hnode, copy, hcopy, hcopies⟩ := h.copies name earlier hnew hearlier
      exact ⟨hnode, copy, hextends _ _ hcopy, hcopies.extends h'.grows⟩
    · exact h'.copies name origin hmiddle hget

/-- A name that is fresh is taken for the copy of a node. -/
theorem start (hnames : ∀ name, name ∈ Table.names origins ↔ name ∈ Table.names definitions)
    (name : String) (node : Json) (other : String) :
    other ∈ Table.names (Table.set origins name node) ↔
      other ∈ Table.names (Table.set definitions name node) := by
  rw [Table.mem_names_set, Table.mem_names_set, hnames]

/-- The copy that was under way under a fresh name is there. -/
theorem finish {name : String} {node lifted : Json}
    (hfresh : name ∉ Table.names definitions)
    (hnames : ∀ name, name ∈ Table.names origins ↔ name ∈ Table.names definitions)
    (h : Recorded source kept Node (Table.set definitions name node) later
      (Table.set origins name node) origins')
    (hnode : Node node) (hlifted : Copies source origins' kept node lifted) :
    Recorded source kept Node definitions (Table.set later name lifted) origins origins' where
  grows := (Extends.set (fun hmem => hfresh ((hnames name).mp hmem)) node).trans h.grows
  names := fun other => by
    have hname : name ∈ Table.names later :=
      (h.names name).mp (h.grows.names_subset (Table.mem_names_set.mpr (.inl rfl)))
    rw [Table.names_set_of_mem hname, h.names]
  copies := fun other origin hnew hget => by
    by_cases heq : other = name
    · subst heq
      have horigin := h.grows other node (Table.get?_set_self _ _ _)
      obtain rfl := Option.some.inj (horigin.symm.trans hget)
      exact ⟨hnode, lifted, Table.get?_set_self _ _ _, hlifted⟩
    · rw [Table.get?_set_of_ne _ _ heq]
      refine h.copies other origin (fun hmem => ?_) hget
      exact (Table.mem_names_set.mp hmem).elim heq hnew

/-- One copy is there under a fresh name. -/
theorem single {name : String} {node lifted : Json} (hfresh : name ∉ Table.names definitions)
    (hnames : ∀ name, name ∈ Table.names origins ↔ name ∈ Table.names definitions)
    (hnode : Node node) (hlifted : Copies source (Table.set origins name node) kept node lifted) :
    Recorded source kept Node definitions (Table.set definitions name lifted) origins
      (Table.set origins name node) := by
  have hfinished := (refl (start hnames name node)).finish hfresh hnames hnode hlifted
  rwa [Table.set_set] at hfinished

end Recorded

section Scope

variable {scope : Scope} {source origins later : Table Json}

theorem Scope.Sound.initial (reserved : List String) (source origins : Table Json) :
    (Scope.initial reserved source).Sound source origins :=
  ⟨.initial reserved source, fun _ _ hget => by simp [Scope.initial] at hget⟩

theorem Scope.Sound.extends (h : scope.Sound source origins) (hextends : Extends origins later) :
    scope.Sound source later :=
  ⟨h.toServes, fun target name hget =>
    (h.copying target name hget).imp fun _ hdefinition =>
      hdefinition.imp_right (hextends name _)⟩

theorem Scope.Sound.copy (h : scope.Sound source origins) {target name : String}
    {definition : Json} (hsource : Table.get? source target = some definition)
    (horigin : Table.get? origins name = some definition) :
    (scope.copy target name).Sound source origins := by
  refine ⟨h.toServes.copy target name, fun other found hget => ?_⟩
  rw [Scope.copy, Table.get?_set] at hget
  split at hget
  next heq =>
    cases hget
    exact ⟨definition, heq ▸ hsource, horigin⟩
  next => exact h.copying other found hget

theorem Scope.Sound.hop (h : scope.Sound source origins) (hops : Nat) :
    (scope.hop hops).Sound source origins :=
  ⟨h.toServes.hop hops, h.copying⟩

end Scope

theorem isVacant_of_target? {node : Json} {name : String} (h : target? node = some name) :
    node.isVacant = false := by
  cases node with
  | obj members => cases members <;> simp_all [target?, Json.get?, Json.isVacant]
  | _ => simp [target?, Json.get?] at h

theorem isVacant_of_isArray {node : Json} (h : isArray node = true) : node.isVacant = false := by
  cases node with
  | obj members => cases members <;> simp_all [isArray, Json.get?, Json.isVacant]
  | _ => simp [isArray, Json.get?] at h

theorem isVacant_of_isRecord {node : Json} (h : isRecord node = true) :
    node.isVacant = false := by
  cases node with
  | obj members => cases members <;> simp_all [isRecord, Json.get?, Json.isVacant]
  | _ => simp [isRecord, Json.get?] at h

/-- Where a reference stands the definition behind it may be named instead. -/
theorem exchanged_of_refers {source origins : Table Json} {kept : String → Prop} {part : Part}
    {node lifted : Json} {target name : String} {definition : Json} (hrefer : part.MayRefer node)
    (htarget : target? node = some target) (hsource : Table.get? source target = some definition)
    (heq : lifted = refTo name) (horigin : Table.get? origins name = some definition) :
    part.Made source origins kept node lifted := by
  have hexchanged : Exchanged source origins node lifted :=
    ⟨isObject_of_target? htarget, name, definition, heq, horigin, .inr ⟨target, htarget, hsource⟩⟩
  cases part with
  | property => exact .inr ⟨isVacant_of_target? htarget, hexchanged⟩
  | item => exact hexchanged
  | _ => exact hrefer.elim

theorem made_of_moves {source origins : Table Json} {kept : String → Prop} {scope : Scope}
    {part : Part} {node lifted : Json} (hmoves : part.Moves scope node)
    (hexchanged : Exchanged source origins node lifted) :
    part.Made source origins kept node lifted := by
  cases part with
  | property => exact .inr ⟨isVacant_of_isRecord hmoves, hexchanged⟩
  | item => exact hexchanged
  | _ => exact hmoves.elim

/-- In the definitions that lifting adds every node of the draft has its place. -/
theorem Lifts.recorded {source : Table Json} {kept : String → Prop} {Node Bare : Json → Prop}
    (hwalk : Walkable source kept Node Bare) {part : Part} {scope : Scope}
    {definitions later : Table Json} {node lifted : Json} {path : String}
    (h : Lifts part scope definitions node path lifted later)
    (hnode : part.Within kept Node Bare node) {origins : Table Json}
    (hsound : scope.Sound source origins)
    (hnames : ∀ name, name ∈ Table.names origins ↔ name ∈ Table.names definitions) :
    ∃ origins', Recorded source kept Node definitions later origins origins' ∧
      part.Made source origins' kept node lifted := by
  induction h generalizing origins with
  | plain hplain => exact ⟨origins, .refl hnames, copies_refl _ (hwalk.idleBody hnode hplain)⟩
  | within hproperties _ ih =>
      obtain ⟨hkept, hmembers⟩ := hwalk.properties _ _ hnode.1 hproperties
      obtain ⟨origins', hrecorded, hmade⟩ := ih hmembers hsound hnames
      refine ⟨origins', hrecorded, ?_⟩
      exact copies_set (hwalk.besideProperties hnode) (by decide) (by decide) (by decide)
        hproperties (copies_of_properties hkept hmade).place
  | nil => exact ⟨origins, .refl hnames, fun _ => .none⟩
  | @cons scope definitions middle later path name value lifted rest liftedRest hvalue hrest
      ihvalue ihrest =>
      obtain ⟨hvalue, hothers⟩ := List.forall_mem_cons.mp hnode
      obtain ⟨origins₁, hfirst, hproperty⟩ := ihvalue hvalue hsound hnames
      obtain ⟨origins₂, hothers, hmembers⟩ :=
        ihrest hothers (hsound.extends hfirst.grows) hfirst.names
      refine ⟨origins₂, hfirst.trans hothers hrest.extends, fun other => ?_⟩
      by_cases heq : name = other
      · simp only [Json.get?, Table.get?, heq, if_true]
        exact .some (hproperty.extends hothers.grows)
      · simp only [Json.get?, Table.get?, heq, if_false]
        exact hmembers other
  | kept harray hrecord hcopied hpending =>
      have hnode := hnode.resolve_right fun hbare =>
        hsound.not_resolves hcopied hpending (hwalk.bare _ hbare)
      exact ⟨origins, .refl hnames, .inl ⟨rfl, hwalk.idle _ hnode harray (.inl hrecord)⟩⟩
  | @back part scope definitions node path name hrefer harray hcopied =>
      refine ⟨origins, .refl hnames, ?_⟩
      obtain ⟨target, htarget, hget⟩ := Option.bind_eq_some_iff.mp hcopied
      obtain ⟨definition, hsource, horigin⟩ := hsound.copying target name hget
      exact exchanged_of_refers hrefer htarget hsource rfl horigin
  | @moved part scope definitions later node lifted path name hmoves harray hname _ ih =>
      obtain ⟨hfresh, _⟩ := hname ▸ scope.freshFor_not_mem definitions path
      have hclass := hwalk.of_moves hnode hmoves hsound.toServes
      obtain ⟨origins', hrecorded, hcopies⟩ := ih ⟨hclass, by simp [harray]⟩
          (hsound.extends (Extends.set (fun hmem => hfresh ((hnames _).mp hmem)) node))
          (Recorded.start hnames name node)
      refine ⟨origins', hrecorded.finish hfresh hnames hclass hcopies, ?_⟩
      have horigin := hrecorded.grows name node (Table.get?_set_self _ _ _)
      exact made_of_moves hmoves ⟨hmoves.isObject, name, node, rfl, horigin, .inl rfl⟩
  | @copied part scope definitions later node definition lifted path name target hrefer harray
      hcopied htarget hget hdefinition hname _ ih =>
      obtain ⟨hfresh, _⟩ := hname ▸ scope.freshFor_not_mem definitions path
      have hsource := hsound.pending target definition hget
      have hclass := hwalk.of_refers hnode hrefer htarget hsource
      have hextends : Extends origins (Table.set origins name definition) :=
        Extends.set (fun hmem => hfresh ((hnames _).mp hmem)) definition
      obtain ⟨origins', hrecorded, hcopies⟩ :=
        ih ⟨hclass, by simp [hdefinition]⟩
          ((hsound.extends hextends).copy hsource (Table.get?_set_self _ _ _))
          (Recorded.start hnames name definition)
      refine ⟨origins', hrecorded.finish hfresh hnames hclass hcopies, ?_⟩
      have horigin := hrecorded.grows name definition (Table.get?_set_self _ _ _)
      exact exchanged_of_refers hrefer htarget hsource rfl horigin
  | copiedArray hrefer _ _ htarget hget _ _ _ ih =>
      have hsource := hsound.pending _ _ hget
      obtain ⟨origins', hrecorded, name, heq, horigin⟩ :=
        ih (hwalk.of_refers hnode hrefer htarget hsource) (hsound.hop _) hnames
      exact ⟨origins', hrecorded, exchanged_of_refers hrefer htarget hsource heq horigin⟩
  | @direct part scope definitions later node lifted path hpart harray _ ih =>
      obtain ⟨origins', hrecorded, name, heq, horigin⟩ :=
        ih (hwalk.of_isArray hnode hpart harray) hsound hnames
      refine ⟨origins', hrecorded, ?_⟩
      have hexchanged : Exchanged source origins' node lifted :=
        ⟨isObject_of_isArray harray, name, node, heq, horigin, .inl rfl⟩
      rcases hpart with rfl | rfl
      · exact .inr ⟨isVacant_of_isArray harray, hexchanged⟩
      · exact hexchanged
  | @array scope definitions later node items path name harray _ hname ih =>
      obtain ⟨hfresh, _⟩ := hname ▸ scope.freshFor_not_mem later path
      obtain ⟨origins₁, hrecorded, hitems⟩ := ih (hwalk.items node hnode harray) hsound hnames
      have hfresh' : name ∉ Table.names origins₁ := fun hmem =>
        hfresh ((hrecorded.names name).mp hmem)
      have hbeside := hwalk.beside node hnode
      rw [if_pos harray] at hbeside
      obtain ⟨_, inner, _, rfl, _⟩ := id hitems
      have hcopies := copies_replaceItems hbeside harray
        (.exchanged (hitems.extends (Extends.set hfresh' node)))
      exact ⟨Table.set origins₁ name node,
        hrecorded.trans (.single hfresh hrecorded.names hnode hcopies) (Extends.set hfresh _),
        name, rfl, Table.get?_set_self _ _ _⟩

/-- What is below the root of a draft is lifted like every other part. -/
theorem liftRoot_recorded {source : Table Json} {kept : String → Prop} {Node Bare : Json → Prop}
    (hwalk : Walkable source kept Node Bare) {scope : Scope} {root lifted : Json} {path : String}
    {definitions : Table Json} (h : liftRoot scope root path = .ok (lifted, definitions))
    (hroot : Node root) (hsound : scope.Sound source []) :
    ∃ origins, Recorded source kept Node [] definitions [] origins ∧
      Copies source origins kept root lifted := by
  rw [liftRoot] at h
  split at h
  next harray =>
    obtain ⟨⟨items, later⟩, hitems, heq⟩ := bind_eq_ok h
    cases heq
    obtain ⟨origins, hrecorded, hmade⟩ :=
      (lifts_of_liftItem hitems).recorded hwalk (hwalk.items root hroot harray) hsound
        (fun _ => Iff.rfl)
    have hbeside := hwalk.beside root hroot
    rw [if_pos harray] at hbeside
    obtain ⟨_, name, _, rfl, _⟩ := id hmade
    exact ⟨origins, hrecorded, copies_setItems hbeside harray (.exchanged hmade)⟩
  next harray =>
    exact (lifts_of_liftProperties h).recorded hwalk ⟨hroot, fun hisArray => absurd hisArray harray⟩
      hsound (fun _ => Iff.rfl)

/-- Lifting below the root writes at most one of its members. -/
theorem liftRoot_eq {scope : Scope} {root lifted : Json} {path : String}
    {definitions : Table Json} (h : liftRoot scope root path = .ok (lifted, definitions)) :
    lifted = root ∨ ∃ value, lifted = root.set "items" value ∨ lifted = root.set "properties" value := by
  rw [liftRoot] at h
  split at h
  next =>
    obtain ⟨⟨items, later⟩, _, heq⟩ := bind_eq_ok h
    cases heq
    exact .inr ⟨items, .inl rfl⟩
  next =>
    rw [liftProperties] at h
    split at h
    next =>
      obtain ⟨⟨members, later⟩, _, heq⟩ := bind_eq_ok h
      cases heq
      exact .inr ⟨_, .inr rfl⟩
    next =>
      cases h
      exact .inl rfl

theorem label_liftRoot {scope : Scope} {root lifted : Json} {path : String}
    {definitions : Table Json} (h : liftRoot scope root path = .ok (lifted, definitions)) :
    label lifted = label root := by
  rcases liftRoot_eq h with rfl | ⟨value, rfl | rfl⟩
  · rfl
  · cases root <;> rfl
  · cases root <;> rfl

theorem get?_liftRoot {scope : Scope} {root lifted : Json} {path : String}
    {definitions : Table Json} (h : liftRoot scope root path = .ok (lifted, definitions))
    {name : String} (hitems : name ≠ "items") (hproperties : name ≠ "properties") :
    lifted.get? name = root.get? name := by
  have hset {key : String} (hne : name ≠ key) (value : Json) :
      (root.set key value).get? name = root.get? name := by
    cases root with
    | obj members => exact Table.get?_set_of_ne _ _ hne
    | _ => rfl
  rcases liftRoot_eq h with rfl | ⟨value, rfl | rfl⟩
  · rfl
  · exact hset hitems value
  · exact hset hproperties value

end RequestShapes.Schema
