import RequestShapes.Proofs.Schema.Evaluation
import RequestShapes.Proofs.Schema.Regular

/-!
# Lifting what was lifted

The result of lifting a regular draft has a definition for every nested shape,
and each shape refers to the others by name. Lifting it again copies every
definition where the first run moved or copied a node. The copies ask for the
same names in the same order, so the second run gives back what it was given.
-/

namespace RequestShapes

namespace Table

variable {α : Type}

/-- Laid over itself a table stays as it is. -/
theorem overlay_self {table : Table α} (h : (names table).Nodup) : overlay table table = table := by
  unfold overlay
  conv_rhs => rw [← List.map_id table]
  apply List.map_congr_left
  intro entry hmem
  have hget : get? table entry.1 = some entry.2 := get?_of_mem h hmem
  simp [hget]

/-- What is written under a name does not matter if the other table has a value
there. -/
theorem overlay_set {others : Table α} {name : String} {value : α}
    (h : get? others name = some value) (table : Table α) (old : α) :
    overlay (set table name old) others = set (overlay table others) name value := by
  induction table with
  | nil => simp [set, overlay, h]
  | cons entry rest ih =>
      obtain ⟨key, present⟩ := entry
      unfold overlay at ih ⊢
      by_cases hkey : key = name
      · simp [set, hkey, h]
      · simp [set, hkey, ih]

end Table

namespace Schema

/-! ## The two runs side by side -/

/-- The part that the next run meets where this one met a part. An array has
become a reference, which stands as a property or as items. -/
def Part.Again : Part → Part → Prop
  | .array, second => second = .property ∨ second = .item
  | part, second => second = part

/-- New definitions are what they are in the end. -/
def Finished (definitions later final : Table Json) : Prop :=
  ∀ name copy, name ∉ Table.names definitions → Table.get? later name = some copy →
    Table.get? final name = some copy

/-- A scope of the next run beside one of this run. Definitions are under copy
under their own names, and all others are open with what they are in the
end. -/
structure Scope.Repeats (again scope : Scope) (definitions final : Table Json) : Prop where
  reserved : again.reserved = scope.reserved
  copying : ∀ target name, Table.get? scope.copying target = some name →
    Table.get? again.copying name = some name
  own : Table.names again.copying ⊆ Table.names definitions
  pending : ∀ name, name ∉ Table.names again.copying →
    Table.get? again.pending name = Table.get? final name

namespace Finished

variable {definitions middle later final : Table Json}

theorem before (h : Finished definitions later final) (hextends : Extends middle later) :
    Finished definitions middle final :=
  fun name copy hnew hget => h name copy hnew (hextends name copy hget)

theorem after (h : Finished definitions later final) (hextends : Extends definitions middle) :
    Finished middle later final :=
  fun name copy hnew hget => h name copy (fun hmem => hnew (hextends.names_subset hmem)) hget

/-- While a definition is under way all others are finished. -/
theorem within {name : String} {node lifted : Json}
    (h : Finished definitions (Table.set later name lifted) final) :
    Finished (Table.set definitions name node) later final := by
  intro other copy hnew hget
  rw [Table.mem_names_set, not_or] at hnew
  refine h other copy hnew.2 ?_
  rw [Table.get?_set_of_ne _ _ hnew.1, hget]

theorem written {name : String} {lifted : Json}
    (h : Finished definitions (Table.set later name lifted) final)
    (hfresh : name ∉ Table.names definitions) : Table.get? final name = some lifted :=
  h name lifted hfresh (Table.get?_set_self _ _ _)

end Finished

namespace Scope.Repeats

variable {again scope : Scope} {definitions middle final : Table Json}

theorem grow (h : again.Repeats scope definitions final) (hextends : Extends definitions middle) :
    again.Repeats scope middle final where
  reserved := h.reserved
  copying := h.copying
  own := List.Subset.trans h.own hextends.names_subset
  pending := h.pending

theorem hop (h : again.Repeats scope definitions final) (hops : Nat) :
    (again.hop hops).Repeats scope definitions final :=
  ⟨h.reserved, h.copying, h.own, h.pending⟩

/-- Only the next run counts how many array definitions may follow. -/
theorem of_hop {hops : Nat} (h : again.Repeats scope definitions final) :
    again.Repeats (scope.hop hops) definitions final :=
  ⟨h.reserved, h.copying, h.own, h.pending⟩

/-- The next run copies a definition that this run moved. -/
theorem moved (h : again.Repeats scope definitions final) (name : String) (node : Json) :
    (again.copy name name).Repeats scope (Table.set definitions name node) final where
  reserved := h.reserved
  copying := fun target other hget => by
    rw [Scope.copy, Table.get?_set]
    split
    next heq => rw [heq]
    next => exact h.copying target other hget
  own := fun other hmem => by
    rw [Scope.copy, Table.mem_names_set] at hmem
    exact Table.mem_names_set.mpr (hmem.imp_right (h.own ·))
  pending := fun other hnot => by
    rw [Scope.copy, Table.mem_names_set, not_or] at hnot
    rw [Scope.copy, Table.get?_erase, if_neg hnot.1]
    exact h.pending other hnot.2

/-- The next run copies a definition that this run copied. -/
theorem copied (h : again.Repeats scope definitions final) (target name : String) (node : Json) :
    (again.copy name name).Repeats (scope.copy target name) (Table.set definitions name node)
      final where
  reserved := h.reserved
  copying := fun other found hget => by
    rw [Scope.copy, Table.get?_set] at hget
    split at hget
    next =>
      cases hget
      exact Table.get?_set_self _ _ _
    next => exact (h.moved name node).copying other found hget
  own := (h.moved name node).own
  pending := (h.moved name node).pending

theorem freshFor (h : again.Repeats scope definitions final) (table : Table Json) (path : String) :
    again.freshFor (Table.overlay table final) path = scope.freshFor table path := by
  rw [Scope.freshFor, Scope.freshFor, Table.names_overlay, h.reserved]

theorem copied?_eq_none (h : again.Repeats scope definitions final) {name : String}
    (hfresh : name ∉ Table.names definitions) : again.copied? (refTo name) = none := by
  rw [Scope.copied?, target?_refTo]
  exact Table.get?_eq_none_iff.mpr fun hmem => hfresh (h.own hmem)

theorem pending_eq (h : again.Repeats scope definitions final) {name : String} {copy : Json}
    (hfresh : name ∉ Table.names definitions) (hfinal : Table.get? final name = some copy) :
    Table.get? again.pending name = some copy :=
  (h.pending name fun hmem => hfresh (h.own hmem)).trans hfinal

end Scope.Repeats

/-! ## What the next run meets -/

theorem mayRefer_refTo {part : Part} (h : part = .property ∨ part = .item) (name : String) :
    part.MayRefer (refTo name) := by
  rcases h with rfl | rfl
  · simp [Part.MayRefer, isRecord, refTo, Json.get?, Table.get?]
  · rfl

@[simp] theorem isArray_refTo (name : String) : isArray (refTo name) = false := by
  simp [isArray, refTo, Json.get?, Table.get?]

theorem Part.Moves.stands {scope : Scope} {part : Part} {node : Json}
    (h : part.Moves scope node) : part = .property ∨ part = .item := by
  cases part <;> simp_all [Part.Moves]

theorem Part.MayRefer.stands {part : Part} {node : Json} (h : part.MayRefer node) :
    part = .property ∨ part = .item := by
  cases part <;> simp_all [Part.MayRefer]

theorem Part.Again.eq {part second : Part} (h : part.Again second)
    (hpart : part = .property ∨ part = .item) : second = part := by
  rcases hpart with rfl | rfl <;> exact h

/-- Lifting what is below a node does not make an array of it. -/
theorem Lifts.isArray_body {scope : Scope} {definitions later : Table Json} {node lifted : Json}
    {path : String} (h : Lifts .body scope definitions node path lifted later) :
    isArray lifted = isArray node := by
  cases h with
  | plain => rfl
  | within =>
      cases node with
      | obj members =>
          refine decide_eq_decide.mpr ?_
          rw [Json.set, Json.get?, Json.get?, Table.get?_set_of_ne _ _ (by decide)]
      | _ => rfl
  | moved hmoves | copied hmoves | back hmoves | copiedArray hmoves => exact hmoves.elim
  | direct hpart => simp at hpart

/-- The array with the reference to its items. -/
def itemsReplaced (node items : Json) : Json :=
  (node.erase "items").set "items" items

section Items

variable {node : Json} (harray : isArray node = true) (name : String)
include harray

theorem isArray_itemsReplaced : isArray (itemsReplaced node (refTo name)) = true := by
  cases node with
  | obj members =>
      have htype : Table.get? members "type" = some (.str "array") := of_decide_eq_true harray
      refine decide_eq_true ?_
      rw [itemsReplaced, Json.erase, Json.set, Json.get?, Table.get?_set_of_ne _ _ (by decide),
        Table.get?_erase, if_neg (by decide), htype]
  | _ => simp [isArray, Json.get?] at harray

theorem itemsOf_itemsReplaced : itemsOf (itemsReplaced node (refTo name)) = refTo name := by
  cases node with
  | obj members =>
      rw [itemsOf, itemsReplaced, Json.erase, Json.set, Json.get?, Table.get?_set_self,
        filled?_refTo, Option.getD_some]
  | _ => simp [isArray, Json.get?] at harray

theorem itemsReplaced_itemsReplaced :
    itemsReplaced (itemsReplaced node (refTo name)) (refTo name) =
      itemsReplaced node (refTo name) := by
  cases node with
  | obj members =>
      have hnot : "items" ∉ Table.names (Table.erase members "items") := by
        rw [← Table.get?_eq_none_iff, Table.get?_erase, if_pos rfl]
      simp only [itemsReplaced, Json.erase, Json.set, Table.erase_set_of_not_mem hnot]
  | _ => simp [isArray, Json.get?] at harray

end Items

/-- In place of items always stands a reference. -/
theorem Lifts.item_eq_refTo {part : Part} {scope : Scope} {definitions later : Table Json}
    {node lifted : Json} {path : String} (h : Lifts part scope definitions node path lifted later)
    (hpart : part = .item ∨ part = .array) : ∃ name, lifted = refTo name := by
  induction h with
  | plain | within | nil | cons | kept => simp at hpart
  | back | moved | copied | array => exact ⟨_, rfl⟩
  | copiedArray _ _ _ _ _ _ _ _ ih | direct _ _ _ ih => exact ih (.inr rfl)

theorem Lifts.length_le {part : Part} {scope : Scope} {definitions later : Table Json}
    {node lifted : Json} {path : String}
    (h : Lifts part scope definitions node path lifted later) :
    definitions.length ≤ later.length := by
  obtain ⟨added, hnames, _⟩ := h.adds .trivial trivial
  have hlength := congrArg List.length hnames
  simp only [Table.names, List.length_append, List.length_map] at hlength
  omega

theorem length_set_of_not_mem {definitions : Table Json} {name : String}
    (h : name ∉ Table.names definitions) (node : Json) :
    (Table.set definitions name node).length = definitions.length + 1 := by
  have hlength := congrArg List.length (Table.names_set_of_not_mem h node)
  simpa [Table.names] using hlength

/-- A definition under way is counted from the start. -/
theorem Lifts.length_set {part : Part} {scope : Scope} {definitions later : Table Json}
    {node inner lifted : Json} {path name : String}
    (h : Lifts part scope (Table.set definitions name node) inner path lifted later)
    (finished : Json) : (Table.set later name finished).length = later.length := by
  have hmem : name ∈ Table.names later :=
    h.extends.names_subset (Table.mem_names_set.mpr (.inl rfl))
  have hlength := congrArg List.length (Table.names_set_of_mem hmem finished)
  simpa [Table.names] using hlength

/-! ## One step of the next run -/

section Steps

variable {again scope : Scope} {definitions later final : Table Json} {node lifted : Json}
  {path name : String} {part : Part}

/-- Where this run moved a node or copied a definition the next run copies the
definition that came about. -/
theorem Scope.Repeats.copies (hrepeats : again.Repeats scope definitions final)
    (hpart : part = .property ∨ part = .item) (hname : scope.freshFor definitions path = name)
    (hfinal : Finished definitions (Table.set later name lifted) final)
    (harray : isArray lifted = false)
    (h : Lifts .body (again.copy name name)
      (Table.overlay (Table.set definitions name node) final) lifted name lifted
      (Table.overlay later final)) :
    Lifts part again (Table.overlay definitions final) (refTo name) path (refTo name)
      (Table.overlay (Table.set later name lifted) final) := by
  obtain ⟨hfresh, _⟩ := hname ▸ scope.freshFor_not_mem definitions path
  have hwritten := hfinal.written hfresh
  rw [Table.overlay_set hwritten] at h ⊢
  refine .copied (mayRefer_refTo hpart name) (isArray_refTo name) ?_ (target?_refTo name) ?_ harray
    ?_ h
  · exact hrepeats.copied?_eq_none hfresh
  · exact hrepeats.pending_eq hfresh hwritten
  · rw [hrepeats.freshFor, hname]

/-- Where this run gave an array a definition the next run copies that
definition, which is an array. -/
theorem Scope.Repeats.copiesArray {hops : Nat} {inner : String}
    (hrepeats : again.Repeats scope definitions final)
    (hpart : part = .property ∨ part = .item) (harray : isArray node = true)
    (hextends : Extends definitions later) (hname : scope.freshFor later path = name)
    (hfinal : Table.get? final name = some (itemsReplaced node (refTo inner)))
    (hhops : again.hops = hops + 1)
    (h : Lifts .item (again.hop hops) (Table.overlay definitions final) (refTo inner)
      (path ++ "Item") (refTo inner) (Table.overlay later final)) :
    Lifts part again (Table.overlay definitions final) (refTo name) path (refTo name)
      (Table.overlay (Table.set later name (itemsReplaced node (refTo inner))) final) := by
  obtain ⟨hfresh, _⟩ := hname ▸ scope.freshFor_not_mem later path
  have hnew : name ∉ Table.names definitions := fun hmem => hfresh (hextends.names_subset hmem)
  have hagain := isArray_itemsReplaced harray inner
  rw [Table.overlay_set hfinal, ← itemsReplaced_itemsReplaced harray inner]
  refine .copiedArray (mayRefer_refTo hpart name) (isArray_refTo name) ?_ (target?_refTo name) ?_
    hagain hhops (.array hagain ?_ ?_)
  · exact hrepeats.copied?_eq_none hnew
  · exact hrepeats.pending_eq hnew hfinal
  · rwa [itemsOf_itemsReplaced harray]
  · rw [(hrepeats.hop hops).freshFor, hname]

end Steps

/-! ## The next run -/

/-- The next run finds in each lifted part what it would make of it. It meets
the definitions in the order in which this run made them, and it follows array
definitions as often as this run made some. -/
theorem Lifts.repeats {source : Table Json} {Node Bare : Json → Prop}
    (hwalk : Walkable source (fun _ => False) Node Bare) {part : Part} {scope : Scope}
    {definitions later final : Table Json} {node lifted : Json} {path : String}
    (h : Lifts part scope definitions node path lifted later)
    (hnode : part.Within (fun _ => False) Node Bare node) (hserves : scope.Serves source)
    (hfinal : Finished definitions later final) {again : Scope}
    (hrepeats : again.Repeats scope definitions final) (hlimit : later.length ≤ again.limit)
    (hhops : later.length ≤ definitions.length + again.hops) {second : Part}
    (hsecond : part.Again second) :
    Lifts second again (Table.overlay definitions final) lifted path lifted
      (Table.overlay later final) := by
  -- definitions that are still to come pay for the hops: each array makes one
  induction h generalizing again second with
  | plain hplain =>
      cases hsecond
      exact .plain hplain
  | @within scope definitions later node path members lifted hproperties _ ih =>
      cases hsecond
      have hmembers := (hwalk.properties _ _ hnode.1 hproperties).2
      have hinner := ih hmembers hserves hfinal hrepeats hlimit hhops rfl
      have hget : (node.set "properties" (.obj lifted)).get? "properties" = some (.obj lifted) := by
        cases node with
        | obj members => exact Table.get?_set_self _ _ _
        | _ => simp [Json.get?] at hproperties
      have hwithin := Lifts.within hget hinner
      have hset : (node.set "properties" (.obj lifted)).set "properties" (.obj lifted) =
          node.set "properties" (.obj lifted) := by
        cases node with
        | obj members => rw [Json.set, Json.set, Table.set_set]
        | _ => rfl
      rwa [hset] at hwithin
  | nil =>
      cases hsecond
      exact .nil
  | @cons scope definitions middle later path name value lifted rest liftedRest hvalue hrest
      ihvalue ihrest =>
      cases hsecond
      obtain ⟨hinner, hothers⟩ := List.forall_mem_cons.mp hnode
      have hfirst := hvalue.length_le
      have hthen := hrest.length_le
      refine .cons (ihvalue hinner hserves (hfinal.before hrest.extends) hrepeats ?_ ?_ rfl)
        (ihrest hothers hserves (hfinal.after hvalue.extends) (hrepeats.grow hvalue.extends) hlimit
          ?_ rfl)
      · omega
      · omega
      · omega
  | @kept scope definitions node path harray hrecord hcopied hpending =>
      cases hsecond
      -- no reference is kept: all that resolve were followed
      have hclass := hnode.resolve_right fun hbare =>
        hserves.not_resolves hcopied hpending (hwalk.bare _ hbare)
      have hnone : target? node = none := by
        cases htarget : target? node with
        | none => rfl
        | some target =>
            exact (hwalk.idle node hclass harray (.inl hrecord) target
              (mem_targets_of_target? htarget)).elim
      refine .kept harray hrecord ?_ ?_
      · rw [Scope.copied?, hnone]
        rfl
      · unfold Scope.pending?
        split
        next => rfl
        next target htarget => rw [hnone] at htarget; cases htarget
  | back hrefer _ hcopied =>
      rw [hsecond.eq hrefer.stands]
      obtain ⟨target, _, hget⟩ := Option.bind_eq_some_iff.mp hcopied
      refine .back (mayRefer_refTo hrefer.stands _) (isArray_refTo _) ?_
      rw [Scope.copied?, target?_refTo]
      exact hrepeats.copying target _ hget
  | @moved part scope definitions later node lifted path name hmoves harray hname hlifts ih =>
      -- what was moved is copied now, and a copy starts with all hops again
      rw [hsecond.eq hmoves.stands]
      rw [hlifts.length_set] at hlimit hhops
      have hinner := ih ⟨hwalk.of_moves hnode hmoves hserves, by simp [harray]⟩ hserves
        hfinal.within (hrepeats.moved name node) hlimit
        (by simp only [Scope.copy]; omega) rfl
      exact hrepeats.copies hmoves.stands hname hfinal (hlifts.isArray_body.trans harray) hinner
  | @copied part scope definitions later node definition lifted path name target hrefer _ _
      htarget hget harray hname hlifts ih =>
      rw [hsecond.eq hrefer.stands]
      rw [hlifts.length_set] at hlimit hhops
      have hdefinition := hwalk.of_refers hnode hrefer htarget (hserves.pending _ _ hget)
      have hinner := ih ⟨hdefinition, by simp [harray]⟩ (hserves.copy target name)
        hfinal.within (hrepeats.copied target name definition)
        hlimit (by simp only [Scope.copy]; omega) rfl
      exact hrepeats.copies hrefer.stands hname hfinal (hlifts.isArray_body.trans harray) hinner
  | copiedArray hrefer _ _ htarget hget _ _ _ ih =>
      rw [hsecond.eq hrefer.stands]
      exact ih (hwalk.of_refers hnode hrefer htarget (hserves.pending _ _ hget)) (hserves.hop _)
        hfinal hrepeats.of_hop hlimit hhops hrefer.stands
  | direct hpart harray _ ih =>
      rw [hsecond.eq hpart]
      exact ih (hwalk.of_isArray hnode hpart harray) hserves hfinal hrepeats hlimit hhops hpart
  | @array scope definitions later node items path name harray hlifts hname ih =>
      obtain ⟨inner, rfl⟩ := hlifts.item_eq_refTo (.inl rfl)
      obtain ⟨hfresh, _⟩ := hname ▸ scope.freshFor_not_mem later path
      have hnew : name ∉ Table.names definitions :=
        fun hmem => hfresh (hlifts.extends.names_subset hmem)
      have hlength := length_set_of_not_mem hfresh (itemsReplaced node (refTo inner))
      have hshort := hlifts.length_le
      rw [itemsReplaced] at hlength
      -- the array met again is a definition, and following it takes a hop
      obtain ⟨hops, hhops'⟩ := Nat.exists_eq_add_one_of_ne_zero (n := again.hops) (by omega)
      have hitems := ih (hwalk.items node hnode harray) hserves
        (hfinal.before (Extends.set hfresh _)) (hrepeats.hop hops)
        (by simp only [Scope.hop]; omega) (by simp only [Scope.hop]; omega) rfl
      exact hrepeats.copiesArray hsecond harray hlifts.extends hname (hfinal.written hnew) hhops'
        hitems

theorem Scope.Repeats.initial (reserved : List String) (source final : Table Json) :
    (Scope.initial reserved final).Repeats (Scope.initial reserved source) [] final where
  reserved := rfl
  copying := fun target name hget => by simp [Scope.initial] at hget
  own := fun name hmem => by simp [Scope.initial, Table.names] at hmem
  pending := fun _ _ => rfl

/-- What a part of the root became stays as it is when it is lifted with the
definitions that came about. -/
theorem Lifts.run_repeats {source : Table Json} {Node Bare : Json → Prop}
    (hwalk : Walkable source (fun _ => False) Node Bare) {part : Part} {reserved : List String}
    {final : Table Json} {node lifted : Json} {path : String}
    (h : Lifts part (.initial reserved source) [] node path lifted final)
    (hnode : part.Within (fun _ => False) Node Bare node) (hpart : part.Again part)
    (hobjects : ∀ name node, Table.get? final name = some node → node.isObject = true) :
    part.run (.initial reserved final) [] lifted path = .ok (lifted, final) := by
  have hserves := Scope.Serves.initial reserved source
  have hfinal : Finished [] final final := fun _ _ _ hget => hget
  have hagain := h.repeats hwalk hnode hserves hfinal (.initial reserved source final)
    (by simp [Scope.initial]) (by simp [Scope.initial]) hpart
  rw [Table.overlay_self (h.nodup_names List.nodup_nil)] at hagain
  exact hagain.run_eq hobjects

theorem liftRoot_repeats {source : Table Json} {Node Bare : Json → Prop}
    (hwalk : Walkable source (fun _ => False) Node Bare) {reserved : List String}
    {root lifted : Json} {path : String} {definitions : Table Json}
    (h : liftRoot (.initial reserved source) root path = .ok (lifted, definitions))
    (hroot : Node root)
    (hobjects : ∀ name node, Table.get? definitions name = some node → node.isObject = true) :
    liftRoot (.initial reserved definitions) lifted path = .ok (lifted, definitions) := by
  rw [liftRoot] at h
  split at h
  next harray =>
    obtain ⟨⟨items, later⟩, hitems, heq⟩ := bind_eq_ok h
    cases heq
    have hlifts := lifts_of_liftItem hitems
    have hrun := hlifts.run_repeats hwalk (hwalk.items root hroot harray) rfl hobjects
    rw [Part.run] at hrun
    obtain ⟨name, rfl⟩ := hlifts.item_eq_refTo (.inl rfl)
    cases root with
    | obj members =>
        have htype : Table.get? members "type" = some (.str "array") := of_decide_eq_true harray
        have hagain : isArray ((Json.obj members).set "items" (refTo name)) = true := by
          refine decide_eq_true ?_
          rw [Json.set, Json.get?, Table.get?_set_of_ne _ _ (by decide), htype]
        rw [liftRoot, if_pos hagain, Json.set, Json.get?, Table.get?_set_self, filled?_refTo,
          Option.getD_some, hrun]
        simp only [bind, Except.bind, Json.set, Table.set_set]
    | _ => simp [isArray, Json.get?] at harray
  next harray =>
    have hlifts := lifts_of_liftProperties h
    have hrun := hlifts.run_repeats hwalk ⟨hroot, fun hisArray => absurd hisArray harray⟩ rfl
      hobjects
    rwa [liftRoot, hlifts.isArray_body, if_neg harray]

/-! ## Whole drafts -/

/-- A draft whose lifted root and definitions are complete: there is nothing to
take over. -/
structure LiftsTo (draft : Json) (rootName : String) (reserved : List String) (root : Json)
    (definitions : Table Json) : Prop where
  run : liftRoot (.initial (rootName :: reserved) (definitionsOf draft)) (rootOf draft) rootName =
    .ok (root, definitions)
  isObject : root.isObject = true
  plain : root.get? "definitions" = none
  objects : ∀ name node, Table.get? definitions name = some node → node.isObject = true
  complete : ∀ scope fuel, adopt scope fuel root definitions = .ok (root, definitions)

theorem LiftsTo.lift {draft : Json} {rootName : String} {reserved : List String} {root : Json}
    {definitions : Table Json} (h : LiftsTo draft rootName reserved root definitions)
    (hobject : draft.isObject = true) :
    lift draft rootName reserved = .ok (root.set "definitions" (.obj definitions)) := by
  have hrun := h.run
  rw [rootOf] at hrun
  simp only [Schema.lift, hobject, hrun, h.complete, if_true, bind, Except.bind]

theorem LiftsTo.again {draft : Json} {rootName : String} {reserved : List String} {root : Json}
    {definitions : Table Json} (h : LiftsTo draft rootName reserved root definitions)
    {Node Bare : Json → Prop}
    (hwalk : Walkable (definitionsOf draft) (fun _ => False) Node Bare)
    (hroot : Node (rootOf draft)) :
    LiftsTo (root.set "definitions" (.obj definitions)) rootName reserved root definitions := by
  obtain ⟨hpart, hdefinitions⟩ := parts_of_set h.isObject h.plain definitions
  refine ⟨?_, h.isObject, h.plain, h.objects, h.complete⟩
  rw [hpart, hdefinitions]
  exact liftRoot_repeats hwalk h.run hroot h.objects

/-- A regular draft leaves nothing to be taken over. -/
theorem RegularDraft.liftsTo {draft : Json} (h : RegularDraft draft) (rootName : String)
    (reserved : List String) :
    ∃ root definitions, LiftsTo draft rootName reserved root definitions := by
  have htable : OrderlyTable (definitionsOf draft) := fun name node hget =>
    ⟨(h.definition name node hget).isObject, (h.definition name node hget).orderly⟩
  obtain ⟨⟨root, definitions⟩, hrun⟩ :=
    liftRoot_ok htable h.acyclic h.root.orderly rootName (rootName :: reserved)
  have hwalk := walkable_regular h.definition
  obtain ⟨hroot, hclosed⟩ := liftRoot_closed hwalk (.initial _ _) rfl hrun h.root
  obtain ⟨origins, hrecorded, _⟩ := liftRoot_recorded hwalk hrun h.root (.initial _ _ _)
  refine ⟨root, definitions, hrun, ?_, ?_, fun name node hget => ?_, fun scope fuel => ?_⟩
  · rw [← label_eq_obj_iff, label_liftRoot hrun, label_eq_obj_iff]
    exact h.root.isObject
  · rw [get?_liftRoot hrun (by decide) (by decide), get?_definitions_rootOf]
  · obtain ⟨origin, horigin⟩ := Table.exists_get?_of_mem_names
      ((hrecorded.names name).mpr (Table.mem_names_of_get? hget))
    obtain ⟨hnode, copy, hcopy, hcopies⟩ :=
      hrecorded.copies name origin (by simp [Table.names]) horigin
    obtain rfl := Option.some.inj (hcopy.symm.trans hget)
    rw [← label_eq_obj_iff, ← hcopies.label, label_eq_obj_iff]
    exact hnode.isObject
  · exact adopt_of_closed hroot (fun entry hentry => hclosed entry.1 entry.2
      (by simp [Table.names]) (Table.get?_of_mem (nodup_names_of_liftRoot hrun) hentry)) fuel

/-- Lifting a regular draft gives a result, and lifting the result for the same
root gives the same again, with the same names in the same order. -/
theorem lift_idempotent {draft : Json} (h : RegularDraft draft) (rootName : String)
    (reserved : List String) :
    ∃ result, lift draft rootName reserved = .ok result ∧
      lift result rootName reserved = .ok result := by
  obtain ⟨root, definitions, hlifts⟩ := h.liftsTo rootName reserved
  have hobject : draft.isObject = true := by
    rw [← isObject_rootOf]
    exact h.root.isObject
  have hresult : (root.set "definitions" (.obj definitions)).isObject = true := by
    have hroot := hlifts.isObject
    cases root with
    | obj members => rfl
    | _ => cases hroot
  refine ⟨_, hlifts.lift hobject, ?_⟩
  exact (hlifts.again (walkable_regular h.definition) h.root).lift hresult

/-- Two lists, both under properties that ask for one name. -/
def listPair : Json :=
  .obj [("type", .str "object"),
    ("properties", .obj [("the list", refTo "Element"), ("the-list", refTo "Element")]),
    ("definitions", .obj [("Element", linkedElement)])]

theorem listPair_regular : RegularDraft listPair where
  root := by
    have hroot : rootOf listPair = .obj [("type", .str "object"),
      ("properties", .obj [("the list", refTo "Element"), ("the-list", refTo "Element")])] := rfl
    rw [hroot]
    refine .object (by decide) rfl rfl ?_ rfl fun property hproperty hnot => ?_
    · simp [targets]
    · simp only [List.mem_cons, List.not_mem_nil, or_false] at hproperty
      rcases hproperty with rfl | rfl <;> exact absurd resolves_element hnot
  definition := linkedList_regular.definition
  acyclic := linkedList_regular.acyclic

theorem listPair_lifts_again :
    ∃ result, lift listPair "Pair" ["PairTheListWords"] = .ok result ∧
      lift result "Pair" ["PairTheListWords"] = .ok result :=
  lift_idempotent listPair_regular "Pair" ["PairTheListWords"]

end Schema

end RequestShapes
