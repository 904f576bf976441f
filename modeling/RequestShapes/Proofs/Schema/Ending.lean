import RequestShapes.Proofs.Schema.Evaluation
import RequestShapes.Proofs.Schema.Reaching
import RequestShapes.Proofs.Schema.Termination

/-!
# Lifting comes to an end

Lifting counts how many array definitions follow one another and how many
definitions it takes over. Where references do not go round, or go round
without array definitions alone and under names that nothing else claims,
neither count is ever used up. The bounds decide nothing then: every greater
bound leads to the same end.
-/

namespace RequestShapes.Schema

/-! ## Runs with the same end -/

/-- Two runs have the same end: a result, or the fault that an object is
missing somewhere. -/
structure SameEnd {α : Type} (first second : Except Fault α) : Prop where
  eq : first = second
  fault : ∀ fault, first = .error fault → fault = .noObject

namespace SameEnd

variable {α β : Type}

theorem ok (value : α) : SameEnd (.ok value) (.ok value) :=
  ⟨rfl, fun _ h => by cases h⟩

theorem noObject : SameEnd (α := α) (.error .noObject) (.error .noObject) :=
  ⟨rfl, fun _ h => by cases h; rfl⟩

theorem bind {first second : Except Fault α} {next next' : α → Except Fault β}
    (h : SameEnd first second)
    (hnext : ∀ value, first = .ok value → SameEnd (next value) (next' value)) :
    SameEnd (first >>= next) (second >>= next') := by
  obtain ⟨rfl, hfault⟩ := h
  cases hfirst : first with
  | error fault =>
      obtain rfl := hfault fault hfirst
      exact .noObject
  | ok value => exact hnext value hfirst

end SameEnd

/-- The references of what the scope serves end within its bounds. -/
structure Scope.Bounds (scope : Scope) (source : Table Json) : Prop
    extends scope.Serves source where
  ends : ∀ target, Ends source (fun node => isArray node = true) scope.limit target

namespace Scope.Bounds

variable {scope : Scope} {source : Table Json}

theorem copy (h : scope.Bounds source) (target name : String) :
    (scope.copy target name).Bounds source :=
  ⟨h.toServes.copy target name, h.ends⟩

theorem hop (h : scope.Bounds source) (hops : Nat) : (scope.hop hops).Bounds source :=
  ⟨h.toServes.hop hops, h.ends⟩

end Scope.Bounds

/-- What stands in place of a node that is neither an array nor moved at once: a
reference to the definition under copy, a copy, or else something given. -/
def Scope.refer (scope : Scope) (definitions : Table Json) (node : Json) (path : String)
    (other : Except Fault (Json × Table Json)) : Except Fault (Json × Table Json) :=
  match scope.copied? node with
  | some name => .ok (refTo name, definitions)
  | none =>
      match scope.pending? node with
      | some target => liftDefinition scope definitions target path
      | none => other

section Refer

variable {scope : Scope} {definitions : Table Json} {node : Json} {path : String}

theorem liftItem_array (hobject : node.isObject = true) (harray : isArray node = true) :
    liftItem scope definitions node path = liftArray scope definitions node path := by
  rw [liftItem, if_neg (by simp [hobject]), if_pos harray]

theorem liftProperty_refer (harray : isArray node = false) (hrecord : isRecord node = false) :
    liftProperty scope definitions node path =
      scope.refer definitions node path (.ok (node, definitions)) := by
  rw [liftProperty, if_neg (by simp [harray]), if_neg (by simp [hrecord])]
  rfl

theorem liftItem_refer (hobject : node.isObject = true) (harray : isArray node = false) :
    liftItem scope definitions node path =
      scope.refer definitions node path (liftRecord scope definitions node path) := by
  rw [liftItem, if_neg (by simp [hobject]), if_neg (by simp [harray])]
  rfl

end Refer

mutual

theorem liftProperties_sameEnd {source : Table Json} {scope : Scope} (hbounds : scope.Bounds source)
    (definitions : Table Json) {node : Json} (path : String)
    (hends : Affords source scope.hops (targets node)) {limit hops : Nat}
    (hlimit : scope.limit ≤ limit) (hhops : scope.hops ≤ hops) :
    SameEnd (liftProperties scope definitions node path)
      (liftProperties (scope.within limit hops) definitions node path) := by
  by_cases hplain : ∀ members, node.get? "properties" ≠ some (.obj members)
  · rw [liftProperties_plain hplain, liftProperties_plain hplain]
    exact .ok _
  · simp only [not_forall, not_not] at hplain
    obtain ⟨members, hproperties⟩ := hplain
    have hinner : Affords source scope.hops (memberTargets members) := fun target hmem => by
      refine hends target (targets_get?_subset hproperties ?_)
      simp [targets, hmem]
    rw [liftProperties_within hproperties, liftProperties_within hproperties]
    exact (liftMembers_sameEnd hbounds definitions path hinner hlimit hhops).bind fun _ _ => .ok _
termination_by (scope.pending.length, scope.hops, sizeOf node, 0)
decreasing_by
  exact inner_lt (sizeOf_properties_lt hproperties)

theorem liftMembers_sameEnd {source : Table Json} {scope : Scope} (hbounds : scope.Bounds source)
    (definitions : Table Json) {members : List (String × Json)} (path : String)
    (hends : Affords source scope.hops (memberTargets members)) {limit hops : Nat}
    (hlimit : scope.limit ≤ limit) (hhops : scope.hops ≤ hops) :
    SameEnd (liftMembers scope definitions members path)
      (liftMembers (scope.within limit hops) definitions members path) := by
  match members, hends with
  | [], _ =>
      rw [liftMembers, liftMembers]
      exact .ok _
  | (name, value) :: rest, hends =>
      simp only [Affords, memberTargets, List.forall_mem_append] at hends
      rw [liftMembers, liftMembers]
      refine (liftProperty_sameEnd hbounds definitions _ hends.1 hlimit hhops).bind fun _ _ => ?_
      exact (liftMembers_sameEnd hbounds _ path hends.2 hlimit hhops).bind fun _ _ => .ok _
termination_by (scope.pending.length, scope.hops, sizeOf members, 0)
decreasing_by
  · refine inner_lt ?_
    simp only [List.cons.sizeOf_spec, Prod.mk.sizeOf_spec]
    omega
  · refine inner_lt ?_
    simp only [List.cons.sizeOf_spec]
    omega

theorem liftProperty_sameEnd {source : Table Json} {scope : Scope} (hbounds : scope.Bounds source)
    (definitions : Table Json) {node : Json} (path : String)
    (hends : Affords source scope.hops (targets node)) {limit hops : Nat}
    (hlimit : scope.limit ≤ limit) (hhops : scope.hops ≤ hops) :
    SameEnd (liftProperty scope definitions node path)
      (liftProperty (scope.within limit hops) definitions node path) := by
  by_cases harray : isArray node = true
  · rw [liftProperty, liftProperty, if_pos harray, if_pos harray]
    exact liftArray_sameEnd hbounds definitions path harray hends hlimit hhops
  by_cases hrecord : isRecord node = true
  · rw [liftProperty, liftProperty, if_neg harray, if_neg harray, if_pos hrecord, if_pos hrecord]
    exact liftRecord_sameEnd hbounds definitions path hends hlimit hhops
  rw [Bool.not_eq_true] at harray hrecord
  rw [liftProperty_refer harray hrecord, liftProperty_refer harray hrecord]
  exact refer_sameEnd hbounds definitions path hends hlimit hhops (.ok _)
termination_by (scope.pending.length, scope.hops, sizeOf node, 2)
decreasing_by
  · exact step_lt (by omega)
  · exact step_lt (by omega)
  · exact step_lt (by omega)

theorem liftItem_sameEnd {source : Table Json} {scope : Scope} (hbounds : scope.Bounds source)
    (definitions : Table Json) {node : Json} (path : String)
    (hends : Affords source scope.hops (targets node)) {limit hops : Nat}
    (hlimit : scope.limit ≤ limit) (hhops : scope.hops ≤ hops) :
    SameEnd (liftItem scope definitions node path)
      (liftItem (scope.within limit hops) definitions node path) := by
  by_cases hobject : node.isObject = true
  · by_cases harray : isArray node = true
    · rw [liftItem_array hobject harray, liftItem_array hobject harray]
      exact liftArray_sameEnd hbounds definitions path harray hends hlimit hhops
    rw [Bool.not_eq_true] at harray
    rw [liftItem_refer hobject harray, liftItem_refer hobject harray]
    exact refer_sameEnd hbounds definitions path hends hlimit hhops
      (liftRecord_sameEnd hbounds definitions path hends hlimit hhops)
  · rw [liftItem, liftItem, if_pos (by simp [hobject]), if_pos (by simp [hobject])]
    exact .noObject
termination_by (scope.pending.length, scope.hops, sizeOf node, 2)
decreasing_by
  · exact step_lt (by omega)
  · exact step_lt (by omega)
  · exact step_lt (by omega)

theorem refer_sameEnd {source : Table Json} {scope : Scope} (hbounds : scope.Bounds source)
    (definitions : Table Json) {node : Json} (path : String)
    (hends : Affords source scope.hops (targets node)) {limit hops : Nat}
    (hlimit : scope.limit ≤ limit) (hhops : scope.hops ≤ hops)
    {other other' : Except Fault (Json × Table Json)} (hother : SameEnd other other') :
    SameEnd (scope.refer definitions node path other)
      ((scope.within limit hops).refer definitions node path other') := by
  rw [Scope.refer, Scope.refer]
  cases hcopied : scope.copied? node with
  | some name =>
      rw [show (scope.within limit hops).copied? node = some name from hcopied]
      exact .ok _
  | none =>
      rw [show (scope.within limit hops).copied? node = none from hcopied]
      cases hpending : scope.pending? node with
      | some target =>
          rw [show (scope.within limit hops).pending? node = some target from hpending]
          exact liftDefinition_sameEnd hbounds definitions target path
            (hends _ (mem_targets_of_target? (Scope.pending?_eq_some hpending))) hlimit hhops
      | none =>
          rw [show (scope.within limit hops).pending? node = none from hpending]
          exact hother
termination_by (scope.pending.length, scope.hops, sizeOf node, 1)
decreasing_by
  exact inner_lt (Json.sizeOf_pos node)

theorem liftRecord_sameEnd {source : Table Json} {scope : Scope} (hbounds : scope.Bounds source)
    (definitions : Table Json) {node : Json} (path : String)
    (hends : Affords source scope.hops (targets node)) {limit hops : Nat}
    (hlimit : scope.limit ≤ limit) (hhops : scope.hops ≤ hops) :
    SameEnd (liftRecord scope definitions node path)
      (liftRecord (scope.within limit hops) definitions node path) := by
  rw [liftRecord, liftRecord]
  exact (liftProperties_sameEnd hbounds _ _ hends hlimit hhops).bind fun _ _ => .ok _
termination_by (scope.pending.length, scope.hops, sizeOf node, 1)
decreasing_by
  exact step_lt (by omega)

theorem liftArray_sameEnd {source : Table Json} {scope : Scope} (hbounds : scope.Bounds source)
    (definitions : Table Json) {node : Json} (path : String) (harray : isArray node = true)
    (hends : Affords source scope.hops (targets node)) {limit hops : Nat}
    (hlimit : scope.limit ≤ limit) (hhops : scope.hops ≤ hops) :
    SameEnd (liftArray scope definitions node path)
      (liftArray (scope.within limit hops) definitions node path) := by
  have hinner : Affords source scope.hops (targets (itemsOf node)) := fun target hmem =>
    hends target (targets_itemsOf_subset node hmem)
  have := sizeOf_itemsOf_lt harray
  rw [liftArray_bind, liftArray_bind]
  exact (liftItem_sameEnd hbounds definitions _ hinner hlimit hhops).bind fun _ _ => .ok _
termination_by (scope.pending.length, scope.hops, sizeOf node, 1)
decreasing_by
  exact inner_lt (by assumption)

theorem liftDefinition_sameEnd {source : Table Json} {scope : Scope}
    (hbounds : scope.Bounds source) (definitions : Table Json)
    (target : { target // target ∈ Table.names scope.pending }) (path : String)
    (hends : Ends source (fun node => isArray node = true) scope.hops target.val)
    {limit hops : Nat} (hlimit : scope.limit ≤ limit) (hhops : scope.hops ≤ hops) :
    SameEnd (liftDefinition scope definitions target path)
      (liftDefinition (scope.within limit hops) definitions target path) := by
  obtain ⟨node, hget⟩ := Table.exists_get?_of_mem_names target.property
  have hsource := hbounds.pending target.val node hget
  have hget' : Table.get? (scope.within limit hops).pending target.val = some node := hget
  by_cases hobject : node.isObject = true
  · by_cases harray : isArray node = true
    · cases hleft : scope.hops with
      | zero =>
          -- a chain that ends here has no array left to follow
          rw [hleft] at hends
          exact absurd harray (hends node hsource)
      | succ left =>
          obtain ⟨more, rfl⟩ := Nat.exists_eq_add_one_of_ne_zero (n := hops) (by omega)
          rw [hleft] at hends
          rw [liftDefinition_array hget hobject harray hleft,
            liftDefinition_array hget' hobject harray rfl]
          have hless : left ≤ more := by omega
          exact liftArray_sameEnd (hbounds.hop left) definitions path harray
            (hends node hsource harray) hlimit hless
    · rw [Bool.not_eq_true] at harray
      rw [liftDefinition_copies hget hobject harray, liftDefinition_copies hget' hobject harray]
      exact (liftProperties_sameEnd (hbounds.copy _ _) _ _ (fun other _ => hbounds.ends other)
        hlimit hlimit).bind fun _ _ => .ok _
  · rw [Bool.not_eq_true] at hobject
    rw [liftDefinition_noObject hget hobject, liftDefinition_noObject hget' hobject]
    exact .noObject
termination_by (scope.pending.length, scope.hops, 0, 0)
decreasing_by
  · exact hop_lt (by simp only [Scope.hop]; omega)
  · exact copy_lt (Table.length_erase_lt target.property)

end

theorem Scope.Bounds.initial {source : Table Json}
    (hacyclic : Acyclic source fun node => isArray node = true) (reserved : List String) :
    (Scope.initial reserved source).Bounds source :=
  ⟨.initial reserved source, ends_of_acyclic hacyclic⟩

theorem liftRoot_sameEnd {source : Table Json}
    (hacyclic : Acyclic source fun node => isArray node = true) (reserved : List String)
    (root : Json) (path : String) {limit : Nat} (hlimit : source.length ≤ limit) :
    SameEnd (liftRoot (.initial reserved source) root path)
      (liftRoot ((Scope.initial reserved source).within limit limit) root path) := by
  have hbounds := Scope.Bounds.initial hacyclic reserved
  have hends (targets : List String) : Affords source source.length targets :=
    fun target _ => ends_of_acyclic hacyclic target
  rw [liftRoot, liftRoot]
  by_cases harray : isArray root = true
  · rw [if_pos harray, if_pos harray]
    exact (liftItem_sameEnd hbounds [] _ (hends _) hlimit hlimit).bind fun _ _ => .ok _
  · rw [if_neg harray, if_neg harray]
    exact liftProperties_sameEnd hbounds [] path (hends _) hlimit hlimit

/-! ## Taking over -/

theorem adoptOne_sameEnd {source : Table Json}
    (hacyclic : Acyclic source fun node => isArray node = true) (reserved : List String)
    (root : Json) (definitions : Table Json) (target : String) (node : Json) {limit : Nat}
    (hlimit : source.length ≤ limit) :
    SameEnd (adoptOne (.initial reserved source) root definitions target node)
      (adoptOne ((Scope.initial reserved source).within limit limit) root definitions target
        node) := by
  have hbounds := Scope.Bounds.initial hacyclic reserved
  rw [adoptOne, adoptOne]
  by_cases hobject : node.isObject = true
  · rw [if_pos hobject, if_pos hobject]
    exact (liftProperties_sameEnd hbounds _ _ (fun other _ => ends_of_acyclic hacyclic other)
      hlimit hlimit).bind fun _ _ => .ok _
  · rw [if_neg hobject, if_neg hobject]
    exact .noObject

/-- As long as there is fuel for the count, more fuel changes nothing. -/
theorem Countdown.adopt_sameEnd {source : Table Json} {reserved : List String}
    {Left : Nat → Json → Table Json → Prop} (h : Countdown reserved source Left)
    (hacyclic : Acyclic source fun node => isArray node = true) {limit : Nat}
    (hlimit : source.length ≤ limit) {count fuel more : Nat} {root : Json}
    {definitions : Table Json} (hleft : Left count root definitions) (hfuel : count ≤ fuel)
    (hmore : fuel ≤ more) :
    SameEnd (adopt (.initial reserved source) fuel root definitions)
      (adopt ((Scope.initial reserved source).within limit limit) more root definitions) := by
  induction fuel generalizing count more root definitions with
  | zero =>
      obtain rfl : count = 0 := Nat.le_zero.mp hfuel
      have hnone := h.missing?_eq_none hleft
      rw [adopt_of_missing?_eq_none hnone, adopt_of_missing?_eq_none hnone]
      exact .ok _
  | succ fuel ih =>
      cases hmissing : missing? source root definitions with
      | none =>
          rw [adopt_of_missing?_eq_none hmissing, adopt_of_missing?_eq_none hmissing]
          exact .ok _
      | some entry =>
          obtain ⟨target, node⟩ := entry
          obtain ⟨further, rfl⟩ := Nat.exists_eq_add_one_of_ne_zero (n := more) (by omega)
          obtain ⟨less, hless, hnext⟩ := h.next hleft hmissing
          have hone := adoptOne_sameEnd hacyclic reserved root definitions target node hlimit
          rw [adopt_of_missing?_eq_some hmissing, adopt_of_missing?_eq_some hmissing]
          refine hone.bind fun value hvalue => ?_
          exact ih (hnext hvalue) (by omega) (by omega)

/-! ## Free names -/

/-- How many names that are referred to are not there yet. -/
def absent (all : Finset String) (definitions : Table Json) : Nat :=
  (all.filter fun name => name ∉ Table.names definitions).card

theorem absent_lt {all : Finset String} {definitions later : Table Json} {target : String}
    (hsubset : Table.names definitions ⊆ Table.names later) (hmem : target ∈ all)
    (habsent : target ∉ Table.names definitions) (hlater : target ∈ Table.names later) :
    absent all later < absent all definitions := by
  refine Finset.card_lt_card (Finset.ssubset_iff_of_subset ?_ |>.mpr ⟨target, ?_, ?_⟩)
  · intro name hname
    rw [Finset.mem_filter] at hname ⊢
    exact ⟨hname.1, fun hold => hname.2 (hsubset hold)⟩
  · exact Finset.mem_filter.mpr ⟨hmem, habsent⟩
  · exact fun hname => (Finset.mem_filter.mp hname).2 hlater

/-- A definition whose name is neither there nor reserved keeps its name when it
is taken over. -/
theorem freshFor_of_free {reserved : List String} {source definitions : Table Json}
    {target : String} (hfree : target ∉ reserved) (habsent : target ∉ Table.names definitions) :
    (Scope.initial reserved source).freshFor definitions target = target := by
  refine freshName_of_not_mem ?_
  rw [List.mem_append, not_or]
  exact ⟨habsent, hfree⟩

/-- Where no definition of the draft has a reserved name, each one that is taken
over keeps its name, so it is not missing again. -/
theorem countdown_of_free {reserved : List String} {source : Table Json} {all : Finset String}
    (hfree : ∀ name ∈ reserved, name ∉ Table.names source)
    (hall : ∀ name definition, Table.get? source name = some definition →
      ∀ target ∈ targets definition, target ∈ all) :
    Countdown reserved source fun count root definitions =>
      absent all definitions ≤ count ∧ Grown (· ∈ all) root definitions := by
  have hname {root node : Json} {definitions : Table Json} {target : String}
      (hmissing : missing? source root definitions = some (target, node)) :
      (Scope.initial reserved source).freshFor definitions target = target := by
    obtain ⟨_, habsent, hsource⟩ := missing?_eq_some hmissing
    exact freshFor_of_free (fun hmem => hfree target hmem (Table.mem_names_of_get? hsource)) habsent
  refine ⟨fun _ hmissing => ?_, fun {_ _ _ definitions target} hleft hmissing => ?_⟩
  · rw [hname hmissing]
    exact retarget_eq_self _ fun _ => rfl
  · obtain ⟨hcount, hgrown⟩ := hleft
    have hmem : target ∈ all := hgrown.of_missing? hmissing
    obtain ⟨hreferred, habsent, hsource⟩ := missing?_eq_some hmissing
    have hpos : 0 < absent all definitions :=
      Finset.card_pos.mpr ⟨target, Finset.mem_filter.mpr ⟨hmem, habsent⟩⟩
    obtain ⟨less, hless⟩ := Nat.exists_eq_add_one_of_ne_zero
      (Nat.ne_zero_of_lt (Nat.lt_of_lt_of_le hpos hcount))
    refine ⟨less, hless, fun hone => ⟨?_, ?_⟩⟩
    · -- the name taken over is there from now on, and none is lost
      obtain ⟨name, lifted, middle, hnamed, hlifted, _, rfl⟩ := adoptOne_eq_ok hone
      obtain rfl : target = name := (hname hmissing).symm.trans hnamed
      have hextends := (lifts_of_liftProperties hlifted).extends
      have hlt : absent all (Table.set middle target lifted) < absent all definitions := by
        refine absent_lt (fun other hother => ?_) hmem habsent (Table.mem_names_set.mpr (.inl rfl))
        refine Table.mem_names_set.mpr (.inr (hextends.names_subset ?_))
        rw [Table.mem_names_set, names_map_retarget]
        exact .inr hother
      omega
    · exact hgrown.adoptOne (.initial reserved source) rfl hall hreferred habsent hsource hone

theorem bounded_of_free {draft : Json} {rootName : String} {reserved : List String}
    (hfree : ∀ name ∈ rootName :: reserved, name ∉ Table.names (definitionsOf draft)) :
    Bounded draft rootName reserved := by
  refine ⟨_, countdown_of_free hfree fun name definition hget target hmem =>
    List.mem_toFinset.mpr (targets_definition_subset hget hmem), fun {root definitions} hroot => ?_⟩
  have hcard : absent (targets draft).toFinset definitions ≤ (targets draft).length :=
    (Finset.card_filter_le _ _).trans (List.toFinset_card_le _)
  have hbound := lt_adoptionBound draft
  refine ⟨by omega, accounts_of_liftRoot hroot, fun name hname => liftRoot_leads hroot hname⟩

/-! ## Whole drafts -/

theorem liftWithin_sameEnd {draft : Json} {rootName : String} {reserved : List String}
    (hacyclic : Acyclic (definitionsOf draft) fun node => isArray node = true)
    (hbounded : Bounded draft rootName reserved) {limit fuel : Nat}
    (hlimit : (definitionsOf draft).length ≤ limit) (hfuel : adoptionBound draft ≤ fuel) :
    SameEnd (lift draft rootName reserved) (liftWithin limit fuel draft rootName reserved) := by
  obtain ⟨Left, hcountdown, hstart⟩ := hbounded
  have hroot := liftRoot_sameEnd hacyclic (rootName :: reserved) (rootOf draft) rootName hlimit
  rw [lift, liftWithin]
  by_cases hobject : draft.isObject = true
  · rw [if_pos hobject, if_pos hobject]
    refine hroot.bind fun value hvalue => ?_
    have hadopt := hcountdown.adopt_sameEnd hacyclic hlimit (hstart hvalue) (Nat.le_refl _) hfuel
    exact hadopt.bind fun _ _ => .ok _
  · rw [if_neg hobject, if_neg hobject]
    exact .noObject

/-- Lifting ends for every draft whose references do not go round, and for every
draft where no cycle runs through array definitions alone and no definition is
named like the root or by a reserved name. It never runs out of its bounds: any
greater ones lead to the same end, which is a result or the fault that something
is no object. Where everything on the way is an object there is a result. -/
theorem lift_ends {draft : Json} {rootName : String} {reserved : List String}
    (h : Acyclic (definitionsOf draft) (fun _ => True) ∨
      Acyclic (definitionsOf draft) (fun node => isArray node = true) ∧
        ∀ name ∈ rootName :: reserved, name ∉ Table.names (definitionsOf draft)) :
    (∀ fault, lift draft rootName reserved = .error fault → fault = .noObject) ∧
      (∀ limit fuel, (definitionsOf draft).length ≤ limit → adoptionBound draft ≤ fuel →
        liftWithin limit fuel draft rootName reserved = lift draft rootName reserved) ∧
      (draft.isObject = true → Orderly (rootOf draft) → OrderlyTable (definitionsOf draft) →
        ∃ result, lift draft rootName reserved = .ok result) := by
  have hacyclic : Acyclic (definitionsOf draft) fun node => isArray node = true :=
    h.elim Acyclic.mono And.left
  have hbounded : Bounded draft rootName reserved :=
    h.elim (fun hnone => bounded_of_acyclic hnone rootName reserved) fun hfree =>
      bounded_of_free hfree.2
  refine ⟨?_, fun limit fuel hlimit hfuel => ?_, fun hobject hroot hdefinitions => ?_⟩
  · exact (liftWithin_sameEnd hacyclic hbounded (Nat.le_refl _) (Nat.le_refl _)).fault
  · exact (liftWithin_sameEnd hacyclic hbounded hlimit hfuel).eq.symm
  · exact lift_ok_of_bounded hobject hroot hdefinitions hacyclic hbounded

/-- An array definition of itself is followed without end. -/
example : lift (.obj [("properties", .obj [("nest", refTo "Nest")]),
    ("definitions", .obj [("Nest", ofArray (refTo "Nest"))])]) "Root" [] = .error .endless := by
  cbv

/-- Two definitions that refer to one another, met where no way leads. -/
def parityDraft : Json :=
  .obj [("anyOf", .arr [refTo "Odd", nullType]), ("definitions", .obj [
    ("Odd", .obj [("not", refTo "Even")]), ("Even", .obj [("not", refTo "Odd")])])]

theorem parityDraft_ends :
    (∀ name ∈ ["Root", "Parity"], name ∉ Table.names (definitionsOf parityDraft)) ∧
      (∀ limit fuel, 2 ≤ limit → adoptionBound parityDraft ≤ fuel →
        liftWithin limit fuel parityDraft "Root" ["Parity"] =
          lift parityDraft "Root" ["Parity"]) ∧
      ∃ result, lift parityDraft "Root" ["Parity"] = .ok result := by
  have hentry (name : String) (node : Json)
      (hget : Table.get? (definitionsOf parityDraft) name = some node) :
      node = .obj [("not", refTo "Even")] ∨ node = .obj [("not", refTo "Odd")] := by
    have hmem : (name, node) ∈ [("Odd", Json.obj [("not", refTo "Even")]),
      ("Even", Json.obj [("not", refTo "Odd")])] := Table.mem_of_get? hget
    simp only [List.mem_cons, List.not_mem_nil, or_false, Prod.mk.injEq] at hmem
    exact hmem.imp And.right And.right
  have hacyclic : Acyclic (definitionsOf parityDraft) fun node => isArray node = true := by
    intro name hcycle
    obtain ⟨_, ⟨node, hget, harray, _⟩, _⟩ := Relation.TransGen.head'_iff.mp hcycle
    rcases hentry name node hget with rfl | rfl <;> exact absurd harray (by decide)
  have hfree : ∀ name ∈ ["Root", "Parity"],
      name ∉ Table.names (definitionsOf parityDraft) := by decide
  have hplain (members : List (String × Json)) (name : String) :
      (Json.obj [("not", refTo name)]).get? "properties" ≠ some (.obj members) := by
    simp [Json.get?, Table.get?]
  obtain ⟨_, hbounds, hresult⟩ :=
    @lift_ends parityDraft "Root" ["Parity"] (.inr ⟨hacyclic, hfree⟩)
  refine ⟨hfree, hbounds, hresult rfl ?_ fun name node hget => ?_⟩
  · exact .of_plain (by decide) fun members hget => by
      simp [rootOf, parityDraft, Json.erase, Table.erase, Json.get?, Table.get?] at hget
  · rcases hentry name node hget with rfl | rfl
    · exact ⟨rfl, .of_plain (by decide) fun members => hplain members "Even"⟩
    · exact ⟨rfl, .of_plain (by decide) fun members => hplain members "Odd"⟩

end RequestShapes.Schema
