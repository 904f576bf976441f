import RequestShapes.Proofs.Schema.Naming
import RequestShapes.Proofs.Schema.Outstanding

/-!
# What the references of a lifted schema lead to

Whatever a lifted schema refers to is one of its definitions, or was missing in
the draft already, and there is no definition that the references do not lead
to. Both hold for all drafts, whether or not their references go round.
-/

namespace RequestShapes.Schema

/-! ## References of a schema -/

/-- All that a schema refers to, below its root and in its definitions. -/
def referencesOf (schema : Json) : List String :=
  referred (rootOf schema) (definitionsOf schema)

/-- Everything that a schema refers to is one of its definitions. -/
def Resolved (schema : Json) : Prop :=
  ∀ name ∈ referencesOf schema, name ∈ Table.names (definitionsOf schema)

/-- The references of a schema lead from its root to a name. -/
inductive Reached (schema : Json) : String → Prop
  | root {name : String} : name ∈ targets (rootOf schema) → Reached schema name
  | through {via name : String} {definition : Json} : Reached schema via →
      Table.get? (definitionsOf schema) via = some definition → name ∈ targets definition →
      Reached schema name

instance (schema : Json) : Decidable (Resolved schema) :=
  inferInstanceAs (Decidable (∀ _ ∈ _, _))

theorem mem_referred {root : Json} {definitions : Table Json} {name : String} :
    name ∈ referred root definitions ↔
      name ∈ targets root ∨ ∃ entry ∈ definitions, name ∈ targets entry.2 := by
  simp only [referred, List.mem_flatMap, List.mem_cons, List.mem_map]
  constructor
  · rintro ⟨node, rfl | ⟨entry, hentry, rfl⟩, hmem⟩
    · exact .inl hmem
    · exact .inr ⟨entry, hentry, hmem⟩
  · rintro (hmem | ⟨entry, hentry, hmem⟩)
    · exact ⟨root, .inl rfl, hmem⟩
    · exact ⟨entry.2, .inr ⟨entry, hentry, rfl⟩, hmem⟩

theorem memberTargets_set_of_nil {members : List (String × Json)} {name : String} {old value : Json}
    (hget : Table.get? members name = some old) (hold : targets old = [])
    (hvalue : targets value = []) :
    memberTargets (Table.set members name value) = memberTargets members := by
  induction members with
  | nil => cases hget
  | cons entry rest ih =>
      obtain ⟨key, present⟩ := entry
      by_cases hkey : key = name
      · rw [Table.get?, if_pos hkey] at hget
        obtain rfl := Option.some.inj hget
        rw [Table.set, if_pos hkey, memberTargets, memberTargets, hold, hvalue]
      · rw [Table.get?, if_neg hkey] at hget
        rw [Table.set, if_neg hkey, memberTargets, memberTargets, ih hget]

mutual

/-- No reference is lost when references are turned. -/
theorem targets_retarget_of_mem {old new target : String} :
    (node : Json) → target ∈ targets node →
      (if target = old then new else target) ∈ targets (retarget old new node)
  | .obj members, h => by
      rw [targets, List.mem_append, Option.mem_toList] at h
      have hmembers : target ∈ memberTargets members →
          (if target = old then new else target) ∈
            memberTargets (retargetMembers old new members) :=
        memberTargets_retarget_of_mem members
      have htarget := target?_retarget old new (.obj members)
      rcases h with h | h
      · rw [h, Option.map_some] at htarget
        exact mem_targets_of_target? htarget
      · rw [retarget]
        split
        next hrefers =>
          have hget : Table.get? (retargetMembers old new members) "$ref" =
              some (.str (definitionsPath ++ old)) := by
            rw [get?_retargetMembers, target?_eq_some hrefers]
            rfl
          rw [Json.set, targets, memberTargets_set_of_nil hget rfl rfl, List.mem_append]
          exact .inr (hmembers h)
        next =>
          rw [targets, List.mem_append]
          exact .inr (hmembers h)
  | .arr items, h => by
      rw [targets] at h
      rw [retarget, targets]
      exact itemTargets_retarget_of_mem items h
  | .null, h | .bool _, h | .int _, h | .float _, h | .str _, h => by cases h

theorem itemTargets_retarget_of_mem {old new target : String} :
    (items : List Json) → target ∈ itemTargets items →
      (if target = old then new else target) ∈ itemTargets (retargetItems old new items)
  | [], h => by cases h
  | item :: items, h => by
      rw [itemTargets, List.mem_append] at h
      rw [retargetItems, itemTargets, List.mem_append]
      exact h.imp (targets_retarget_of_mem item) (itemTargets_retarget_of_mem items)

theorem memberTargets_retarget_of_mem {old new target : String} :
    (members : List (String × Json)) → target ∈ memberTargets members →
      (if target = old then new else target) ∈ memberTargets (retargetMembers old new members)
  | [], h => by cases h
  | (name, value) :: members, h => by
      rw [memberTargets, List.mem_append] at h
      rw [retargetMembers, memberTargets, List.mem_append]
      exact h.imp (targets_retarget_of_mem value) (memberTargets_retarget_of_mem members)

end

/-! ## Ways through new definitions -/

/-- References lead from the given names to another one, through definitions
that were added. -/
inductive Leads (earlier later : Table Json) (start : List String) : String → Prop
  | start {name : String} : name ∈ start → Leads earlier later start name
  | through {via name : String} {copy : Json} : Leads earlier later start via →
      via ∉ Table.names earlier → Table.get? later via = some copy → name ∈ targets copy →
      Leads earlier later start name

namespace Leads

variable {earlier middle later : Table Json} {first second : List String} {name : String}

theorem mono (h : Leads earlier middle first name) (hsubset : first ⊆ second)
    (hextends : Extends middle later) : Leads earlier later second name := by
  induction h with
  | start hmem => exact .start (hsubset hmem)
  | through _ hnew hget hmem ih => exact .through ih hnew (hextends _ _ hget) hmem

/-- What is new later on was not there earlier either. -/
theorem weaken (h : Leads middle later first name) (hextends : Extends earlier middle) :
    Leads earlier later first name := by
  induction h with
  | start hmem => exact .start hmem
  | through _ hnew hget hmem ih =>
      exact .through ih (fun hother => hnew (hextends.names_subset hother)) hget hmem

/-- Once a definition is finished its name leads to all that its content led to. -/
theorem finish {definitions : Table Json} {copy : Json} {other : String}
    (h : Leads earlier later first other) (hfresh : name ∉ Table.names definitions)
    (hfirst : first ⊆ targets copy)
    (hinner : ∀ via found, via ∉ Table.names earlier → Table.get? later via = some found →
      via ∉ Table.names definitions ∧ via ≠ name) :
    Leads definitions (Table.set later name copy) [name] other := by
  have hname : Leads definitions (Table.set later name copy) [name] name :=
    .start List.mem_cons_self
  induction h with
  | start hmem => exact .through hname hfresh (Table.get?_set_self _ _ _) (hfirst hmem)
  | through _ hnew hget hmem ih =>
      obtain ⟨habsent, hne⟩ := hinner _ _ hnew hget
      refine .through ih habsent ?_ hmem
      rwa [Table.get?_set_of_ne _ _ hne]

/-- The name of a definition leads to what was added while its content was lifted. -/
theorem own {definitions : Table Json} {node copy : Json} {other : String}
    (hfresh : name ∉ Table.names definitions)
    (hextends : Extends (Table.set definitions name node) later)
    (hinner : other ∈ Table.names later → other ∉ Table.names (Table.set definitions name node) →
      Leads (Table.set definitions name node) later (targets copy) other)
    (hlater : other ∈ Table.names (Table.set later name copy))
    (hnew : other ∉ Table.names definitions) :
    Leads definitions (Table.set later name copy) [name] other := by
  by_cases heq : other = name
  · exact .start (List.mem_singleton.mpr heq)
  · rw [Table.names_set_of_mem (hextends.names_subset (Table.mem_names_set.mpr (.inl rfl)))]
      at hlater
    have hbelow := hinner hlater fun hmem => (Table.mem_names_set.mp hmem).elim heq hnew
    refine hbelow.finish hfresh (List.Subset.refl _) fun via _ habsent _ => ?_
    rw [Table.mem_names_set, not_or] at habsent
    exact ⟨habsent.2, habsent.1⟩

end Leads

theorem get?_set_of_isObject {node : Json} (h : node.isObject = true) {name : String}
    (value : Json) : (node.set name value).get? name = some value := by
  cases node with
  | obj members => exact Table.get?_set_self _ _ _
  | _ => cases h

/-- What a lifted part refers to. -/
def Part.references : Part → Json → List String
  | .members, lifted => memberTargets lifted.members
  | _, lifted => targets lifted

theorem Part.references_refTo {part : Part} {name : String}
    (h : part = .property ∨ part = .item ∨ part = .array) :
    part.references (refTo name) = [name] := by
  rcases h with rfl | rfl | rfl <;> exact targets_refTo name

/-- The lifted part leads to every definition that lifting it adds. -/
theorem Lifts.leads {part : Part} {scope : Scope} {definitions later : Table Json}
    {node lifted : Json} {path : String}
    (h : Lifts part scope definitions node path lifted later) {name : String}
    (hlater : name ∈ Table.names later) (hnew : name ∉ Table.names definitions) :
    Leads definitions later (part.references lifted) name := by
  induction h generalizing name with
  | plain | nil | kept | back => exact absurd hlater hnew
  | @within _ _ _ node _ _ lifted hproperties _ ih =>
      refine (ih hlater hnew).mono ?_ (.refl _)
      intro target hmem
      have hobject : node.isObject = true := by
        cases node with
        | obj members => rfl
        | _ => cases hproperties
      apply targets_get?_subset (get?_set_of_isObject hobject (.obj lifted))
      rw [targets, List.mem_append]
      exact .inr hmem
  | @cons _ definitions middle later _ _ _ _ _ _ hvalue hrest ihvalue ihrest =>
      by_cases hmiddle : name ∈ Table.names middle
      · exact (ihvalue hmiddle hnew).mono (List.subset_append_left _ _) hrest.extends
      · have hleads := (ihrest hlater hmiddle).weaken hvalue.extends
        exact hleads.mono (List.subset_append_right _ _) (.refl _)
  | @moved _ scope definitions _ _ _ path _ hmoves _ hother hlifts ih =>
      rw [Part.references_refTo hmoves.part]
      exact .own (hother ▸ scope.freshFor_not_mem definitions path).1 hlifts.extends ih hlater hnew
  | @copied _ scope definitions _ _ _ _ path _ _ hrefer _ _ _ _ _ hother hlifts ih =>
      rw [Part.references_refTo hrefer.part]
      exact .own (hother ▸ scope.freshFor_not_mem definitions path).1 hlifts.extends ih hlater hnew
  | copiedArray hrefer _ _ _ _ _ _ _ ih =>
      have hleads := ih hlater hnew
      rcases hrefer.part with rfl | rfl | rfl <;> exact hleads
  | direct hpart _ _ ih =>
      have hleads := ih hlater hnew
      rcases hpart with rfl | rfl <;> exact hleads
  | @array scope definitions later node items path other harray hlifts hother ih =>
      rw [Part.references_refTo (.inr (.inr rfl))]
      obtain ⟨hfresh, _⟩ := hother ▸ scope.freshFor_not_mem later path
      by_cases heq : name = other
      · exact .start (List.mem_singleton.mpr heq)
      · have hmem : name ∈ Table.names later := (Table.mem_names_set.mp hlater).resolve_left heq
        have hset : ((node.erase "items").set "items" items).get? "items" = some items :=
          get?_set_of_isObject (by cases node with | obj members => rfl | _ => cases harray) items
        refine (ih hmem hnew).finish (fun hold => hfresh (hlifts.extends.names_subset hold))
          (targets_get?_subset hset) fun via found habsent hget => ⟨habsent, ?_⟩
        rintro rfl
        exact hfresh (Table.mem_names_of_get? hget)

/-- The lifted root leads to every definition. -/
theorem liftRoot_leads {scope : Scope} {root lifted : Json} {path : String}
    {definitions : Table Json} (h : liftRoot scope root path = .ok (lifted, definitions))
    {name : String} (hname : name ∈ Table.names definitions) :
    Leads [] definitions (targets lifted) name := by
  have hnew : name ∉ Table.names ([] : Table Json) := by simp [Table.names]
  rw [liftRoot] at h
  split at h
  next harray =>
    obtain ⟨⟨items, later⟩, hitems, heq⟩ := bind_eq_ok h
    cases heq
    have hleads := (lifts_of_liftItem hitems).leads hname hnew
    exact hleads.mono (targets_get?_subset (get?_set_of_isObject (isObject_of_isArray harray) _))
      (.refl _)
  next => exact (lifts_of_liftProperties h).leads hname hnew

/-! ## Taking over what is still referred to -/

/-- The root leads to every definition, and every reference is to a definition or
one of those that are still outstanding. -/
structure Grown (outstanding : String → Prop) (root : Json) (definitions : Table Json) : Prop
    extends Accounts outstanding root definitions where
  leads : ∀ name ∈ Table.names definitions, Leads [] definitions (targets root) name

section Grown

variable {outstanding : String → Prop} {source : Table Json} {scope : Scope}
  {root root' node : Json} {definitions later : Table Json} {target : String}

/-- The references of the root and of the definitions lead to everything that is
referred to. -/
theorem Grown.leads_of_referred (h : Grown outstanding root definitions)
    (hmem : target ∈ referred root definitions) : Leads [] definitions (targets root) target := by
  rcases mem_referred.mp hmem with hmem | ⟨entry, hentry, hmem⟩
  · exact .start hmem
  · have hname : entry.1 ∈ Table.names definitions := List.mem_map_of_mem hentry
    exact .through (h.leads entry.1 hname) (by simp [Table.names])
      (Table.get?_of_mem h.nodup hentry) hmem

/-- When references to a name that is no definition follow it to a new name, every
way goes on as before. -/
theorem Leads.turned {name other : String} (h : Leads [] definitions (targets root) other)
    (habsent : target ∉ Table.names definitions)
    (hkept : ∀ key copy, Table.get? definitions key = some copy →
      Table.get? later key = some (retarget target name copy)) :
    Leads [] later (targets (retarget target name root))
      (if other = target then name else other) := by
  induction h with
  | start hmem => exact .start (targets_retarget_of_mem root hmem)
  | @through via _ copy _ _ hget hmem ih =>
      have hne : via ≠ target := fun heq => habsent (heq ▸ Table.mem_names_of_get? hget)
      rw [if_neg hne] at ih
      exact .through ih (by simp [Table.names]) (hkept via copy hget)
        (targets_retarget_of_mem copy hmem)

/-- Taking over a definition that is referred to keeps the root in touch with all
definitions, whether or not the new one refers back to itself. -/
theorem Grown.adoptOne (hserves : scope.Serves source) (hcopying : scope.copying = [])
    (hclosed : ∀ name definition, Table.get? source name = some definition →
      ∀ other ∈ targets definition, outstanding other)
    (h : Grown outstanding root definitions) (hmem : target ∈ referred root definitions)
    (habsent : target ∉ Table.names definitions) (hsource : Table.get? source target = some node)
    (hadopt : adoptOne scope root definitions target node = .ok (root', later)) :
    Grown outstanding root' later := by
  obtain ⟨name, lifted, middle, hname, hlifted, rfl, rfl⟩ := adoptOne_eq_ok hadopt
  obtain ⟨hfresh, _⟩ := hname ▸ scope.freshFor_not_mem definitions target
  have hlifts := lifts_of_liftProperties hlifted
  -- while it is lifted the definition may refer to itself under its new name
  have hwalk := @walkable_of_closed source (fun other => outstanding other ∨ other = name)
    fun key definition _ hget other hother => .inl (hclosed key definition hget other hother)
  have hnode : ∀ other ∈ targets (retarget target name node), outstanding other ∨ other = name :=
    fun other hother => (mem_targets_retarget node hother).symm.imp_left fun hother =>
      hclosed target node hsource other hother.1
  obtain ⟨hsettled, hnew⟩ := hlifts.closed hwalk ⟨hnode, fun _ => hnode⟩ hserves (by simp [hcopying])
  have haccounts := h.toAccounts.taken hname hlifts hsettled.2 hnew
  refine ⟨⟨haccounts.nodup, fun other hother => ?_⟩, fun other hother => ?_⟩
  · rcases haccounts.referred other hother with hother | ⟨hother, _⟩ | hother | rfl
    · exact .inl hother
    · exact .inr hother
    · exact .inr hother
    · exact .inl (Table.mem_names_set.mpr (.inl rfl))
  · have hkept : ∀ key copy, Table.get? definitions key = some copy →
        Table.get? (Table.set middle name lifted) key = some (retarget target name copy) := by
      intro key copy hget
      have hne : key ≠ name := fun heq => hfresh (heq ▸ Table.mem_names_of_get? hget)
      rw [Table.get?_set_of_ne _ _ hne]
      refine hlifts.extends key _ ?_
      rw [Table.get?_set_of_ne _ _ hne, get?_map_retarget, hget, Option.map_some]
    have hturned {key : String} (hkey : Leads [] definitions (targets root) key) :
        Leads [] (Table.set middle name lifted) (targets (retarget target name root))
          (if key = target then name else key) := hkey.turned habsent hkept
    have hown : Leads [] (Table.set middle name lifted) (targets (retarget target name root))
        name := by
      simpa using hturned (h.leads_of_referred hmem)
    by_cases hold : other ∈ Table.names definitions
    · have hne : other ≠ target := fun heq => habsent (heq ▸ hold)
      simpa [hne] using hturned (h.leads other hold)
    · have hleads : Leads (definitions.map fun entry => (entry.1, retarget target name entry.2))
          (Table.set middle name lifted) [name] other := by
        refine .own (by rwa [names_map_retarget]) hlifts.extends hlifts.leads hother ?_
        rwa [names_map_retarget]
      -- from the name of the new definition the way goes on to what it brought
      clear hother hold
      induction hleads with
      | start hother =>
          obtain rfl := List.mem_singleton.mp hother
          exact hown
      | through _ _ hget hother ih => exact .through ih (by simp [Table.names]) hget hother

/-- So does a whole run, which ends when nothing of the draft is missing. -/
theorem Grown.adopt (hserves : scope.Serves source) (hpending : scope.pending = source)
    (hcopying : scope.copying = [])
    (hclosed : ∀ name definition, Table.get? source name = some definition →
      ∀ other ∈ targets definition, outstanding other) {fuel : Nat}
    (h : Grown outstanding root definitions)
    (hadopt : adopt scope fuel root definitions = .ok (root', later)) :
    Grown outstanding root' later ∧ missing? source root' later = none := by
  refine (adopt_invariant (fun _ root definitions => Grown outstanding root definitions) ?_ h
    hadopt).imp_right fun hnone => hpending ▸ hnone
  intro _ root definitions target node _ _ h hmissing hone
  rw [hpending] at hmissing
  obtain ⟨hmem, habsent, hsource⟩ := missing?_eq_some hmissing
  exact h.adoptOne hserves hcopying hclosed hmem habsent hsource hone

end Grown

/-! ## The lifted schema -/

theorem mem_referencesOf_of_get? {schema definition : Json} {name target : String}
    (hget : Table.get? (definitionsOf schema) name = some definition)
    (hmem : target ∈ targets definition) : target ∈ referencesOf schema :=
  targets_subset_referred hget hmem

theorem Leads.reached {schema : Json} {name : String}
    (h : Leads [] (definitionsOf schema) (targets (rootOf schema)) name) : Reached schema name := by
  induction h with
  | start hmem => exact .root hmem
  | through _ _ hget hmem ih => exact .through ih hget hmem

/-- What a lifted schema refers to is one of its definitions, or the draft refers
to it and does not define it. Its references lead to all of its definitions. -/
theorem liftWithin_grown {limit fuel : Nat} {draft result : Json} {rootName : String}
    {reserved : List String} (h : liftWithin limit fuel draft rootName reserved = .ok result) :
    (∀ name ∈ referencesOf result, name ∈ Table.names (definitionsOf result) ∨
      (name ∈ referencesOf draft ∧ name ∉ Table.names (definitionsOf draft))) ∧
    ∀ name ∈ Table.names (definitionsOf result), Reached result name := by
  obtain ⟨root, definitions, hroot, hadopt⟩ := liftWithin_phases h
  have hserves := (Scope.Serves.initial (rootName :: reserved)
    (definitionsOf draft)).within limit limit
  have hclosed : ∀ name definition, Table.get? (definitionsOf draft) name = some definition →
      ∀ other ∈ targets definition, other ∈ referencesOf draft :=
    fun _ _ hget _ hmem => mem_referencesOf_of_get? hget hmem
  obtain ⟨haccounted, hnew⟩ := liftRoot_closed
    (walkable_of_closed fun name definition _ hget => hclosed name definition hget) hserves rfl
    hroot fun target hmem => targets_root_subset hmem
  have haccounts : Accounts (· ∈ referencesOf draft) root definitions :=
    .of_parts (nodup_names_of_liftRoot hroot) haccounted fun name copy hget =>
      hnew name copy (by simp [Table.names]) hget
  have hgrown : Grown (· ∈ referencesOf draft) root definitions :=
    ⟨haccounts, fun name hname => liftRoot_leads hroot hname⟩
  obtain ⟨hlater, hmissing⟩ := hgrown.adopt hserves rfl rfl hclosed hadopt
  refine ⟨fun name hmem => ?_, fun name hname => (hlater.leads name hname).reached⟩
  by_cases hsource : name ∈ Table.names (definitionsOf draft)
  · exact .inl (mem_names_of_missing? hmissing hmem hsource)
  · exact (hlater.referred name hmem).imp id fun hdraft => ⟨hdraft, hsource⟩

/-- A lifted schema is closed if its draft was, with or without cycles: everything
it refers to is there. All that is there is referred to on some way from the root,
and nothing is named like the root or by a reserved name. This holds of every result
that lifting comes to, whichever bounds it takes. -/
theorem lift_resolved_reached {limit fuel : Nat} {draft result : Json} {rootName : String}
    {reserved : List String} (hresolved : Resolved draft)
    (h : liftWithin limit fuel draft rootName reserved = .ok result) :
    Resolved result ∧
      (∀ name ∈ Table.names (definitionsOf result), Reached result name) ∧
      ∀ name ∈ Table.names (definitionsOf result), name ≠ rootName ∧ name ∉ reserved := by
  obtain ⟨hreferences, hreached⟩ := liftWithin_grown h
  refine ⟨fun name hmem => ?_, hreached, fun name hname => ?_⟩
  · refine (hreferences name hmem).resolve_right ?_
    rintro ⟨hdraft, habsent⟩
    exact habsent (hresolved name hdraft)
  · obtain ⟨added, hadded, _, hnew⟩ := liftWithin_adds .trivial trivial (fun _ _ => trivial) h
    rw [hadded] at hname
    obtain ⟨_, hreserved, _⟩ := hnew name hname
    rw [List.mem_cons, not_or] at hreserved
    exact hreserved

/-- An optional shape that refers to itself. -/
def ringDraft : Json :=
  .obj [("anyOf", .arr [refTo "Link", nullType]), ("definitions", .obj [
    ("Link", .obj [("type", .str "object"), ("properties", .obj [("next", refTo "Link")])])])]

/-- If its name is reserved it is taken over under another one, which also its
reference to itself follows. -/
def ringLifted : Json :=
  .obj [("anyOf", .arr [refTo "Link2", nullType]), ("definitions", .obj [
    ("Link2", .obj [("type", .str "object"), ("properties", .obj [("next", refTo "Link2")])])])]

theorem ring_resolved_reached :
    Resolved ringDraft ∧ lift ringDraft "Root" ["Link"] = .ok ringLifted ∧ Resolved ringLifted ∧
      (∀ name ∈ Table.names (definitionsOf ringLifted), Reached ringLifted name) ∧
      ∀ name ∈ Table.names (definitionsOf ringLifted), name ≠ "Root" ∧ name ∉ ["Link"] := by
  have hresolved : Resolved ringDraft := by decide
  have hlift : liftWithin 1 1 ringDraft "Root" ["Link"] = .ok ringLifted := by cbv
  exact ⟨hresolved, lift_eq_ok_of_liftWithin hlift (Nat.one_le_of_lt (lt_adoptionBound _)),
    lift_resolved_reached hresolved hlift⟩

end RequestShapes.Schema
