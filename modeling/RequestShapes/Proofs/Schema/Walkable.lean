import RequestShapes.Proofs.Schema.Lifts

/-!
# The references that lifting leaves

A class of nodes that lifting stays in, and the references that it may leave
as they are. Whatever the lifted nodes and the new definitions refer to is
then either there or one of those references.
-/

namespace RequestShapes.Schema

/-! ## Scopes of a draft -/

/-- A bare reference to a definition of the draft. -/
def Resolves (source : Table Json) (node : Json) : Prop :=
  ∃ name ∈ Table.names source, node = refTo name

/-- Open definitions are those of the draft, and every definition of the draft
is open or under copy. -/
structure Scope.Serves (scope : Scope) (source : Table Json) : Prop where
  pending : ∀ target definition, Table.get? scope.pending target = some definition →
    Table.get? source target = some definition
  total : ∀ name ∈ Table.names source,
    name ∈ Table.names scope.pending ∨ name ∈ Table.names scope.copying

namespace Scope.Serves

variable {scope : Scope} {source : Table Json}

theorem initial (reserved : List String) (source : Table Json) :
    (Scope.initial reserved source).Serves source :=
  ⟨fun _ _ hget => hget, fun _ hmem => .inl hmem⟩

theorem copy (h : scope.Serves source) (target name : String) :
    (scope.copy target name).Serves source where
  pending := fun other found hget => by
    rw [Scope.copy, Table.get?_erase] at hget
    split at hget
    · cases hget
    · exact h.pending other found hget
  total := fun other hmem => by
    rw [Scope.copy, Table.mem_names_set]
    by_cases heq : other = target
    · exact .inr (.inl heq)
    · refine (h.total other hmem).imp (fun hpending => ?_) .inr
      obtain ⟨found, hget⟩ := Table.exists_get?_of_mem_names hpending
      have hopen : Table.get? (Table.erase scope.pending target) other = some found := by
        rw [Table.get?_erase, if_neg heq, hget]
      exact Table.mem_names_of_get? hopen

theorem hop (h : scope.Serves source) (hops : Nat) : (scope.hop hops).Serves source :=
  ⟨h.pending, h.total⟩

/-- No reference that resolves is kept: its definition is either open or under
copy. -/
theorem not_resolves (h : scope.Serves source) {node : Json} (hcopied : scope.copied? node = none)
    (hpending : scope.pending? node = none) : ¬ Resolves source node := by
  rintro ⟨name, hname, rfl⟩
  rcases h.total name hname with hmem | hmem
  · simp [Scope.pending?, hmem] at hpending
  · obtain ⟨found, hget⟩ := Table.exists_get?_of_mem_names hmem
    simp [Scope.copied?, hget] at hcopied

end Scope.Serves

theorem not_resolves_of_isArray {source : Table Json} {node : Json} (h : isArray node = true) :
    ¬ Resolves source node := by
  rintro ⟨name, _, rfl⟩
  simp [isArray, refTo, Json.get?, Table.get?] at h

theorem not_resolves_of_isRecord {source : Table Json} {node : Json} (h : isRecord node = true) :
    ¬ Resolves source node := by
  rintro ⟨name, _, rfl⟩
  simp [isRecord, refTo, Json.get?, Table.get?] at h

/-! ## Beside one member -/

/-- All references of a node are such that may be kept, apart from those in one
of its members. -/
def Beside (kept : String → Prop) (node : Json) (name : String) : Prop :=
  ∀ target ∈ targets (node.set name .null), kept target

section Beside

variable {kept : String → Prop} {node : Json} {name : String}

theorem beside_of_targets (h : ∀ target ∈ targets node, kept target) (hname : "$ref" ≠ name) :
    Beside kept node name := by
  intro target hmem
  refine h target ?_
  cases node with
  | obj members =>
      rw [Json.set, targets, List.mem_append] at hmem
      rw [targets, List.mem_append]
      refine hmem.imp (fun htarget => ?_) memberTargets_set_null
      rwa [target?, Json.get?, Table.get?_set_of_ne _ _ hname] at htarget
  | _ => exact hmem

theorem Beside.reference (h : Beside kept node name) (hname : "$ref" ≠ name) {target : String}
    (htarget : target? node = some target) : kept target := by
  cases node with
  | obj members =>
      refine h target (mem_targets_of_target? ?_)
      rw [← htarget, Json.set, target?, target?, Json.get?, Json.get?,
        Table.get?_set_of_ne _ _ hname]
  | _ => simp [target?, Json.get?] at htarget

theorem Beside.member (h : Beside kept node name) {other : String} (hne : other ≠ name)
    {value : Json} (hget : node.get? other = some value) :
    ∀ target ∈ targets value, kept target := by
  cases node with
  | obj members =>
      intro target htarget
      have hset : (Json.set (.obj members) name .null).get? other = some value := by
        rw [Json.set, Json.get?, Table.get?_set_of_ne _ _ hne]
        exact hget
      exact h target (targets_get?_subset hset htarget)
  | _ => simp [Json.get?] at hget

theorem Beside.itemsOf (h : Beside kept node name) (hne : "items" ≠ name) :
    ∀ target ∈ targets (itemsOf node), kept target := by
  unfold Schema.itemsOf
  cases hfilled : Json.filled? (node.get? "items") with
  | none => simp [Json.empty, targets, memberTargets, target?, Json.get?]
  | some items => exact h.member hne (Json.get?_of_filled? hfilled)

end Beside

/-! ## Classes of nodes -/

/-- A class of nodes that lifting stays in. Properties and items may also be
bare references that resolve. Where no way leads only some references are
kept. -/
structure Walkable (source : Table Json) (kept : String → Prop) (Node Bare : Json → Prop) :
    Prop where
  bare : ∀ node, Bare node → Resolves source node
  definition : ∀ node name definition, Node node ∨ Bare node → target? node = some name →
    Table.get? source name = some definition → Node definition
  properties : ∀ node members, Node node → node.get? "properties" = some (.obj members) →
    (∀ name, target? (.obj members) = some name → kept name) ∧
      ∀ entry ∈ members, Node entry.2 ∨ Bare entry.2
  items : ∀ node, Node node → isArray node = true → Node (itemsOf node) ∨ Bare (itemsOf node)
  idle : ∀ node, Node node → isArray node = false →
    isRecord node = false ∨ (∀ members, node.get? "properties" ≠ some (.obj members)) →
    ∀ target ∈ targets node, kept target
  beside : ∀ node, Node node → Beside kept node (if isArray node then "items" else "properties")

/-- What a part has to be for a class of nodes. The items of an array are not
below its body. -/
def Part.Within (kept : String → Prop) (Node Bare : Json → Prop) : Part → Json → Prop
  | .body, node => Node node ∧ (isArray node = true → ∀ target ∈ targets node, kept target)
  | .members, node => ∀ entry ∈ node.members, Node entry.2 ∨ Bare entry.2
  | .property, node | .item, node => Node node ∨ Bare node
  | .array, node => Node node

section Walkable

variable {source : Table Json} {kept : String → Prop} {Node Bare : Json → Prop} {scope : Scope}
  {part : Part} {node : Json}

theorem Walkable.of_moves (hwalk : Walkable source kept Node Bare)
    (h : part.Within kept Node Bare node) (hmoves : part.Moves scope node)
    (hserves : scope.Serves source) : Node node := by
  cases part with
  | property =>
      exact h.resolve_right fun hbare => not_resolves_of_isRecord hmoves (hwalk.bare node hbare)
  | item =>
      exact h.resolve_right fun hbare =>
        hserves.not_resolves hmoves.2.1 hmoves.2.2 (hwalk.bare node hbare)
  | _ => exact hmoves.elim

theorem Walkable.of_isArray (hwalk : Walkable source kept Node Bare)
    (h : part.Within kept Node Bare node) (hpart : part = .property ∨ part = .item)
    (harray : isArray node = true) : Node node := by
  rcases hpart with rfl | rfl <;>
    exact h.resolve_right fun hbare => not_resolves_of_isArray harray (hwalk.bare node hbare)

/-- The definition that a property or an item refers to. -/
theorem Walkable.of_refers (hwalk : Walkable source kept Node Bare)
    (h : part.Within kept Node Bare node) (hrefer : part.MayRefer node) {target : String}
    {definition : Json} (htarget : target? node = some target)
    (hget : Table.get? source target = some definition) : Node definition := by
  cases part with
  | property | item => exact hwalk.definition node target definition h htarget hget
  | _ => exact hrefer.elim

theorem Walkable.besideProperties (hwalk : Walkable source kept Node Bare)
    (h : Part.Within kept Node Bare .body node) : Beside kept node "properties" := by
  have hbeside := hwalk.beside node h.1
  split at hbeside
  next harray => exact beside_of_targets (h.2 harray) (by decide)
  next => exact hbeside

/-- A body without properties is kept as it is. -/
theorem Walkable.idleBody (hwalk : Walkable source kept Node Bare)
    (h : Part.Within kept Node Bare .body node)
    (hplain : ∀ members, node.get? "properties" ≠ some (.obj members)) :
    ∀ target ∈ targets node, kept target := by
  by_cases harray : isArray node = true
  · exact h.2 harray
  · exact hwalk.idle node h.1 (Bool.eq_false_iff.mpr harray) (.inr hplain)

end Walkable

/-- References closed under what the definitions behind them refer to may all
be kept. -/
theorem walkable_of_closed {source : Table Json} {kept : String → Prop}
    (hclosed : ∀ name definition, kept name → Table.get? source name = some definition →
      ∀ target ∈ targets definition, kept target) :
    Walkable source kept (fun node => ∀ target ∈ targets node, kept target) (fun _ => False) where
  bare := fun _ hbare => hbare.elim
  definition := fun node name definition hnode htarget hget =>
    hclosed name definition (hnode.resolve_right id name (mem_targets_of_target? htarget)) hget
  properties := fun node members hnode hget => by
    have hinner : ∀ target ∈ targets (.obj members), kept target := fun target hmem =>
      hnode target (targets_get?_subset hget hmem)
    refine ⟨fun name htarget => hinner name (mem_targets_of_target? htarget),
      fun entry hentry => .inl fun target hmem => hinner target ?_⟩
    rw [targets, List.mem_append]
    exact .inr (mem_memberTargets.mpr ⟨entry, hentry, hmem⟩)
  items := fun node hnode _ => .inl fun target hmem =>
    hnode target (targets_itemsOf_subset node hmem)
  idle := fun _ hnode _ _ => hnode
  beside := fun node hnode => beside_of_targets hnode (by split <;> decide)

/-! ## What is referred to in the end -/

/-- A reference is to a definition that is there, or it is one that is kept. -/
def Accounted (later : Table Json) (kept : String → Prop) (targets : List String) : Prop :=
  ∀ target ∈ targets, target ∈ Table.names later ∨ kept target

/-- The references of all new definitions are accounted for. -/
def Closed (kept : String → Prop) (definitions later : Table Json) : Prop :=
  ∀ name copy, name ∉ Table.names definitions → Table.get? later name = some copy →
    Accounted later kept (targets copy)

/-- The references of a lifted part are accounted for, and a text stands only
where a text stood, so no list of properties becomes a reference. -/
def Part.Settled (kept : String → Prop) (later : Table Json) : Part → Json → Json → Prop
  | .members, node, lifted =>
      (∀ text, lifted.get? "$ref" = some (.str text) → node.get? "$ref" = some (.str text)) ∧
        Accounted later kept (memberTargets lifted.members)
  | _, node, lifted =>
      (∀ text, lifted = .str text → node = .str text) ∧ Accounted later kept (targets lifted)

theorem Accounted.extends {middle later : Table Json} {kept : String → Prop}
    {targets : List String} (h : Accounted middle kept targets) (hextends : Extends middle later) :
    Accounted later kept targets :=
  fun target hmem => (h target hmem).imp_left (hextends.names_subset ·)

theorem accounted_of_left {later : Table Json} {kept : String → Prop} {targets : List String}
    (h : ∀ target ∈ targets, kept target) : Accounted later kept targets :=
  fun target hmem => .inr (h target hmem)

namespace Closed

variable {kept : String → Prop} {definitions middle later : Table Json}

theorem refl (definitions : Table Json) : Closed kept definitions definitions :=
  fun _ _ hnew hget => absurd (Table.mem_names_of_get? hget) hnew

theorem trans (h : Closed kept definitions middle) (h' : Closed kept middle later)
    (hextends : Extends middle later) : Closed kept definitions later := by
  intro name copy hnew hget
  by_cases hmiddle : name ∈ Table.names middle
  · obtain ⟨earlier, hearlier⟩ := Table.exists_get?_of_mem_names hmiddle
    obtain rfl := Option.some.inj ((hextends name earlier hearlier).symm.trans hget)
    exact (h name earlier hnew hearlier).extends hextends
  · exact h' name copy hmiddle hget

theorem finish {name : String} {node lifted : Json}
    (h : Closed kept (Table.set definitions name node) later) (hmem : name ∈ Table.names later)
    (hlifted : Accounted later kept (targets lifted)) :
    Closed kept definitions (Table.set later name lifted) := by
  intro other copy hnew hget
  have hsame : Accounted later kept (targets copy) →
      Accounted (Table.set later name lifted) kept (targets copy) := fun h target htarget => by
    rw [Table.names_set_of_mem hmem]
    exact h target htarget
  by_cases heq : other = name
  · rw [heq, Table.get?_set_self] at hget
    obtain rfl := Option.some.inj hget
    exact hsame hlifted
  · rw [Table.get?_set_of_ne _ _ heq] at hget
    refine hsame (h other copy (fun hother => ?_) hget)
    exact (Table.mem_names_set.mp hother).elim heq hnew

theorem add {name : String} {node : Json} (hfresh : name ∉ Table.names later)
    (hnode : Accounted later kept (targets node)) :
    Closed kept later (Table.set later name node) := by
  intro other copy hnew hget
  by_cases heq : other = name
  · rw [heq, Table.get?_set_self] at hget
    obtain rfl := Option.some.inj hget
    exact hnode.extends (Extends.set hfresh _)
  · rw [Table.get?_set_of_ne _ _ heq] at hget
    exact absurd (Table.mem_names_of_get? hget) hnew

end Closed

theorem settled_refTo {part : Part} {kept : String → Prop} {later : Table Json} {node : Json}
    {name : String} (hpart : part = .property ∨ part = .item ∨ part = .array)
    (hname : name ∈ Table.names later) : part.Settled kept later node (refTo name) := by
  have hsettled : (∀ text, refTo name = .str text → node = .str text) ∧
      Accounted later kept (targets (refTo name)) := by
    refine ⟨fun text heq => by simp [refTo] at heq, fun target hmem => .inl ?_⟩
    rw [targets_refTo, List.mem_singleton] at hmem
    exact hmem ▸ hname
  rcases hpart with rfl | rfl | rfl <;> exact hsettled

theorem Part.Moves.part {scope : Scope} {part : Part} {node : Json} (h : part.Moves scope node) :
    part = .property ∨ part = .item ∨ part = .array := by
  cases part <;> simp_all [Part.Moves]

theorem Part.MayRefer.part {part : Part} {node : Json} (h : part.MayRefer node) :
    part = .property ∨ part = .item ∨ part = .array := by
  cases part <;> simp_all [Part.MayRefer]

/-- With the properties exchanged, a body refers to what the new properties
refer to and to what is kept beside them. -/
theorem accounted_setProperties {node : Json} {members lifted : List (String × Json)}
    {kept : String → Prop} {later : Table Json} (hbeside : Beside kept node "properties")
    (hkept : ∀ name, target? (.obj members) = some name → kept name)
    (hmembers : Part.Settled kept later .members (.obj members) (.obj lifted)) :
    Accounted later kept (targets (node.set "properties" (.obj lifted))) := by
  obtain ⟨htext, haccounted⟩ := hmembers
  intro target hmem
  rcases targets_set (by decide) hmem with hmem | hmem
  · exact .inr (hbeside target hmem)
  · rw [targets, List.mem_append, Option.mem_toList] at hmem
    rcases hmem with htarget | hmem
    · refine .inr (hkept target ?_)
      rw [target?, htext _ (target?_eq_some htarget)]
      exact nameOfPath?_definitionsPath target
    · exact haccounted target hmem

/-- With the items exchanged, an array refers to what the new items refer to
and to what is kept beside them. -/
theorem accounted_setItems {node items : Json} {kept : String → Prop} {later : Table Json}
    (hbeside : Beside kept node "items") (hitems : Accounted later kept (targets items)) :
    Accounted later kept (targets (node.set "items" items)) :=
  fun target hmem => (targets_set (by decide) hmem).elim (fun h => .inr (hbeside target h))
    (hitems target)

theorem beside_erase {kept : String → Prop} {node : Json} {name : String}
    (h : Beside kept node name) (hname : "$ref" ≠ name) : Beside kept (node.erase name) name := by
  cases node with
  | obj members =>
      intro target hmem
      refine h target ?_
      simp only [Json.erase, Json.set, targets, List.mem_append] at hmem ⊢
      refine hmem.imp (fun htarget => ?_) fun htargets => ?_
      · rw [target?, Json.get?, Table.get?_set_of_ne _ _ hname] at htarget ⊢
        rwa [Table.get?_erase, if_neg hname] at htarget
      · obtain ⟨entry, hentry, htargets⟩ := mem_memberTargets.mp htargets
        rcases Table.mem_set hentry with rfl | hentry
        · simp [targets] at htargets
        · obtain ⟨hentry, hne⟩ := List.mem_filter.mp hentry
          exact mem_memberTargets.mpr
            ⟨entry, Table.mem_set_of_mem hentry (of_decide_eq_true hne), htargets⟩
  | _ => exact h

/-- What lifted nodes and new definitions refer to is there or kept. -/
theorem Lifts.closed {source : Table Json} {kept : String → Prop} {Node Bare : Json → Prop}
    (hwalk : Walkable source kept Node Bare) {part : Part} {scope : Scope}
    {definitions later : Table Json} {node lifted : Json} {path : String}
    (h : Lifts part scope definitions node path lifted later)
    (hnode : part.Within kept Node Bare node) (hserves : scope.Serves source)
    (hcopying : ∀ target name, Table.get? scope.copying target = some name →
      name ∈ Table.names definitions) :
    part.Settled kept later node lifted ∧ Closed kept definitions later := by
  induction h with
  | plain hplain =>
      exact ⟨⟨fun _ => id, accounted_of_left (hwalk.idleBody hnode hplain)⟩, .refl _⟩
  | @within _ _ _ node _ _ _ hproperties _ ih =>
      obtain ⟨hkept, hmembers⟩ := hwalk.properties _ _ hnode.1 hproperties
      obtain ⟨hsettled, hclosed⟩ := ih hmembers hserves hcopying
      refine ⟨⟨fun text htext => ?_, ?_⟩, hclosed⟩
      · cases node <;> simp_all [Json.set]
      · exact accounted_setProperties (hwalk.besideProperties hnode) hkept hsettled
  | nil => exact ⟨⟨fun _ => id, by simp [Accounted, Json.members, memberTargets]⟩, .refl _⟩
  | @cons _ _ _ _ _ name _ _ _ _ hvalue hrest ihvalue ihrest =>
      obtain ⟨hvalueNode, hothers⟩ := List.forall_mem_cons.mp hnode
      obtain ⟨⟨htext, hsettled⟩, hclosed⟩ := ihvalue hvalueNode hserves hcopying
      obtain ⟨⟨htextRest, hsettledRest⟩, hclosedRest⟩ :=
        ihrest hothers hserves fun target name hget =>
          hvalue.extends.names_subset (hcopying target name hget)
      refine ⟨⟨fun text => ?_, fun target hmem => ?_⟩, hclosed.trans hclosedRest hrest.extends⟩
      · by_cases hname : name = "$ref"
        · simp only [Json.get?, Table.get?, hname, if_true, Option.some.injEq]
          exact htext text
        · simp only [Json.get?, Table.get?, hname, if_false]
          exact htextRest text
      · rcases List.mem_append.mp hmem with hmem | hmem
        · exact hsettled.extends hrest.extends target hmem
        · exact hsettledRest target hmem
  | kept harray hrecord hcopied hpending =>
      have hnode := hnode.resolve_right fun hbare =>
        hserves.not_resolves hcopied hpending (hwalk.bare _ hbare)
      exact ⟨⟨fun _ => id, accounted_of_left (hwalk.idle _ hnode harray (.inl hrecord))⟩, .refl _⟩
  | back hrefer _ hcopied =>
      obtain ⟨target, _, hget⟩ := Option.bind_eq_some_iff.mp hcopied
      exact ⟨settled_refTo hrefer.part (hcopying _ _ hget), .refl _⟩
  | moved hmoves harray _ hlifts ih =>
      obtain ⟨hsettled, hclosed⟩ := ih ⟨hwalk.of_moves hnode hmoves hserves, by simp [harray]⟩
        hserves fun target other hget => Table.mem_names_set.mpr (.inr (hcopying target other hget))
      have hmem := hlifts.extends.names_subset (Table.mem_names_set.mpr (.inl rfl))
      refine ⟨settled_refTo hmoves.part (Table.mem_names_set.mpr (.inl rfl)), ?_⟩
      exact hclosed.finish hmem hsettled.2
  | @copied _ _ _ _ _ definition _ _ name target hrefer _ _ htarget hget harray _ hlifts ih =>
      have hdefinition := hwalk.of_refers hnode hrefer htarget (hserves.pending _ _ hget)
      obtain ⟨hsettled, hclosed⟩ := ih ⟨hdefinition, by simp [harray]⟩ (hserves.copy target name)
        fun other found hfound => by
          rw [Scope.copy, Table.get?_set] at hfound
          rw [Table.mem_names_set]
          split at hfound
          · exact .inl (Option.some.inj hfound).symm
          · exact .inr (hcopying other found hfound)
      have hmem := hlifts.extends.names_subset (Table.mem_names_set.mpr (.inl rfl))
      refine ⟨settled_refTo hrefer.part (Table.mem_names_set.mpr (.inl rfl)), ?_⟩
      exact hclosed.finish hmem hsettled.2
  | copiedArray hrefer _ _ htarget hget harray _ _ ih =>
      have hdefinition := hwalk.of_refers hnode hrefer htarget (hserves.pending _ _ hget)
      obtain ⟨⟨htext, hsettled⟩, hclosed⟩ := ih hdefinition (hserves.hop _) hcopying
      refine ⟨?_, hclosed⟩
      have hno : ∀ text, ¬ _ = Json.str text := fun text heq => by
        rw [htext text heq] at harray
        cases harray
      rcases hrefer.part with rfl | rfl | rfl <;>
        exact ⟨fun text heq => absurd heq (hno text), hsettled⟩
  | direct hpart harray _ ih =>
      obtain ⟨hsettled, hclosed⟩ := ih (hwalk.of_isArray hnode hpart harray) hserves hcopying
      refine ⟨?_, hclosed⟩
      rcases hpart with rfl | rfl <;> exact hsettled
  | @array _ _ later node items _ name harray _ hname ih =>
      obtain ⟨hsettled, hclosed⟩ := ih (hwalk.items node hnode harray) hserves hcopying
      refine ⟨settled_refTo (.inr (.inr rfl)) (Table.mem_names_set.mpr (.inl rfl)), ?_⟩
      obtain ⟨hfresh, _⟩ := hname ▸ Scope.freshFor_not_mem _ later _
      have hbeside := hwalk.beside node hnode
      rw [if_pos harray] at hbeside
      refine hclosed.trans (.add hfresh ?_) (Extends.set hfresh _)
      exact accounted_setItems (beside_erase hbeside (by decide)) hsettled.2

/-- What the lifted root and the definitions refer to is there or kept. -/
theorem liftRoot_closed {source : Table Json} {kept : String → Prop} {Node Bare : Json → Prop}
    (hwalk : Walkable source kept Node Bare) {scope : Scope} (hserves : scope.Serves source)
    (hcopying : scope.copying = []) {root lifted : Json} {path : String}
    {definitions : Table Json} (h : liftRoot scope root path = .ok (lifted, definitions))
    (hroot : Node root) :
    Accounted definitions kept (targets lifted) ∧ Closed kept [] definitions := by
  rw [liftRoot] at h
  split at h
  next harray =>
    obtain ⟨⟨items, later⟩, hitems, heq⟩ := bind_eq_ok h
    cases heq
    obtain ⟨hsettled, hclosed⟩ := (lifts_of_liftItem hitems).closed hwalk
      (hwalk.items root hroot harray) hserves (by simp [hcopying])
    have hbeside := hwalk.beside root hroot
    rw [if_pos harray] at hbeside
    exact ⟨accounted_setItems hbeside hsettled.2, hclosed⟩
  next harray =>
    obtain ⟨hsettled, hclosed⟩ := (lifts_of_liftProperties h).closed hwalk
      ⟨hroot, fun hisArray => absurd hisArray harray⟩ hserves (by simp [hcopying])
    exact ⟨hsettled.2, hclosed⟩

end RequestShapes.Schema
