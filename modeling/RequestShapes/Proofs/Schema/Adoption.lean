import RequestShapes.Proofs.Schema.Acyclic
import RequestShapes.Proofs.Schema.Origins

/-!
# Taking over what is still referred to

Each definition that is taken over becomes a copy of itself under the name it
gets, and references to it follow. All other references stay as they are, so
the definitions are still copies of their origins.
-/

namespace RequestShapes.Schema

/-! ## What is missing -/

/-- All that the root and the definitions refer to. -/
def referred (root : Json) (definitions : Table Json) : List String :=
  (root :: definitions.map Prod.snd).flatMap targets

theorem targets_root_subset {root : Json} {definitions : Table Json} :
    targets root ⊆ referred root definitions :=
  fun _ hmem => List.mem_flatMap.mpr ⟨root, List.mem_cons_self, hmem⟩

theorem targets_subset_referred {root copy : Json} {definitions : Table Json} {name : String}
    (hget : Table.get? definitions name = some copy) :
    targets copy ⊆ referred root definitions :=
  fun _ hmem => List.mem_flatMap.mpr ⟨copy,
    List.mem_cons_of_mem _ (List.mem_map.mpr ⟨_, Table.mem_of_get? hget, rfl⟩), hmem⟩

theorem missing?_eq_some {source : Table Json} {root node : Json} {definitions : Table Json}
    {target : String} (h : missing? source root definitions = some (target, node)) :
    target ∈ referred root definitions ∧
      target ∉ Table.names definitions ∧ Table.get? source target = some node := by
  obtain ⟨other, hmem, hfound⟩ := List.exists_of_findSome?_eq_some h
  split at hfound
  next => cases hfound
  next hhas =>
    obtain ⟨found, hget, heq⟩ := Option.map_eq_some_iff.mp hfound
    cases heq
    exact ⟨hmem, fun hname => hhas ((Table.has_iff_mem_names _ _).mpr hname), hget⟩

theorem mem_names_of_missing? {source : Table Json} {root : Json} {definitions : Table Json}
    {target : String} (h : missing? source root definitions = none)
    (hmem : target ∈ referred root definitions)
    (hsource : target ∈ Table.names source) : target ∈ Table.names definitions := by
  have hfound := List.findSome?_eq_none_iff.mp h target hmem
  split at hfound
  next hhas => exact (Table.has_iff_mem_names _ _).mp hhas
  next =>
    obtain ⟨node, hget⟩ := Table.exists_get?_of_mem_names hsource
    rw [hget] at hfound
    cases hfound

/-! ## References that follow -/

section Retarget

variable {source origins later : Table Json} {kept : String → Prop} {target name : String}
  {definition : Json}

/-- No definition was made under the name of the one that is taken over, so
only references to the definition of the draft follow it. -/
structure TakenOver (source origins later : Table Json) (target name : String)
    (definition : Json) : Prop where
  grows : Extends origins later
  absent : target ∉ Table.names origins
  source : Table.get? source target = some definition
  later : Table.get? later name = some definition

theorem Turned.retarget (htaken : TakenOver source origins later target name definition)
    {old new : String} (h : Turned source origins kept old new) :
    Turned source later kept old (if new = target then name else new) := by
  rcases h with ⟨rfl, hkept⟩ | ⟨origin, hsource, horigin⟩
  · split
    next heq => exact .inr ⟨definition, heq ▸ htaken.source, htaken.later⟩
    next => exact .inl ⟨rfl, hkept⟩
  · have hne : new ≠ target := fun heq => htaken.absent (heq ▸ Table.mem_names_of_get? horigin)
    rw [if_neg hne]
    exact .inr ⟨origin, hsource, htaken.grows new origin horigin⟩

theorem Exchanged.retarget (htaken : TakenOver source origins later target name definition)
    {node copy : Json} (h : Exchanged source origins node copy) :
    Exchanged source later node (Schema.retarget target name copy) := by
  obtain ⟨_, other, origin, rfl, horigin, _⟩ := id h
  rw [retarget_eq_self (refTo other) fun hmem => ?_]
  · exact h.extends htaken.grows
  · rw [targets_refTo, List.mem_singleton] at hmem
    exact absurd (hmem ▸ Table.mem_names_of_get? horigin) htaken.absent

theorem rel_map_retarget {R S : Json → Json → Prop} {first second : Option Json}
    (hrel : Option.Rel R first second)
    (himp : ∀ value other, first = some value → R value other →
      S value (Schema.retarget target name other)) :
    Option.Rel S first (second.map (Schema.retarget target name)) := by
  cases hrel with
  | none => exact .none
  | some h => exact .some (himp _ _ rfl h)

theorem turned_target?_retarget (htaken : TakenOver source origins later target name definition)
    {node copy : Json}
    (hrel : Option.Rel (Turned source origins kept) (target? node) (target? copy)) :
    Option.Rel (Turned source later kept) (target? node)
      (target? (Schema.retarget target name copy)) := by
  rw [target?_retarget]
  generalize target? node = old, target? copy = new at hrel
  cases hrel with
  | none => exact .none
  | some h => exact .some (h.retarget htaken)

theorem Place.retarget (htaken : TakenOver source origins later target name definition)
    {node copy : Json} (h : Place source origins kept node copy) :
    Place source later kept node (Schema.retarget target name copy) := by
  cases h with
  | exchanged h => exact .exchanged (h.retarget htaken)
  | alike htarget hlabel hchildren =>
      refine .alike (turned_target?_retarget htaken htarget) (by rw [label_retarget, hlabel])
        fun hnone step => ?_
      rw [child?_retarget target name (eq_none_of_rel htarget hnone)]
      refine rel_map_retarget (hchildren hnone step) fun inner other hinner hplace => ?_
      have := sizeOf_child?_lt hinner
      exact hplace.retarget htaken
termination_by sizeOf node

theorem Copies.retarget (htaken : TakenOver source origins later target name definition)
    {node copy : Json} (h : Copies source origins kept node copy) :
    Copies source later kept node (Schema.retarget target name copy) where
  target := turned_target?_retarget htaken h.target
  label := by rw [label_retarget, h.label]
  children := fun hnone step => by
    rw [child?_retarget target name (eq_none_of_rel h.target hnone)]
    exact rel_map_retarget (h.children hnone step) fun _ _ _ hplace => hplace.retarget htaken

end Retarget

/-! ## One definition after the other -/

/-- Under which names definitions of the draft are taken over, in order. -/
def adoptions (scope : Scope) : Nat → Json → Table Json → List (String × String)
  | 0, _, _ => []
  | fuel + 1, root, definitions =>
      match missing? scope.pending root definitions with
      | none => []
      | some (target, node) =>
          (target, scope.freshFor definitions target) ::
            match adoptOne scope root definitions target node with
            | .ok (root, definitions) => adoptions scope fuel root definitions
            | .error _ => []

/-- The root and the definitions are copies of their origins, which are nodes of
a class, whichever references kept their names. -/
structure Follows (source origins : Table Json) (Node : Json → Prop) (start root : Json)
    (definitions : Table Json) : Prop where
  copies : Copies source origins (fun _ => True) start root
  names : ∀ name, name ∈ Table.names origins ↔ name ∈ Table.names definitions
  nodes : ∀ name origin, Table.get? origins name = some origin → Node origin
  definitions : AreCopies source origins (fun _ => True) definitions

theorem adoptOne_eq_ok {scope : Scope} {root root' node : Json} {definitions later : Table Json}
    {target : String} (h : adoptOne scope root definitions target node = .ok (root', later)) :
    ∃ name lifted middle, scope.freshFor definitions target = name ∧
      liftProperties scope (Table.set (definitions.map fun entry =>
          (entry.1, retarget target name entry.2)) name (retarget target name node))
        (retarget target name node) name = .ok (lifted, middle) ∧
      root' = retarget target name root ∧ later = Table.set middle name lifted := by
  rw [adoptOne] at h
  split at h
  next =>
    obtain ⟨⟨lifted, middle⟩, hlifted, heq⟩ := bind_eq_ok h
    cases heq
    exact ⟨_, lifted, middle, rfl, hlifted, rfl, rfl⟩
  next => cases h

theorem get?_map_retarget (definitions : Table Json) (old new name : String) :
    Table.get? (definitions.map fun entry => (entry.1, retarget old new entry.2)) name =
      (Table.get? definitions name).map (retarget old new) :=
  Table.get?_mapValues definitions (fun _ => retarget old new) name

theorem names_map_retarget (definitions : Table Json) (old new : String) :
    Table.names (definitions.map fun entry => (entry.1, retarget old new entry.2)) =
      Table.names definitions := by
  simp [Table.names]

/-- Where nothing is missing nothing is taken over. -/
theorem adopt_of_missing?_eq_none {scope : Scope} {root : Json} {definitions : Table Json}
    (h : missing? scope.pending root definitions = none) (fuel : Nat) :
    adopt scope fuel root definitions = .ok (root, definitions) := by
  cases fuel with
  | zero => simp [adopt, h]
  | succ fuel => simp [adopt, h]

theorem adopt_of_missing?_eq_some {scope : Scope} {root node : Json} {definitions : Table Json}
    {target : String} (h : missing? scope.pending root definitions = some (target, node))
    (fuel : Nat) :
    adopt scope (fuel + 1) root definitions = (do
      let (root, definitions) ← adoptOne scope root definitions target node
      adopt scope fuel root definitions) := by
  rw [adopt, h]

/-- With more fuel a run comes to the same result. -/
theorem adopt_mono {scope : Scope} {fuel more : Nat} {root : Json} {definitions : Table Json}
    {result : Json × Table Json} (h : adopt scope fuel root definitions = .ok result)
    (hle : fuel ≤ more) : adopt scope more root definitions = .ok result := by
  induction fuel generalizing more root definitions with
  | zero =>
      rw [adopt] at h
      split at h
      next hnone => rw [adopt_of_missing?_eq_none (Option.isNone_iff_eq_none.mp hnone), h]
      next => cases h
  | succ fuel ih =>
      obtain ⟨more, rfl⟩ := Nat.exists_eq_add_of_le' (Nat.le_trans (Nat.le_add_left 1 fuel) hle)
      cases hmissing : missing? scope.pending root definitions with
      | none =>
          rw [adopt_of_missing?_eq_none hmissing] at h ⊢
          exact h
      | some entry =>
          rw [adopt_of_missing?_eq_some hmissing] at h ⊢
          obtain ⟨middle, hone, hrest⟩ := bind_eq_ok h
          rw [hone]
          exact ih hrest (Nat.le_of_succ_le_succ hle)

/-- A chain of references through all definitions is within the bound, whichever
references it takes. -/
theorem pow_le_adoptionBound (draft : Json) :
    Nat.pow ((targets draft).length + 1) ((definitionsOf draft).length + 1) ≤
      adoptionBound draft := by
  have hnames : (Table.names (definitionsOf draft)).length = (definitionsOf draft).length :=
    List.length_map _
  rw [adoptionBound, hnames]
  calc Nat.pow ((targets draft).length + 1) ((definitionsOf draft).length + 1)
      ≤ Nat.pow ((targets draft).length + 1) ((definitionsOf draft).length + 2) :=
        Nat.pow_le_pow_right (Nat.succ_pos _) (Nat.le_succ _)
    _ ≤ _ := Nat.le_mul_of_pos_right _ (Nat.mul_pos (Nat.succ_pos _) (Nat.succ_pos _))

theorem lt_adoptionBound (draft : Json) : (targets draft).length < adoptionBound draft :=
  Nat.lt_of_succ_le
    (Nat.le_trans (Nat.le_self_pow (Nat.succ_ne_zero _) _) (pow_le_adoptionBound draft))

/-- What taking over one definition keeps, a whole run keeps, and at the end of
the run nothing of the draft is missing. An invariant may also speak of what was
taken over before. -/
theorem adopt_invariant {scope : Scope}
    (Invariant : List (String × String) → Json → Table Json → Prop)
    (hstep : ∀ taken root definitions target node root' later, Invariant taken root definitions →
      missing? scope.pending root definitions = some (target, node) →
      adoptOne scope root definitions target node = .ok (root', later) →
      Invariant (taken ++ [(target, scope.freshFor definitions target)]) root' later)
    {fuel : Nat} {root root' : Json} {definitions later : Table Json}
    (hstart : Invariant [] root definitions)
    (h : adopt scope fuel root definitions = .ok (root', later)) :
    Invariant (adoptions scope fuel root definitions) root' later ∧
      missing? scope.pending root' later = none := by
  -- from any state of the run on, with what was taken over up to it
  suffices hrun : ∀ taken, Invariant taken root definitions →
      Invariant (taken ++ adoptions scope fuel root definitions) root' later ∧
        missing? scope.pending root' later = none from hrun [] hstart
  clear hstart
  intro taken hstart
  induction fuel generalizing taken root definitions with
  | zero =>
      rw [adopt] at h
      split at h
      next hnone =>
        cases h
        rw [adoptions, List.append_nil]
        exact ⟨hstart, Option.isNone_iff_eq_none.mp hnone⟩
      next => cases h
  | succ fuel ih =>
      cases hmissing : missing? scope.pending root definitions with
      | none =>
          rw [adopt_of_missing?_eq_none hmissing] at h
          cases h
          simp only [adoptions, hmissing, List.append_nil]
          exact ⟨hstart, trivial⟩
      | some entry =>
          obtain ⟨target, node⟩ := entry
          rw [adopt_of_missing?_eq_some hmissing] at h
          obtain ⟨⟨middleRoot, middle⟩, hone, hrest⟩ := bind_eq_ok h
          simp only [adoptions, hmissing, hone]
          rw [List.append_cons]
          exact ih hrest _ (hstep _ _ _ _ _ _ _ hstart hmissing hone)

/-- The root stays an object without definitions of its own. -/
theorem adopt_root {scope : Scope} {fuel : Nat} {root root' : Json}
    {definitions later : Table Json} (h : adopt scope fuel root definitions = .ok (root', later))
    (hplain : root.get? "definitions" = none) :
    label root' = label root ∧ root'.get? "definitions" = none := by
  refine (adopt_invariant (fun _ later _ => label later = label root ∧
    later.get? "definitions" = none) ?_ ⟨rfl, hplain⟩ h).1
  rintro taken middle definitions target node _ _ ⟨hlabel, hnone⟩ - hone
  obtain ⟨name, _, _, _, _, rfl, _⟩ := adoptOne_eq_ok hone
  refine ⟨by rw [label_retarget, hlabel], ?_⟩
  rw [get?_retarget _ _ (.inl (by decide)), hnone, Option.map_none]

/-! ## Bounds -/

/-- The scope with other bounds. -/
def Scope.within (scope : Scope) (limit hops : Nat) : Scope :=
  { scope with limit := limit, hops := hops }

theorem Scope.Serves.within {scope : Scope} {source : Table Json} (h : scope.Serves source)
    (limit hops : Nat) : (scope.within limit hops).Serves source :=
  ⟨h.pending, h.total⟩

/-- Lifting with given bounds on how many array definitions follow one another
and on how many definitions are taken over. -/
def liftWithin (limit fuel : Nat) (draft : Json) (rootName : String) (reserved : List String) :
    Except Fault Json := do
  unless draft.isObject do throw .noObject
  let scope := (Scope.initial (rootName :: reserved) (definitionsOf draft)).within limit limit
  let (root, definitions) ← liftRoot scope (draft.erase "definitions") rootName
  let (root, definitions) ← adopt scope fuel root definitions
  .ok (root.set "definitions" (.obj definitions))

theorem lift_eq_liftWithin (draft : Json) (rootName : String) (reserved : List String) :
    lift draft rootName reserved =
      liftWithin (definitionsOf draft).length (adoptionBound draft) draft rootName reserved :=
  rfl

/-- Lifting comes to a result that it comes to with less fuel. -/
theorem lift_eq_ok_of_liftWithin {fuel : Nat} {draft result : Json} {rootName : String}
    {reserved : List String}
    (h : liftWithin (definitionsOf draft).length fuel draft rootName reserved = .ok result)
    (hle : fuel ≤ adoptionBound draft) : lift draft rootName reserved = .ok result := by
  rw [lift_eq_liftWithin]
  rw [liftWithin] at h ⊢
  split at h
  next hobject =>
    obtain ⟨⟨root, definitions⟩, hroot, h⟩ := bind_eq_ok h
    obtain ⟨⟨root', definitions'⟩, hadopt, heq⟩ := bind_eq_ok h
    simp only [if_pos hobject, hroot, bind, Except.bind, adopt_mono hadopt hle]
    exact heq
  next => cases h

/-- The two phases that lead to a result. -/
theorem liftWithin_phases {limit fuel : Nat} {draft result : Json} {rootName : String}
    {reserved : List String} (h : liftWithin limit fuel draft rootName reserved = .ok result) :
    ∃ root definitions,
      liftRoot ((Scope.initial (rootName :: reserved) (definitionsOf draft)).within limit limit)
        (rootOf draft) rootName = .ok (root, definitions) ∧
      adopt ((Scope.initial (rootName :: reserved) (definitionsOf draft)).within limit limit) fuel
        root definitions = .ok (rootOf result, definitionsOf result) := by
  rw [liftWithin] at h
  split at h
  next hobject =>
    obtain ⟨⟨root, definitions⟩, hroot, h⟩ := bind_eq_ok h
    obtain ⟨⟨root', definitions'⟩, hadopt, heq⟩ := bind_eq_ok h
    cases heq
    obtain ⟨hlabel, hplain⟩ := adopt_root hadopt (by
      rw [get?_liftRoot hroot (by decide) (by decide)]
      exact get?_definitions_rootOf draft)
    have hrootObject : root'.isObject = true := by
      rw [← label_eq_obj_iff, hlabel, label_liftRoot hroot, label_eq_obj_iff]
      exact (isObject_rootOf draft).trans hobject
    obtain ⟨hpart, hdefinitions⟩ := parts_of_set hrootObject hplain definitions'
    rw [hpart, hdefinitions]
    exact ⟨root, definitions, hroot, hadopt⟩
  next => cases h

theorem lift_phases {draft result : Json} {rootName : String} {reserved : List String}
    (h : lift draft rootName reserved = .ok result) :
    ∃ root definitions,
      liftRoot (Scope.initial (rootName :: reserved) (definitionsOf draft)) (rootOf draft)
        rootName = .ok (root, definitions) ∧
      adopt (Scope.initial (rootName :: reserved) (definitionsOf draft)) (adoptionBound draft)
        root definitions = .ok (rootOf result, definitionsOf result) :=
  liftWithin_phases (lift_eq_liftWithin draft rootName reserved ▸ h)

theorem walkable_all (source : Table Json) :
    Walkable source (fun _ => True) (fun _ => True) (fun _ => False) where
  bare := fun _ hbare => hbare.elim
  definition := fun _ _ _ _ _ _ => trivial
  properties := fun _ _ _ _ => ⟨fun _ _ => trivial, fun _ _ => .inl trivial⟩
  items := fun _ _ _ => .inl trivial
  idle := fun _ _ _ _ _ _ => trivial
  beside := fun _ _ _ _ => trivial

section Follows

variable {source origins : Table Json} {Node Bare : Json → Prop} {start root root' : Json}
  {definitions later : Table Json} {scope : Scope}

/-- What lifting the root leads to. -/
theorem follows_of_liftRoot (hwalk : Walkable source (fun _ => True) Node Bare)
    (hsound : scope.Sound source []) {path : String} (hnode : Node root)
    (h : liftRoot scope root path = .ok (root', later)) :
    ∃ origins, Follows source origins Node root root' later := by
  obtain ⟨origins, hrecorded, hcopies⟩ := liftRoot_recorded hwalk h hnode hsound
  have hnew (name : String) : name ∉ Table.names ([] : Table Json) := by simp [Table.names]
  exact ⟨origins, hcopies, hrecorded.names,
    fun name origin hget => (hrecorded.copies name origin (hnew name) hget).1,
    fun name origin hget => (hrecorded.copies name origin (hnew name) hget).2⟩

/-- A definition that does not refer to itself is taken over: it is copied
under the name that it gets. -/
theorem Follows.adoptOne (h : Follows source origins Node start root definitions)
    (hwalk : Walkable source (fun _ => True) Node Bare) (hsound : scope.Sound source [])
    {target : String} {node : Json} (habsent : target ∉ Table.names definitions)
    (hsource : Table.get? source target = some node) (hself : target ∉ targets node)
    (hnode : Node node) (hadopt : adoptOne scope root definitions target node = .ok (root', later)) :
    ∃ origins', Extends origins origins' ∧
      Table.get? origins' (scope.freshFor definitions target) = some node ∧
      Follows source origins' Node start root' later := by
  obtain ⟨name, lifted, middle, hname, hlifted, rfl, rfl⟩ := adoptOne_eq_ok hadopt
  rw [retarget_eq_self node fun hmem => absurd hmem hself] at hlifted
  obtain ⟨hfresh, _⟩ := hname ▸ scope.freshFor_not_mem definitions target
  have hnames : ∀ other, other ∈ Table.names origins ↔
      other ∈ Table.names (definitions.map fun entry => (entry.1, retarget target name entry.2)) :=
    fun other => by rw [names_map_retarget, h.names]
  have hfresh' : name ∉ Table.names origins := fun hmem => hfresh ((h.names name).mp hmem)
  have hlifts := lifts_of_liftProperties hlifted
  obtain ⟨origins', hrecorded, hcopies⟩ := hlifts.recorded hwalk
    ⟨hnode, fun _ _ _ => trivial⟩ (hsound.extends fun _ _ hget => by cases hget)
    (Recorded.start hnames name node)
  have horigin := hrecorded.grows name node (Table.get?_set_self _ _ _)
  have hfinished := hrecorded.finish (fun hmem => hfresh (names_map_retarget _ _ _ ▸ hmem)) hnames
    hnode hcopies
  have htaken : TakenOver source origins origins' target name node :=
    ⟨hfinished.grows, fun hmem => habsent ((h.names target).mp hmem), hsource, horigin⟩
  have hold {other : String} {origin : Json} (hmem : other ∈ Table.names definitions)
      (hget : Table.get? origins' other = some origin) : Table.get? origins other = some origin := by
    obtain ⟨earlier, hearlier⟩ := Table.exists_get?_of_mem_names ((h.names other).mpr hmem)
    rwa [hearlier, ← hfinished.grows other earlier hearlier]
  have hnew {other : String} (hmem : other ∉ Table.names definitions) : other ∉ Table.names
      (definitions.map fun entry => (entry.1, retarget target name entry.2)) := by
    rwa [names_map_retarget]
  refine ⟨origins', hfinished.grows, hname ▸ horigin, h.copies.retarget htaken, hfinished.names,
    fun other origin hget => ?_, fun other origin hget => ?_⟩
  · by_cases hmem : other ∈ Table.names definitions
    · exact h.nodes other origin (hold hmem hget)
    · exact (hfinished.copies other origin (hnew hmem) hget).1
  · by_cases hmem : other ∈ Table.names definitions
    · obtain ⟨copy, hcopy, hcopies⟩ := h.definitions other origin (hold hmem hget)
      refine ⟨retarget target name copy, ?_, hcopies.retarget htaken⟩
      have hne : other ≠ name := fun heq => hfresh (heq ▸ hmem)
      rw [Table.get?_set_of_ne _ _ hne]
      refine hlifts.extends other _ ?_
      rw [Table.get?_set_of_ne _ _ hne, get?_map_retarget, hcopy, Option.map_some]
    · exact (hfinished.copies other origin (hnew hmem) hget).2

/-- A run of taking definitions over leaves copies of the draft, in which
nothing that the draft defines is missing and every definition has an origin
under the name it was taken over as. -/
theorem Follows.adopt (hwalk : Walkable source (fun _ => True) Node Bare)
    (hsound : scope.Sound source []) (hpending : scope.pending = source)
    (hacyclic : Acyclic source fun _ => True)
    (hnodes : ∀ name node, Table.get? source name = some node → Node node) {fuel : Nat}
    (h : Follows source origins Node start root definitions)
    (hadopt : adopt scope fuel root definitions = .ok (root', later)) :
    ∃ origins', Extends origins origins' ∧ Follows source origins' Node start root' later ∧
      missing? source root' later = none ∧
      ∀ entry ∈ adoptions scope fuel root definitions, ∃ node,
        Table.get? source entry.1 = some node ∧ Table.get? origins' entry.2 = some node := by
  have hrun := adopt_invariant (fun taken root definitions => ∃ origins', Extends origins origins' ∧
    Follows source origins' Node start root definitions ∧ ∀ entry ∈ taken, ∃ node,
      Table.get? source entry.1 = some node ∧ Table.get? origins' entry.2 = some node)
    ?_ ⟨origins, .refl _, h, List.forall_mem_nil _⟩ hadopt
  · obtain ⟨⟨origins', hgrows, hfollows, hentries⟩, hnone⟩ := hrun
    exact ⟨origins', hgrows, hfollows, hpending ▸ hnone, hentries⟩
  · rintro taken root definitions target node _ _ ⟨origins₁, hgrows, hfollows, hentries⟩ hmissing hone
    rw [hpending] at hmissing
    obtain ⟨_, habsent, hsource⟩ := missing?_eq_some hmissing
    have hself : target ∉ targets node := fun hmem =>
      hacyclic target (.single ⟨node, hsource, trivial, hmem⟩)
    obtain ⟨origins₂, hgrows', horigin, hfollows'⟩ :=
      hfollows.adoptOne hwalk hsound habsent hsource hself (hnodes target node hsource) hone
    refine ⟨origins₂, hgrows.trans hgrows', hfollows', List.forall_mem_append.mpr
      ⟨fun entry hentry => ?_, List.forall_mem_singleton.mpr ⟨node, hsource, horigin⟩⟩⟩
    obtain ⟨node, hnode, horigin⟩ := hentries entry hentry
    exact ⟨node, hnode, hgrows' _ _ horigin⟩

end Follows

end RequestShapes.Schema
