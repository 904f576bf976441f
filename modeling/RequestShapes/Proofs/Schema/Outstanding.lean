import RequestShapes.Proofs.Schema.Adoption

/-!
# What is still referred to and not there

With every definition that is taken over, references to it are no longer
outstanding. What comes in addition stands behind its own references.
-/

namespace RequestShapes.Schema

/-- All references of the root and the definitions are to definitions that are
there, apart from outstanding ones. -/
structure Accounts (outstanding : String → Prop) (root : Json) (definitions : Table Json) :
    Prop where
  nodup : (Table.names definitions).Nodup
  referred : Accounted definitions outstanding (referred root definitions)

namespace Accounts

variable {outstanding : String → Prop} {root : Json} {definitions : Table Json}

theorem of_parts (hnodup : (Table.names definitions).Nodup)
    (hroot : Accounted definitions outstanding (targets root))
    (hdefinitions : ∀ name copy, Table.get? definitions name = some copy →
      Accounted definitions outstanding (targets copy)) :
    Accounts outstanding root definitions := by
  refine ⟨hnodup, fun target hmem => ?_⟩
  simp only [Schema.referred, List.mem_flatMap, List.mem_cons, List.mem_map] at hmem
  obtain ⟨node, rfl | ⟨entry, hentry, rfl⟩, htarget⟩ := hmem
  · exact hroot target htarget
  · exact hdefinitions entry.1 entry.2 (Table.get?_of_mem hnodup hentry) target htarget

theorem ofRoot (h : Accounts outstanding root definitions) :
    Accounted definitions outstanding (targets root) :=
  fun target hmem => h.referred target (targets_root_subset hmem)

theorem ofDefinition (h : Accounts outstanding root definitions) {name : String} {copy : Json}
    (hget : Table.get? definitions name = some copy) :
    Accounted definitions outstanding (targets copy) :=
  fun target hmem => h.referred target (targets_subset_referred hget hmem)

theorem mono {Other : String → Prop} (h : Accounts outstanding root definitions)
    (himp : ∀ target, outstanding target → Other target) : Accounts Other root definitions :=
  ⟨h.nodup, fun target hmem => (h.referred target hmem).imp_right (himp target)⟩

/-- What is missing is outstanding. -/
theorem of_missing? (h : Accounts outstanding root definitions) {source : Table Json}
    {target : String} {node : Json}
    (hmissing : missing? source root definitions = some (target, node)) : outstanding target := by
  obtain ⟨hmem, habsent, _⟩ := missing?_eq_some hmissing
  exact (h.referred target hmem).resolve_left habsent

end Accounts

/-- The names behind the references of a definition of the draft. -/
def Below (source : Table Json) (target : String) : String → Prop :=
  Relation.TransGen (Linked source fun _ => True) target

theorem walkable_below (source : Table Json) (target : String) :
    Walkable source (Below source target)
      (fun node => ∀ other ∈ targets node, Below source target other) (fun _ => False) :=
  walkable_of_closed fun _ definition hbelow hget _ hmem =>
    hbelow.tail ⟨definition, hget, trivial, hmem⟩

/-- A definition that was taken over is there, so nothing refers to its old name
any more. What comes in addition stands in the lifted nodes. -/
theorem Accounts.taken {outstanding added : String → Prop} {scope : Scope}
    {root node lifted : Json} {definitions middle : Table Json} {target name : String}
    (h : Accounts outstanding root definitions)
    (hname : scope.freshFor definitions target = name)
    (hlifts : Lifts .body scope (Table.set (definitions.map fun entry =>
      (entry.1, retarget target name entry.2)) name node) node name lifted middle)
    (hlifted : Accounted middle added (targets lifted))
    (hclosed : Closed added (Table.set (definitions.map fun entry =>
      (entry.1, retarget target name entry.2)) name node) middle) :
    Accounts (fun other => (outstanding other ∧ other ≠ target) ∨ added other)
      (retarget target name root) (Table.set middle name lifted) := by
  obtain ⟨hfresh, _⟩ := hname ▸ scope.freshFor_not_mem definitions target
  have hnames : Table.names (Table.set middle name lifted) = Table.names middle :=
    Table.names_set_of_mem (hlifts.extends.names_subset (Table.mem_names_set.mpr (.inl rfl))) _
  have hmiddle {other : String} : other = name ∨ other ∈ Table.names definitions →
      other ∈ Table.names (Table.set middle name lifted) := fun hother => by
    rw [hnames]
    refine hlifts.extends.names_subset (Table.mem_names_set.mpr (hother.imp_right fun hmem => ?_))
    rwa [names_map_retarget]
  have hturned {copy : Json}
      (haccounted : Accounted definitions outstanding (targets copy)) :
      Accounted (Table.set middle name lifted)
        (fun other => (outstanding other ∧ other ≠ target) ∨ added other)
        (targets (retarget target name copy)) := by
    intro other hmem
    rcases mem_targets_retarget copy hmem with heq | ⟨hmem, hne⟩
    · exact .inl (hmiddle (.inl heq))
    · exact (haccounted other hmem).imp (fun h => hmiddle (.inr h)) fun h => .inl ⟨h, hne⟩
  have hadded {targets : List String} (haccounted : Accounted middle added targets) :
      Accounted (Table.set middle name lifted)
        (fun other => (outstanding other ∧ other ≠ target) ∨ added other)
        targets := fun other hmem => by
    rw [hnames]
    exact (haccounted other hmem).imp_right .inr
  refine .of_parts ?_ (hturned h.ofRoot) fun other copy hget => ?_
  · rw [hnames]
    refine hlifts.nodup_names ?_
    rw [Table.names_set_of_not_mem (by rwa [names_map_retarget]), names_map_retarget]
    exact h.nodup.append (List.nodup_singleton _) (by simpa using hfresh)
  · by_cases heq : other = name
    · rw [heq, Table.get?_set_self] at hget
      obtain rfl := Option.some.inj hget
      exact hadded hlifted
    · rw [Table.get?_set_of_ne _ _ heq] at hget
      by_cases hmem : other ∈ Table.names definitions
      · obtain ⟨earlier, hearlier⟩ := Table.exists_get?_of_mem_names hmem
        have hkept := hlifts.extends other (retarget target name earlier) (by
          rw [Table.get?_set_of_ne _ _ heq, get?_map_retarget, hearlier, Option.map_some])
        obtain rfl := Option.some.inj (hkept.symm.trans hget)
        exact hturned (h.ofDefinition hearlier)
      · refine hadded (hclosed other copy (fun hother => ?_) hget)
        rw [Table.mem_names_set, names_map_retarget] at hother
        exact hother.elim heq hmem

theorem Accounts.adoptOne {outstanding : String → Prop} {source : Table Json} {scope : Scope}
    {root root' node : Json} {definitions later : Table Json} {target : String}
    (h : Accounts outstanding root definitions) (hserves : scope.Serves source)
    (hcopying : scope.copying = []) (hsource : Table.get? source target = some node)
    (hself : target ∉ targets node)
    (hadopt : adoptOne scope root definitions target node = .ok (root', later)) :
    Accounts (fun other => (outstanding other ∧ other ≠ target) ∨ Below source target other)
      root' later := by
  obtain ⟨name, lifted, middle, hname, hlifted, rfl, rfl⟩ := adoptOne_eq_ok hadopt
  rw [retarget_eq_self node fun hmem => absurd hmem hself] at hlifted
  have hlifts := lifts_of_liftProperties hlifted
  have hnode : ∀ other ∈ targets node, Below source target other := fun other hmem =>
    .single ⟨node, hsource, trivial, hmem⟩
  obtain ⟨hsettled, hclosed⟩ := hlifts.closed (walkable_below source target)
    ⟨hnode, fun _ => hnode⟩ hserves (by simp [hcopying])
  exact h.taken hname hlifts hsettled.2 hclosed

/-- Where all definitions of the draft refer to each other only, nothing else
gets outstanding. -/
theorem Accounts.adopt {source : Table Json} {scope : Scope} (hserves : scope.Serves source)
    (hpending : scope.pending = source) (hcopying : scope.copying = [])
    (hacyclic : Acyclic source fun _ => True)
    (hresolves : ∀ name definition, Table.get? source name = some definition →
      ∀ target ∈ targets definition, target ∈ Table.names source)
    {fuel : Nat} {root root' : Json} {definitions later : Table Json}
    (h : Accounts (· ∈ Table.names source) root definitions)
    (hadopt : adopt scope fuel root definitions = .ok (root', later)) :
    Accounts (· ∈ Table.names source) root' later := by
  refine (adopt_invariant (fun _ root definitions =>
    Accounts (· ∈ Table.names source) root definitions) ?_ h hadopt).1
  intro _ root definitions target node _ _ h hmissing hone
  rw [hpending] at hmissing
  obtain ⟨_, _, hsource⟩ := missing?_eq_some hmissing
  have hself : target ∉ targets node := fun hmem =>
    hacyclic target (.single ⟨node, hsource, trivial, hmem⟩)
  refine (h.adoptOne hserves hcopying hsource hself hone).mono ?_
  rintro other (⟨hmem, _⟩ | hbelow)
  · exact hmem
  · obtain ⟨name, _, definition, hget, _, htarget⟩ := Relation.TransGen.tail'_iff.mp hbelow
    exact hresolves name definition hget other htarget

end RequestShapes.Schema
