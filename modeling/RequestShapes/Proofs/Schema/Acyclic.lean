import Mathlib.Data.List.Nodup
import Mathlib.Data.List.Perm.Subperm
import Mathlib.Logic.Relation
import RequestShapes.Proofs.Schema.Retarget

/-!
# References that do not go round

Where references through definitions of one kind do not go round, a chain of
them is not longer than the table of definitions.
-/

namespace RequestShapes.Schema

/-- A definition of one kind refers to another one. -/
def Linked (source : Table Json) (Kind : Json → Prop) (name other : String) : Prop :=
  ∃ definition, Table.get? source name = some definition ∧ Kind definition ∧
    other ∈ targets definition

/-- No cycle of references runs through definitions of one kind only. -/
def Acyclic (source : Table Json) (Kind : Json → Prop) : Prop :=
  ∀ name, ¬ Relation.TransGen (Linked source Kind) name name

/-- At most so many definitions of one kind follow one another, beginning with
the given one. -/
def Ends (source : Table Json) (Kind : Json → Prop) : Nat → String → Prop
  | 0, name => ∀ definition, Table.get? source name = some definition → ¬ Kind definition
  | count + 1, name => ∀ definition, Table.get? source name = some definition →
      Kind definition → ∀ target ∈ targets definition, Ends source Kind count target

variable {source : Table Json} {Kind : Json → Prop}

/-- What does not go round does not go round through fewer definitions. -/
theorem Acyclic.mono (h : Acyclic source fun _ => True) : Acyclic source Kind := by
  have hle : Linked source Kind ≤ Linked source fun _ => True :=
    fun _ _ ⟨definition, hget, _, htarget⟩ => ⟨definition, hget, trivial, htarget⟩
  exact fun name hcycle => h name (Relation.TransGen.mono hle name name hcycle)

/-- A chain that does not end is as long as one likes. -/
theorem exists_chain_of_not_ends {count : Nat} {name : String}
    (h : ¬ Ends source Kind count name) :
    ∃ chain : List String, chain.length = count + 1 ∧ chain ⊆ Table.names source ∧
      chain.Pairwise (Relation.TransGen (Linked source Kind)) ∧
      ∀ other ∈ chain, other = name ∨ Relation.TransGen (Linked source Kind) name other := by
  induction count generalizing name with
  | zero =>
      simp only [Ends, not_forall] at h
      obtain ⟨definition, hget, hkind⟩ := h
      refine ⟨[name], rfl, ?_, List.pairwise_singleton _ _, fun other hmem => ?_⟩
      · simpa using Table.mem_names_of_get? hget
      · exact .inl (List.mem_singleton.mp hmem)
  | succ count ih =>
      simp only [Ends, not_forall] at h
      obtain ⟨definition, hget, hkind, target, htarget, hnot⟩ := h
      obtain ⟨chain, hlength, hsubset, hpairwise, hbehind⟩ := ih hnot
      have hlinked : Linked source Kind name target := ⟨definition, hget, hkind, htarget⟩
      have hrest : ∀ other ∈ chain, Relation.TransGen (Linked source Kind) name other := by
        intro other hmem
        rcases hbehind other hmem with rfl | hother
        · exact .single hlinked
        · exact .head hlinked hother
      refine ⟨name :: chain, by rw [List.length_cons, hlength], ?_, ?_, ?_⟩
      · exact List.cons_subset.mpr ⟨Table.mem_names_of_get? hget, hsubset⟩
      · exact List.pairwise_cons.mpr ⟨hrest, hpairwise⟩
      · intro other hmem
        exact (List.mem_cons.mp hmem).imp id (hrest other)

/-- Without cycles no chain is longer than the table. -/
theorem ends_of_acyclic (h : Acyclic source Kind) (name : String) :
    Ends source Kind source.length name := by
  by_contra hnot
  obtain ⟨chain, hlength, hsubset, hpairwise, _⟩ := exists_chain_of_not_ends hnot
  have hnodup : chain.Nodup := by
    refine hpairwise.imp fun hlinked heq => ?_
    subst heq
    exact h _ hlinked
  have hle := (List.subperm_of_subset hnodup hsubset).length_le
  rw [hlength, Table.names, List.length_map] at hle
  omega

end RequestShapes.Schema
