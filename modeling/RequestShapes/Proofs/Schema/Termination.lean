import Mathlib.Algebra.BigOperators.Ring.Finset
import Mathlib.Algebra.Order.BigOperators.Group.Finset
import RequestShapes.Proofs.Schema.Orderly
import RequestShapes.Proofs.Schema.Outstanding

/-!
# Taking definitions over comes to an end

Without cycles every definition has a rank above the definitions that it refers
to. Each outstanding name weighs a power of the number of references, and what
comes in addition with a definition weighs less than the name that goes.
-/

namespace RequestShapes.Schema

variable {source : Table Json}

theorem exists_ends (h : Acyclic source fun _ => True) (name : String) :
    ∃ count, Ends source (fun _ => True) count name :=
  ⟨source.length, ends_of_acyclic h name⟩

open Classical in
/-- How many definitions follow one another behind a name, at most. -/
noncomputable def rank (h : Acyclic source fun _ => True) (name : String) : Nat :=
  Nat.find (exists_ends h name)

theorem rank_le (h : Acyclic source fun _ => True) (name : String) :
    rank h name ≤ source.length := by
  classical
  exact Nat.find_min' (exists_ends h name) (ends_of_acyclic h name)

theorem rank_lt_of_linked (h : Acyclic source fun _ => True) {name other : String}
    (hlinked : Linked source (fun _ => True) name other) : rank h other < rank h name := by
  classical
  obtain ⟨definition, hget, _, htarget⟩ := hlinked
  have hends : Ends source (fun _ => True) (rank h name) name := Nat.find_spec (exists_ends h name)
  cases hrank : rank h name with
  | zero =>
      rw [hrank] at hends
      exact absurd trivial (hends definition hget)
  | succ count =>
      rw [hrank] at hends
      exact Nat.lt_succ_of_le
        (Nat.find_min' (exists_ends h other) (hends definition hget trivial other htarget))

theorem rank_lt_of_below (h : Acyclic source fun _ => True) {name other : String}
    (hbelow : Below source name other) : rank h other < rank h name := by
  induction hbelow with
  | single hlinked => exact rank_lt_of_linked h hlinked
  | tail _ hlinked ih => exact (rank_lt_of_linked h hlinked).trans ih

/-- The weight of outstanding names. -/
noncomputable def weight (h : Acyclic source fun _ => True) (base : Nat) (names : Finset String) :
    Nat :=
  ∑ name ∈ names, base ^ rank h name

/-- The outstanding names after a definition was taken over. -/
noncomputable def takenFrom (source : Table Json) (all names : Finset String) (target : String) :
    Finset String := by
  classical
  exact names.erase target ∪ all.filter fun other => Below source target other

theorem sum_pow_le {base bound : Nat} (hpos : 0 < base) {names : Finset String}
    {height : String → Nat} (hheight : ∀ name ∈ names, height name ≤ bound) :
    ∑ name ∈ names, base ^ height name ≤ names.card * base ^ bound :=
  Finset.sum_le_card_nsmul _ _ _ fun name hname => Nat.pow_le_pow_right hpos (hheight name hname)

/-- What stands behind a name weighs less than the name. -/
theorem weight_below_lt (h : Acyclic source fun _ => True) {base : Nat} {names : Finset String}
    (hbase : names.card < base) {target : String}
    (hbelow : ∀ name ∈ names, Below source target name) :
    weight h base names < base ^ rank h target := by
  have hpos : 0 < base := Nat.zero_lt_of_lt hbase
  have hrank : ∀ name ∈ names, rank h name < rank h target := fun name hname =>
    rank_lt_of_below h (hbelow name hname)
  cases htarget : rank h target with
  | zero =>
      have hempty : names = ∅ := by
        refine Finset.eq_empty_of_forall_notMem fun name hname => ?_
        have := hrank name hname
        omega
      rw [hempty, weight, Finset.sum_empty]
      exact Nat.pow_pos hpos
  | succ bound =>
      have hle := sum_pow_le hpos fun name hname =>
        Nat.le_of_lt_succ (htarget ▸ hrank name hname)
      calc weight h base names ≤ names.card * base ^ bound := hle
        _ < base * base ^ bound := Nat.mul_lt_mul_of_pos_right hbase (Nat.pow_pos hpos)
        _ = base ^ (bound + 1) := by rw [Nat.pow_succ, Nat.mul_comm]

theorem mem_takenFrom {all names : Finset String} {target other : String}
    (hall : ∀ name definition, Table.get? source name = some definition →
      ∀ target ∈ targets definition, target ∈ all)
    (h : (other ∈ names ∧ other ≠ target) ∨ Below source target other) :
    other ∈ takenFrom source all names target := by
  classical
  rw [takenFrom, Finset.mem_union, Finset.mem_erase, Finset.mem_filter]
  rcases h with ⟨hmem, hne⟩ | hbelow
  · exact .inl ⟨hne, hmem⟩
  · obtain ⟨name, _, definition, hget, _, htarget⟩ := Relation.TransGen.tail'_iff.mp hbelow
    exact .inr ⟨hall name definition hget other htarget, hbelow⟩

theorem weight_takenFrom_lt (h : Acyclic source fun _ => True) {base : Nat}
    {all names : Finset String} (hbase : all.card < base) {target : String}
    (htarget : target ∈ names) :
    weight h base (takenFrom source all names target) < weight h base names := by
  classical
  have hbelow := weight_below_lt h (Nat.lt_of_le_of_lt
    (Finset.card_filter_le all fun other => Below source target other) hbase)
    fun name hname => (Finset.mem_filter.mp hname).2
  have hunion := @Finset.sum_union_inter _ _ (names.erase target)
    (all.filter fun other => Below source target other) _ (fun name => base ^ rank h name) _
  have herase : weight h base (names.erase target) + base ^ rank h target = weight h base names :=
    Finset.sum_erase_add _ _ htarget
  simp only [weight, takenFrom] at hbelow herase ⊢
  omega

theorem weight_le (h : Acyclic source fun _ => True) {base : Nat} {names : Finset String}
    (hbase : names.card < base) : weight h base names ≤ base ^ (source.length + 1) :=
  calc weight h base names ≤ names.card * base ^ source.length :=
        sum_pow_le (Nat.zero_lt_of_lt hbase) fun name _ => rank_le h name
    _ ≤ base * base ^ source.length := Nat.mul_le_mul_right _ (Nat.le_of_lt hbase)
    _ = base ^ (source.length + 1) := by rw [Nat.pow_succ, Nat.mul_comm]

/-! ## A count that goes down -/

/-- How many definitions may still have to be taken over at most. Every one that
is taken over brings the number down, and none has references of its own that
would have to follow it. -/
structure Countdown (reserved : List String) (source : Table Json)
    (Left : Nat → Json → Table Json → Prop) : Prop where
  turned : ∀ {count : Nat} {root node : Json} {definitions : Table Json} {target : String},
    Left count root definitions → missing? source root definitions = some (target, node) →
    retarget target ((Scope.initial reserved source).freshFor definitions target) node = node
  next : ∀ {count : Nat} {root node : Json} {definitions : Table Json} {target : String},
    Left count root definitions → missing? source root definitions = some (target, node) →
    ∃ less, count = less + 1 ∧ ∀ {root' : Json} {later : Table Json},
      adoptOne (.initial reserved source) root definitions target node = .ok (root', later) →
      Left less root' later

theorem Countdown.missing?_eq_none {reserved : List String}
    {Left : Nat → Json → Table Json → Prop} (h : Countdown reserved source Left) {root : Json}
    {definitions : Table Json} (hleft : Left 0 root definitions) :
    missing? source root definitions = none := by
  cases hmissing : missing? source root definitions with
  | none => rfl
  | some entry =>
      obtain ⟨less, hcount, _⟩ := h.next hleft hmissing
      omega

/-- Without cycles the weight of what is outstanding goes down. -/
theorem countdown_of_acyclic (h : Acyclic source fun _ => True) (reserved : List String)
    {all : Finset String} {base : Nat} (hbase : all.card < base)
    (hall : ∀ name definition, Table.get? source name = some definition →
      ∀ target ∈ targets definition, target ∈ all) :
    Countdown reserved source fun count root definitions =>
      ∃ names : Finset String, weight h base names ≤ count ∧
        Accounts (· ∈ names) root definitions := by
  have hself {target : String} {node : Json} (hsource : Table.get? source target = some node) :
      target ∉ targets node := fun hmem => h target (.single ⟨node, hsource, trivial, hmem⟩)
  refine ⟨fun _ hmissing => ?_, fun {_ _ _ _ target} hleft hmissing => ?_⟩
  · obtain ⟨_, _, hsource⟩ := missing?_eq_some hmissing
    exact retarget_eq_self _ fun hmem => absurd hmem (hself hsource)
  · obtain ⟨names, hweight, haccounts⟩ := hleft
    obtain ⟨_, _, hsource⟩ := missing?_eq_some hmissing
    have hlt := weight_takenFrom_lt h hbase (haccounts.of_missing? hmissing)
    obtain ⟨less, hless⟩ := Nat.exists_eq_add_one_of_ne_zero (Nat.ne_zero_of_lt
      (Nat.lt_of_lt_of_le hlt hweight))
    refine ⟨less, hless, fun hone => ⟨takenFrom source all names target, ?_, ?_⟩⟩
    · omega
    · exact (haccounts.adoptOne (.initial reserved source) rfl hsource (hself hsource) hone).mono
        fun other hother => mem_takenFrom hall hother

/-- A draft for which the definitions to take over are counted down from the
bound on their number. -/
def Bounded (draft : Json) (rootName : String) (reserved : List String) : Prop :=
  ∃ Left, Countdown (rootName :: reserved) (definitionsOf draft) Left ∧
    ∀ {root : Json} {definitions : Table Json},
      liftRoot (.initial (rootName :: reserved) (definitionsOf draft)) (rootOf draft) rootName =
        .ok (root, definitions) →
      Left (adoptionBound draft) root definitions

/-- What the lifted root and the new definitions refer to is there, or the draft
refers to it. -/
theorem accounts_of_liftRoot {draft root : Json} {definitions : Table Json} {rootName : String}
    {reserved : List String}
    (h : liftRoot (.initial (rootName :: reserved) (definitionsOf draft)) (rootOf draft) rootName =
      .ok (root, definitions)) :
    Accounts (· ∈ (targets draft).toFinset) root definitions := by
  have hwalk := @walkable_of_closed (definitionsOf draft) (· ∈ (targets draft).toFinset)
    fun name definition _ hget target hmem =>
      List.mem_toFinset.mpr (targets_definition_subset hget hmem)
  obtain ⟨haccounted, hclosed⟩ := liftRoot_closed hwalk (.initial _ _) rfl h fun target hmem =>
    List.mem_toFinset.mpr (targets_rootOf_subset draft hmem)
  exact .of_parts (nodup_names_of_liftRoot h) haccounted fun name copy hget =>
    hclosed name copy (by simp [Table.names]) hget

theorem bounded_of_acyclic {draft : Json} (h : Acyclic (definitionsOf draft) fun _ => True)
    (rootName : String) (reserved : List String) : Bounded draft rootName reserved := by
  have hcard : (targets draft).toFinset.card < (targets draft).length + 1 :=
    Nat.lt_succ_of_le (List.toFinset_card_le _)
  refine ⟨_, countdown_of_acyclic h (rootName :: reserved) hcard fun name definition hget target
    hmem => List.mem_toFinset.mpr (targets_definition_subset hget hmem), fun hroot => ?_⟩
  exact ⟨_, (weight_le h hcard).trans (pow_le_adoptionBound draft), accounts_of_liftRoot hroot⟩

/-! ## Success -/

theorem adoptOne_ok {scope : Scope} (hready : scope.Ready source) {node : Json} {target : String}
    (hsource : Table.get? source target = some node) (root : Json) {definitions : Table Json}
    (hturned : retarget target (scope.freshFor definitions target) node = node)
    (hends : Affords source scope.hops (targets node)) :
    ∃ result, adoptOne scope root definitions target node = .ok result := by
  obtain ⟨hobject, hnode⟩ := hready.definition target node hsource
  obtain ⟨⟨lifted, later⟩, hlifted⟩ := liftProperties_ok hready
    (Table.set (definitions.map fun entry =>
      (entry.1, retarget target (scope.freshFor definitions target) entry.2))
      (scope.freshFor definitions target) node) (scope.freshFor definitions target) hnode hends
  simp only [adoptOne, hobject, hturned, if_true, hlifted, bind, Except.bind]
  exact ⟨_, rfl⟩

/-- Where the count is within the fuel everything that is referred to is taken
over. -/
theorem Countdown.adopt_ok {reserved : List String} {Left : Nat → Json → Table Json → Prop}
    (h : Countdown reserved source Left) (hready : (Scope.initial reserved source).Ready source)
    {count fuel : Nat} {root : Json} {definitions : Table Json}
    (hleft : Left count root definitions) (hfuel : count ≤ fuel) :
    ∃ result, adopt (.initial reserved source) fuel root definitions = .ok result := by
  induction fuel generalizing count root definitions with
  | zero =>
      obtain rfl : count = 0 := Nat.le_zero.mp hfuel
      exact ⟨_, adopt_of_missing?_eq_none (h.missing?_eq_none hleft) 0⟩
  | succ fuel ih =>
      cases hmissing : missing? source root definitions with
      | none => exact ⟨_, adopt_of_missing?_eq_none hmissing (fuel + 1)⟩
      | some entry =>
          obtain ⟨target, node⟩ := entry
          obtain ⟨_, _, hsource⟩ := missing?_eq_some hmissing
          obtain ⟨less, hless, hnext⟩ := h.next hleft hmissing
          obtain ⟨⟨root', later⟩, hone⟩ := adoptOne_ok hready hsource root
            (h.turned hleft hmissing) fun other _ => hready.limit other
          obtain ⟨result, hresult⟩ := ih (hnext hone) (by omega)
          rw [adopt_of_missing?_eq_some hmissing, hone]
          exact ⟨result, hresult⟩

/-- An orderly draft is lifted if its array definitions do not go round and the
definitions to take over are bounded. -/
theorem lift_ok_of_bounded {draft : Json} (hobject : draft.isObject = true)
    (hroot : Orderly (rootOf draft)) (hdefinitions : OrderlyTable (definitionsOf draft))
    (harrays : Acyclic (definitionsOf draft) fun node => isArray node = true) {rootName : String}
    {reserved : List String} (hbounded : Bounded draft rootName reserved) :
    ∃ result, lift draft rootName reserved = .ok result := by
  have hready := Scope.Ready.initial hdefinitions harrays (rootName :: reserved)
  obtain ⟨⟨root, definitions⟩, hlift⟩ := liftRoot_ok hdefinitions harrays hroot rootName
    (rootName :: reserved)
  obtain ⟨Left, hcountdown, hstart⟩ := hbounded
  obtain ⟨⟨root', later⟩, hadopt⟩ :=
    hcountdown.adopt_ok hready (hstart hlift) (Nat.le_refl _)
  rw [rootOf] at hlift
  simp only [lift, hobject, hlift, hadopt, if_true, bind, Except.bind]
  exact ⟨_, rfl⟩

/-- An orderly draft without cycles is lifted. -/
theorem lift_ok {draft : Json} (hobject : draft.isObject = true) (hroot : Orderly (rootOf draft))
    (hdefinitions : OrderlyTable (definitionsOf draft))
    (hacyclic : Acyclic (definitionsOf draft) fun _ => True) (rootName : String)
    (reserved : List String) : ∃ result, lift draft rootName reserved = .ok result :=
  lift_ok_of_bounded hobject hroot hdefinitions hacyclic.mono
    (bounded_of_acyclic hacyclic rootName reserved)

end RequestShapes.Schema
