/-!
# Ordered tables

A table holds values under names and remembers the order in which the names
were first written. Writing under a present name replaces the value and keeps
the place, so reading an object with a repeated key keeps the first position
and the last value.
-/

namespace RequestShapes

/-- A table lists its entries in the order in which their names were first
written. -/
abbrev Table (α : Type) := List (String × α)

namespace Table

variable {α β : Type}

/-- The value written under a name, if there is one. -/
def get? : Table α → String → Option α
  | [], _ => none
  | (key, value) :: rest, name => if key = name then some value else get? rest name

/-- Whether some value is written under a name. -/
def has (table : Table α) (name : String) : Bool :=
  (get? table name).isSome

/-- Writing under a present name replaces the value in place; a new name goes
to the end. -/
def set : Table α → String → α → Table α
  | [], name, value => [(name, value)]
  | (key, old) :: rest, name, value =>
      if key = name then (key, value) :: rest else (key, old) :: set rest name value

/-- The table without the entries of a name. -/
def erase (table : Table α) (name : String) : Table α :=
  table.filter fun entry => entry.1 ≠ name

/-- The names of a table in order. -/
def names (table : Table α) : List String :=
  table.map Prod.fst

/-- Write every entry of the second table into the first, in order. -/
def update (table entries : Table α) : Table α :=
  entries.foldl (fun written entry => set written entry.1 entry.2) table

/-- The table with the values that another one has under its names. Names of
the other table alone are left out. -/
def overlay (table others : Table α) : Table α :=
  table.map fun (name, value) => (name, (get? others name).getD value)

/-- The table obtained by writing the given entries one after the other. -/
def ofEntries (entries : List (String × α)) : Table α :=
  update [] entries

@[simp] theorem get?_nil (name : String) : get? ([] : Table α) name = none := rfl

/-- What was just written is what a name holds. -/
@[simp] theorem get?_set_self (table : Table α) (name : String) (value : α) :
    get? (set table name value) name = some value := by
  induction table with
  | nil => simp [set, get?]
  | cons entry rest ih =>
      obtain ⟨key, old⟩ := entry
      by_cases hkey : key = name <;> simp [set, get?, hkey, ih]

/-- Writing under one name leaves every other name alone. -/
theorem get?_set_of_ne (table : Table α) {name other : String} (value : α)
    (hne : other ≠ name) : get? (set table name value) other = get? table other := by
  induction table with
  | nil => simp [set, get?, Ne.symm hne]
  | cons entry rest ih =>
      obtain ⟨key, old⟩ := entry
      by_cases hkey : key = name
      · subst hkey
        simp [set, get?, Ne.symm hne]
      · simp only [set, hkey, if_false, get?, ih]

/-- Writing adds at most one name, and adds it last. -/
theorem names_set (table : Table α) (name : String) (value : α) :
    names (set table name value) =
      if has table name then names table else names table ++ [name] := by
  induction table with
  | nil => simp [set, names, has]
  | cons entry rest ih =>
      obtain ⟨key, old⟩ := entry
      by_cases hkey : key = name
      · simp [set, names, has, get?, hkey]
      · simp only [names, has] at ih
        by_cases hrest : (get? rest name).isSome <;>
          simp [set, names, has, get?, hkey, hrest, ih]

/-- An overlay changes values only. -/
theorem names_overlay (table others : Table α) : names (overlay table others) = names table := by
  simp [names, overlay]

/-- A name can be looked up exactly when it is one of the names. -/
theorem has_iff_mem_names (table : Table α) (name : String) :
    has table name = true ↔ name ∈ names table := by
  induction table with
  | nil => simp [has, names]
  | cons entry rest ih =>
      obtain ⟨key, old⟩ := entry
      by_cases hkey : key = name
      · simp [has, names, get?, hkey]
      · simp only [has, names] at ih ⊢
        simp [get?, hkey, Ne.symm hkey, ih]

/-- Erasing a present name makes a table shorter. -/
theorem length_erase_lt {table : Table α} {name : String} (h : name ∈ names table) :
    (erase table name).length < table.length := by
  obtain ⟨entry, hmem, hname⟩ := List.mem_map.mp h
  exact List.length_filter_lt_length_iff_exists.mpr ⟨entry, hmem, by simp [hname]⟩

theorem get?_set (table : Table α) (name other : String) (value : α) :
    get? (set table name value) other = if other = name then some value else get? table other := by
  by_cases h : other = name
  · rw [if_pos h, h, get?_set_self]
  · rw [if_neg h, get?_set_of_ne table value h]

theorem get?_eq_none_iff {table : Table α} {name : String} :
    get? table name = none ↔ name ∉ names table := by
  rw [← has_iff_mem_names, has]
  cases get? table name <;> simp

theorem mem_names_of_get? {table : Table α} {name : String} {value : α}
    (h : get? table name = some value) : name ∈ names table := by
  rw [← has_iff_mem_names, has, h, Option.isSome_some]

theorem exists_get?_of_mem_names {table : Table α} {name : String} (h : name ∈ names table) :
    ∃ value, get? table name = some value :=
  Option.isSome_iff_exists.mp ((has_iff_mem_names table name).mpr h)

theorem mem_of_get? {table : Table α} {name : String} {value : α}
    (h : get? table name = some value) : (name, value) ∈ table := by
  induction table with
  | nil => simp at h
  | cons entry rest ih =>
      obtain ⟨key, old⟩ := entry
      by_cases hkey : key = name
      · simp only [get?, hkey, if_true, Option.some.injEq] at h
        simp [hkey, h]
      · simp only [get?, hkey, if_false] at h
        exact List.mem_cons_of_mem _ (ih h)

theorem get?_of_mem {table : Table α} {name : String} {value : α} (hnodup : (names table).Nodup)
    (h : (name, value) ∈ table) : get? table name = some value := by
  induction table with
  | nil => cases h
  | cons entry rest ih =>
      obtain ⟨key, old⟩ := entry
      obtain ⟨hkey, hrest⟩ := List.nodup_cons.mp hnodup
      rcases List.mem_cons.mp h with heq | hmem
      · cases heq
        exact if_pos rfl
      · have hne : key ≠ name := fun heq => hkey (List.mem_map.mpr ⟨_, hmem, heq.symm⟩)
        rw [get?, if_neg hne, ih hrest hmem]

/-- An erased name cannot be looked up; every other name holds what it held. -/
theorem get?_erase (table : Table α) (name other : String) :
    get? (erase table name) other = if other = name then none else get? table other := by
  induction table with
  | nil => simp [erase, get?]
  | cons entry rest ih =>
      obtain ⟨key, old⟩ := entry
      simp only [erase, List.filter_cons, decide_eq_true_eq] at ih ⊢
      by_cases hkey : key = name
      · by_cases hother : other = name <;> simp_all [get?, eq_comm]
      · by_cases hother : key = other <;> simp_all [get?]

theorem get?_mapValues (table : Table α) (f : String → α → β) (name : String) :
    get? (table.map fun entry => (entry.1, f entry.1 entry.2)) name =
      (get? table name).map (f name) := by
  induction table with
  | nil => rfl
  | cons entry rest ih =>
      obtain ⟨key, old⟩ := entry
      by_cases hkey : key = name
      · simp [get?, hkey]
      · simp only [List.map_cons, get?, hkey, if_false, ih]

/-- A second value under the same name replaces the first. -/
@[simp] theorem set_set (table : Table α) (name : String) (old value : α) :
    set (set table name old) name value = set table name value := by
  induction table with
  | nil => simp [set]
  | cons entry rest ih =>
      obtain ⟨key, present⟩ := entry
      by_cases hkey : key = name
      · simp [set, hkey]
      · simp [set, hkey, ih]

/-- Writing what a name holds already changes nothing. -/
theorem set_eq_self {table : Table α} {name : String} {value : α}
    (h : get? table name = some value) : set table name value = table := by
  induction table with
  | nil => simp at h
  | cons entry rest ih =>
      obtain ⟨key, present⟩ := entry
      by_cases hkey : key = name
      · simp only [get?, hkey, if_true, Option.some.injEq] at h
        simp [set, hkey, h]
      · simp only [get?, hkey, if_false] at h
        simp [set, hkey, ih h]

theorem names_set_of_not_mem {table : Table α} {name : String} (h : name ∉ names table)
    (value : α) : names (set table name value) = names table ++ [name] := by
  rw [names_set, if_neg (fun hhas => h ((has_iff_mem_names table name).mp hhas))]

theorem names_set_of_mem {table : Table α} {name : String} (h : name ∈ names table)
    (value : α) : names (set table name value) = names table := by
  rw [names_set, if_pos ((has_iff_mem_names table name).mpr h)]

theorem mem_names_set {table : Table α} {name other : String} {value : α} :
    other ∈ names (set table name value) ↔ other = name ∨ other ∈ names table := by
  by_cases h : name ∈ names table
  · rw [names_set_of_mem h]
    exact ⟨Or.inr, fun hor => hor.elim (fun heq => heq ▸ h) id⟩
  · rw [names_set_of_not_mem h, List.mem_append, List.mem_singleton, or_comm]

theorem nodup_names_set {table : Table α} {name : String} {value : α}
    (h : (names table).Nodup) : (names (set table name value)).Nodup := by
  by_cases hmem : name ∈ names table
  · rwa [names_set_of_mem hmem]
  · rw [names_set_of_not_mem hmem, List.nodup_append]
    refine ⟨h, by simp, fun other hother found hfound => ?_⟩
    obtain rfl := List.mem_singleton.mp hfound
    exact fun heq => hmem (heq ▸ hother)

theorem erase_set_of_not_mem {table : Table α} {name : String} (h : name ∉ names table)
    (value : α) : erase (set table name value) name = table := by
  induction table with
  | nil => simp [set, erase]
  | cons entry rest ih =>
      obtain ⟨key, old⟩ := entry
      obtain ⟨hkey, hrest⟩ : name ≠ key ∧ name ∉ names rest := by
        simpa [names, not_or] using h
      rw [set, if_neg (Ne.symm hkey), erase, List.filter_cons, if_pos (by simp [Ne.symm hkey])]
      exact congrArg _ (ih hrest)

/-- Erasing an absent name changes nothing. -/
theorem erase_of_not_mem {table : Table α} {name : String} (h : name ∉ names table) :
    erase table name = table := by
  refine List.filter_eq_self.mpr fun entry hmem => decide_eq_true ?_
  exact fun heq => h (List.mem_map.mpr ⟨entry, hmem, heq⟩)

theorem mem_set {table : Table α} {name : String} {value : α} {entry : String × α}
    (h : entry ∈ set table name value) : entry = (name, value) ∨ entry ∈ table := by
  induction table with
  | nil => exact .inl (List.mem_singleton.mp h)
  | cons first rest ih =>
      obtain ⟨key, old⟩ := first
      by_cases heq : key = name
      · simp only [set, heq, if_true, List.mem_cons] at h
        exact h.imp id (List.mem_cons_of_mem _)
      · simp only [set, heq, if_false, List.mem_cons] at h
        rcases h with rfl | hmem
        · exact .inr List.mem_cons_self
        · exact (ih hmem).imp id (List.mem_cons_of_mem _)

theorem mem_set_of_mem {table : Table α} {name : String} {value : α} {entry : String × α}
    (h : entry ∈ table) (hne : entry.1 ≠ name) : entry ∈ set table name value := by
  induction table with
  | nil => cases h
  | cons first rest ih =>
      obtain ⟨key, old⟩ := first
      by_cases heq : key = name
      · simp only [set, heq, if_true, List.mem_cons] at h ⊢
        exact h.imp (fun hfirst => absurd (congrArg Prod.fst hfirst) hne) id
      · simp only [set, heq, if_false, List.mem_cons] at h ⊢
        exact h.imp id ih

theorem mem_set_of_nodup {table : Table α} {name : String} {value : α} {entry : String × α}
    (hnodup : (names table).Nodup) (h : entry ∈ set table name value) :
    entry = (name, value) ∨ (entry ∈ table ∧ entry.1 ≠ name) := by
  induction table with
  | nil => exact .inl (List.mem_singleton.mp h)
  | cons first rest ih =>
      obtain ⟨key, old⟩ := first
      obtain ⟨hkey, hrest⟩ := List.nodup_cons.mp hnodup
      by_cases heq : key = name
      · simp only [set, heq, if_true, List.mem_cons] at h
        refine h.imp id fun hmem => ⟨List.mem_cons_of_mem _ hmem, fun hname => hkey ?_⟩
        exact List.mem_map.mpr ⟨entry, hmem, hname.trans heq.symm⟩
      · simp only [set, heq, if_false, List.mem_cons] at h
        rcases h with rfl | hmem
        · exact .inr ⟨List.mem_cons_self, heq⟩
        · exact (ih hrest hmem).imp id fun hother => ⟨List.mem_cons_of_mem _ hother.1, hother.2⟩

end Table

end RequestShapes
