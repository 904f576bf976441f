import RequestShapes.Files.Tree

/-!
# Writing files one after the other

Where a path leads depends on the directories alone. Writing a file touches none
of them, so files written in turn stand where their paths led at the start, and
of several files at one place the last one stays.
-/

namespace RequestShapes.Files.Tree

variable {first second third tree : Tree}

/-! ## Directories decide where paths lead -/

/-- Two trees have the same current directory and the same directories. -/
structure SameDirectories (first second : Tree) : Prop where
  here : first.here = second.here
  directory (place : Location) :
    first.get? place = some .directory ↔ second.get? place = some .directory

theorem SameDirectories.refl (tree : Tree) : SameDirectories tree tree :=
  ⟨rfl, fun _ => Iff.rfl⟩

theorem SameDirectories.symm (h : SameDirectories first second) : SameDirectories second first :=
  ⟨h.here.symm, fun place => (h.directory place).symm⟩

theorem SameDirectories.trans (h : SameDirectories first second)
    (h' : SameDirectories second third) : SameDirectories first third :=
  ⟨h.here.trans h'.here, fun place => (h.directory place).trans (h'.directory place)⟩

/-- Every step of a path but the last stands at a directory. -/
theorem walk_cons_eq_ok {place result : Location} {part : String} {parts : List String} :
    tree.walk place (part :: parts) = .ok result ↔
      tree.get? place = some .directory ∧ Path.isTooLong part = false ∧
        tree.walk (if part = ".." then place.dropLast else place ++ [part]) parts = .ok result := by
  rw [walk]
  cases hget : tree.get? place with
  | none => simp
  | some entry =>
      cases entry with
      | file => simp
      | directory => cases Path.isTooLong part <;> simp

theorem SameDirectories.walk (h : SameDirectories first second) {place result : Location}
    {parts : List String} (hwalk : first.walk place parts = .ok result) :
    second.walk place parts = .ok result := by
  induction parts generalizing place with
  | nil => exact hwalk
  | cons part parts ih =>
      obtain ⟨hdirectory, hshort, hrest⟩ := walk_cons_eq_ok.mp hwalk
      exact walk_cons_eq_ok.mpr ⟨(h.directory place).mp hdirectory, hshort, ih hrest⟩

theorem SameDirectories.locate (h : SameDirectories first second) {path : Path} {place : Location}
    (hlocate : first.locate path = .ok place) : second.locate path = .ok place := by
  rw [Tree.locate] at hlocate ⊢
  split at hlocate
  next hnameable =>
    rw [if_pos hnameable, origin, ← h.here]
    exact h.walk hlocate
  next => cases hlocate

theorem walk_append (place : Location) (parts others : List String) :
    tree.walk place (parts ++ others) =
      tree.walk place parts >>= fun next => tree.walk next others := by
  induction parts generalizing place with
  | nil => rfl
  | cons part parts ih =>
      rw [List.cons_append, walk, walk]
      cases tree.get? place with
      | none => rfl
      | some entry =>
          cases entry with
          | file => rfl
          | directory =>
              dsimp only
              split
              · rfl
              · exact ih _

/-! ## One file -/

/-- A file can be written where no directory stands. -/
theorem write_eq_ok {path : Path} {bytes : ByteArray} {later : Tree} :
    tree.write path bytes = .ok later ↔ ∃ place, tree.locate path = .ok place ∧
      tree.get? place ≠ some .directory ∧ tree.insert place (.file bytes) = later := by
  rw [write]
  cases tree.locate path with
  | error fault => simp [bind, Except.bind]
  | ok place =>
      by_cases hdirectory : tree.get? place = some .directory <;>
        simp [bind, Except.bind, hdirectory]

theorem ne_nil_of_get?_ne {place : Location} (h : tree.get? place ≠ some .directory) :
    place ≠ [] := by
  rintro rfl
  exact h (by simp [get?])

theorem sameDirectories_insert {place : Location} (h : tree.get? place ≠ some .directory)
    (bytes : ByteArray) : SameDirectories tree (tree.insert place (.file bytes)) := by
  refine ⟨rfl, fun other => ?_⟩
  by_cases heq : other = place
  · subst heq
    simp [get?_insert_self tree (.file bytes) (ne_nil_of_get?_ne h), h]
  · rw [get?_insert_of_ne tree _ heq]

/-! ## Several files -/

/-- The tree with files put at places, one after the other. -/
def putAll (tree : Tree) (files : List (Location × ByteArray)) : Tree :=
  files.foldl (fun tree (place, bytes) => tree.insert place (.file bytes)) tree

/-- Where no file is put, everything stays. -/
theorem get?_putAll_of_not_mem {files : List (Location × ByteArray)} {place : Location}
    (h : place ∉ files.map Prod.fst) : (tree.putAll files).get? place = tree.get? place := by
  induction files generalizing tree with
  | nil => rfl
  | cons file files ih =>
      obtain ⟨hne, hrest⟩ := List.ne_and_not_mem_of_not_mem_cons h
      exact (ih hrest).trans (get?_insert_of_ne tree _ hne)

/-- Of the files put at one place, the last one stays. -/
theorem get?_putAll_append {before after : List (Location × ByteArray)} {place : Location}
    {bytes : ByteArray} (hplace : place ≠ []) (h : place ∉ after.map Prod.fst) :
    (tree.putAll (before ++ (place, bytes) :: after)).get? place = some (.file bytes) := by
  rw [putAll, List.foldl_append, List.foldl_cons]
  exact (get?_putAll_of_not_mem h).trans (get?_insert_self _ _ hplace)

/-- Files put where no directory stands change no directory. -/
theorem sameDirectories_putAll {files : List (Location × ByteArray)}
    (h : ∀ file ∈ files, tree.get? file.1 ≠ some .directory) :
    SameDirectories tree (tree.putAll files) := by
  induction files generalizing tree with
  | nil => exact .refl tree
  | cons file files ih =>
      obtain ⟨hfile, hrest⟩ := List.forall_mem_cons.mp h
      have hsame := sameDirectories_insert hfile file.2
      refine hsame.trans (ih fun other hmem => ?_)
      rw [ne_eq, ← hsame.directory]
      exact hrest other hmem

end RequestShapes.Files.Tree
