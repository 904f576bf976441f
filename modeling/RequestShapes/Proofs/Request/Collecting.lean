import Mathlib.Data.List.Nodup
import Mathlib.Data.List.Sort
import Mathlib.Data.String.Basic
import RequestShapes.Request.Collection

/-!
# Which documents a collection has

The documents of a collection are the files below it that have the extension of
requests. All of them are found, nothing else is, and they come in the order of
their paths.
-/

namespace RequestShapes

namespace Files.Tree

variable {tree : Tree}

theorem mem_entries_iff {place : Location} {entry : Entry} (hplace : place ≠ []) :
    (place, entry) ∈ tree.entries ↔ tree.get? place = some entry := by
  rw [get?, if_neg hplace]
  constructor
  · intro hmem
    cases hfound : tree.entries.find? fun other => other.1 = place with
    | none => simpa using List.find?_eq_none.mp hfound _ hmem
    | some other =>
        obtain ⟨found, present⟩ := other
        have hsame : found = place := by simpa using List.find?_some hfound
        subst hsame
        have heq := List.inj_on_of_nodup_map tree.distinct hmem (List.mem_of_find?_eq_some hfound) rfl
        rw [Option.map_some, ← heq]
  · intro hget
    obtain ⟨⟨found, present⟩, hfound, rfl⟩ := Option.map_eq_some_iff.mp hget
    have hsame : found = place := by simpa using List.find?_some hfound
    exact hsame ▸ List.mem_of_find?_eq_some hfound

theorem isBelow_iff {place other : Location} :
    isBelow place other = true ↔ ∃ rest, rest ≠ [] ∧ other = place ++ rest := by
  rw [isBelow, Bool.and_eq_true, List.isPrefixOf_iff_prefix, decide_eq_true_eq]
  constructor
  · rintro ⟨⟨rest, rfl⟩, hlength⟩
    refine ⟨rest, ?_, rfl⟩
    rintro rfl
    simp at hlength
  · rintro ⟨rest, hrest, rfl⟩
    refine ⟨List.prefix_append _ _, ?_⟩
    rw [List.length_append]
    exact Nat.lt_add_of_pos_right (List.length_pos_iff.mpr hrest)

end Files.Tree

namespace Request

open Files (Location Path Tree)

variable {tree : Tree} {collection : Path}

/-- A path leads to a document of a collection: to a file below a directory,
whose name has the extension of requests. -/
def IsDocument (tree : Tree) (collection path : Path) : Prop :=
  ∃ directory rest bytes, tree.locate collection = .ok directory ∧
    tree.get? directory = some .directory ∧ rest ≠ [] ∧
    tree.get? (directory ++ rest) = some (.file bytes) ∧
    path = ⟨collection.root, collection.parts ++ rest⟩ ∧ hasExtension path = true

theorem mem_below_iff {directory : Location} (hlocate : tree.locate collection = .ok directory)
    {path : Path} {entry : Files.Entry} :
    (path, entry) ∈ tree.below collection ↔ ∃ rest, rest ≠ [] ∧
      tree.get? (directory ++ rest) = some entry ∧
      path = ⟨collection.root, collection.parts ++ rest⟩ := by
  simp only [Tree.below, hlocate, List.mem_map, List.mem_filter, Prod.exists, Prod.mk.injEq]
  constructor
  · rintro ⟨place, found, ⟨hmem, hbelow⟩, rfl, rfl⟩
    obtain ⟨rest, hrest, rfl⟩ := Tree.isBelow_iff.mp hbelow
    refine ⟨rest, hrest, (Tree.mem_entries_iff (by simp [hrest])).mp hmem, ?_⟩
    rw [List.drop_left]
  · rintro ⟨rest, hrest, hget, rfl⟩
    refine ⟨directory ++ rest, entry, ⟨?_, ?_⟩, ?_, rfl⟩
    · exact (Tree.mem_entries_iff (by simp [hrest])).mpr hget
    · exact Tree.isBelow_iff.mpr ⟨rest, hrest, rfl⟩
    · rw [List.drop_left]

theorem components_injective {root : String} {parts others : List String}
    (h : Path.components ⟨root, parts⟩ = Path.components ⟨root, others⟩) : parts = others := by
  simp only [Path.components] at h
  split at h
  · exact h
  · exact (List.cons_inj_right _).mp h

/-- Different places below a directory have different paths. -/
theorem nodup_below (tree : Tree) (collection : Path) :
    ((tree.below collection).map fun entry => entry.1.components).Nodup := by
  rw [Tree.below]
  split
  next => exact List.nodup_nil
  next directory hlocate =>
    have hplaces : ((tree.entries.filter fun entry => Tree.isBelow directory entry.1).map
        Prod.fst).Nodup := (List.filter_sublist.map Prod.fst).nodup tree.distinct
    rw [List.map_map]
    refine List.Nodup.map_on ?_ (List.Nodup.of_map Prod.fst hplaces)
    rintro ⟨first, entry⟩ hfirst ⟨second, other⟩ hsecond heq
    obtain ⟨rest, _, rfl⟩ := Tree.isBelow_iff.mp (List.mem_filter.mp hfirst).2
    obtain ⟨rest', _, rfl⟩ := Tree.isBelow_iff.mp (List.mem_filter.mp hsecond).2
    have hrest := List.append_cancel_left (components_injective heq)
    rw [List.drop_left, List.drop_left] at hrest
    subst hrest
    exact List.inj_on_of_nodup_map hplaces hfirst hsecond rfl

theorem at?_eq_directory_iff {path : Path} :
    tree.at? path = .ok (some .directory) ↔
      ∃ directory, tree.locate path = .ok directory ∧ tree.get? directory = some .directory := by
  rw [Tree.at?]
  cases tree.locate path with
  | ok place => simp
  | error fault => cases fault <;> simp

/-- Paths in the order of their components. -/
def inOrder (paths : List Path) : List Path :=
  paths.mergeSort fun first second => !second.components.lex first.components

theorem pairwise_inOrder {paths : List Path} (h : (paths.map Path.components).Nodup) :
    (inOrder paths).Pairwise fun first second =>
      first.components.lex second.components = true := by
  have hlt (first second : List String) : first.lex second = true ↔ first < second :=
    List.lex_eq_true_iff_lt
  have hle (first second : List String) : (!second.lex first) = true ↔ first ≤ second := by
    rw [Bool.not_eq_true', Bool.eq_false_iff, ne_eq, hlt, not_lt]
  have hordered : (inOrder paths).Pairwise fun first second =>
      (!second.components.lex first.components) = true := by
    refine List.pairwise_mergeSort (fun first second third => ?_) (fun first second => ?_) paths
    · simp only [hle]
      exact le_trans
    · simp only [Bool.or_eq_true, hle]
      exact le_total _ _
  have hnodup : ((inOrder paths).map Path.components).Nodup :=
    ((List.mergeSort_perm paths _).map Path.components).nodup_iff.mpr h
  refine (hordered.and (List.pairwise_map.mp hnodup)).imp fun ⟨hfirst, hne⟩ => ?_
  exact (hlt _ _).mpr (lt_of_le_of_ne ((hle _ _).mp hfirst) hne)

/-- A collection that can be searched has all its documents, each once, in the
order of their paths. -/
theorem documentPaths_ok {paths : List Path} (h : documentPaths tree collection = .ok paths) :
    (∀ path, path ∈ paths ↔ IsDocument tree collection path) ∧
      paths.Pairwise fun first second => first.components.lex second.components = true := by
  by_cases hdirectory : tree.at? collection = .ok (some .directory)
  · obtain ⟨directory, hlocate, hget⟩ := at?_eq_directory_iff.mp hdirectory
    have hpaths : paths = inOrder (((tree.below collection).filter fun entry =>
        isFile entry.2 && hasExtension entry.1).map Prod.fst) := by
      rw [documentPaths, hdirectory] at h
      exact (Except.ok.inj h).symm
    subst hpaths
    refine ⟨fun path => ?_, pairwise_inOrder ?_⟩
    · rw [inOrder, List.mem_mergeSort, List.mem_map]
      simp only [List.mem_filter, Bool.and_eq_true]
      constructor
      · rintro ⟨⟨found, entry⟩, ⟨hmem, hfile, hextension⟩, rfl⟩
        obtain ⟨rest, hrest, hentry, heq⟩ := (mem_below_iff hlocate).mp hmem
        cases entry with
        | directory => cases hfile
        | file bytes => exact ⟨directory, rest, bytes, hlocate, hget, hrest, hentry, heq, hextension⟩
      · rintro ⟨found, rest, bytes, hfound, _, hrest, hentry, heq, hextension⟩
        obtain rfl := Except.ok.inj (hlocate.symm.trans hfound)
        exact ⟨(path, .file bytes),
          ⟨(mem_below_iff hlocate).mpr ⟨rest, hrest, hentry, heq⟩, rfl, hextension⟩, rfl⟩
    · rw [List.map_map]
      exact (List.filter_sublist.map _).nodup (nodup_below tree collection)
  · -- nothing is below a place where no directory stands
    have hnone (path : Path) : ¬ IsDocument tree collection path := by
      rintro ⟨directory, _, _, hlocate, hget, _⟩
      exact hdirectory (at?_eq_directory_iff.mpr ⟨directory, hlocate, hget⟩)
    have hpaths : paths = [] := by
      rw [documentPaths] at h
      cases hat : tree.at? collection with
      | error fault =>
          rw [hat] at h
          cases h
      | ok found =>
          rw [hat] at h hdirectory
          cases found with
          | none => exact (Except.ok.inj h).symm
          | some entry =>
              cases entry with
              | directory => exact absurd rfl hdirectory
              | file bytes => exact (Except.ok.inj h).symm
    subst hpaths
    exact ⟨fun path => iff_of_false List.not_mem_nil (hnone path), .nil⟩

end Request

end RequestShapes
