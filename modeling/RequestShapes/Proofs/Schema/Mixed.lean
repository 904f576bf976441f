import RequestShapes.Proofs.Schema.Capture
import RequestShapes.Proofs.Schema.Acceptance

/-!
# Where captured references lead

The tree of a lifted schema is that of the draft with captured references read
in the result. So what the result accepts is known from the draft, from the
references that are captured and from the definitions they have met.
-/

namespace RequestShapes.Schema

/-- A node that is no reference, and has below it, as properties and items, only
such nodes and references that resolve. -/
inductive Solid (source : Table Json) : Json → Prop
  | intro {node : Json} : target? node = none →
      (∀ members, node.get? "properties" = some (.obj members) → ∀ entry ∈ members,
        ¬ Resolves source entry.2 → Solid source entry.2) →
      (isArray node = true → ¬ Resolves source (itemsOf node) → Solid source (itemsOf node)) →
      Solid source node

/-- What a node shows on a path if captured references are read among other
definitions. The node itself stands on a path from the root. -/
inductive Shows (source others : Table Json) (captured : List Step → String → Prop) :
    List Step → Json → List Step → Label → Prop
  | here {before : List Step} {node : Json} : target? node = none →
      Shows source others captured before node [] (label node)
  | step {before rest : List Step} {node inner : Json} {step : Step} {shown : Label} :
      target? node = none → child? node step = some inner →
      Shows source others captured (before ++ [step]) inner rest shown →
      Shows source others captured before node (step :: rest) shown
  | follow {before rest : List Step} {node definition : Json} {name : String} {shown : Label} :
      target? node = some name → ¬ captured before name →
      Table.get? source name = some definition →
      Shows source others captured before definition rest shown →
      Shows source others captured before node rest shown
  | astray {before rest : List Step} {node definition : Json} {name : String} {shown : Label} :
      target? node = some name → captured before name →
      Table.get? others name = some definition → unfolding others definition rest shown →
      Shows source others captured before node rest shown

/-- The tree of a draft in which captured references are read in the result. -/
def mixedTree (draft result : Json) (captured : List Step → String → Prop) : Tree :=
  Shows (definitionsOf draft) (definitionsOf result) captured [] (rootOf draft)

/-- Without captured references the tree is that of the draft. -/
theorem shows_iff_unfolding {source others : Table Json} {captured : List Step → String → Prop}
    (hnone : ∀ path name, ¬ captured path name) {before path : List Step} {node : Json}
    {shown : Label} : Shows source others captured before node path shown ↔
      unfolding source node path shown := by
  constructor
  · intro h
    induction h with
    | here htarget => exact (unfolding_nil htarget _).mpr rfl
    | step htarget hchild _ ih => exact (unfolding_step htarget hchild _ _).mpr ih
    | follow htarget _ hget _ ih =>
        rwa [unfolding_of_designates ⟨_, htarget, hget⟩]
    | astray _ hcaptured => exact absurd hcaptured (hnone _ _)
  · rintro ⟨found, hmeets, htarget, rfl⟩
    induction hmeets generalizing before with
    | here => exact .here htarget
    | follow hdesignates _ ih =>
        obtain ⟨name, hname, hget⟩ := hdesignates
        exact .follow hname (hnone _ _) hget (ih htarget)
    | step hname hchild _ ih => exact .step hname hchild (ih htarget)

theorem mixedTree_eq_treeOf {draft result : Json} {captured : List Step → String → Prop}
    (hnone : ∀ path name, ¬ captured path name) :
    mixedTree draft result captured = treeOf draft := by
  funext path shown
  exact propext (shows_iff_unfolding hnone)

section Solid

variable {source : Table Json}

theorem Solid.target? {node : Json} (h : Solid source node) : target? node = none := by
  cases h with
  | intro hnone => exact hnone

theorem walkable_solid
    (h : ∀ name node, Table.get? source name = some node → Solid source node) :
    Walkable source (fun _ => True) (Solid source) (Resolves source) where
  bare := fun _ hbare => hbare
  definition := fun _ name definition _ _ hget => h name definition hget
  properties := fun node members hnode hget => by
    refine ⟨fun _ _ => trivial, fun entry hmem => ?_⟩
    by_cases hresolves : Resolves source entry.2
    · exact .inr hresolves
    · cases hnode with
      | intro _ hproperties _ => exact .inl (hproperties members hget entry hmem hresolves)
  items := fun node hnode harray => by
    by_cases hresolves : Resolves source (itemsOf node)
    · exact .inr hresolves
    · cases hnode with
      | intro _ _ hitems => exact .inl (hitems harray hresolves)
  idle := fun _ _ _ _ _ _ => trivial
  beside := fun _ _ _ _ => trivial

end Solid

/-- Where no definition is a reference there is one reference at most on a path. -/
theorem Meets.target_unique {definitions : Table Json} {node found other : Json}
    {path : List Step} (hmeets : Meets definitions node path found)
    (hother : Meets definitions node path other)
    (hplain : ∀ name definition, Table.get? definitions name = some definition →
      target? definition = none)
    (hfound : target? found ≠ none) (hreference : target? other ≠ none) : found = other := by
  induction hmeets with
  | here node =>
      cases hother with
      | here => rfl
      | follow hdesignates hrest =>
          obtain ⟨name, _, hget⟩ := hdesignates
          cases hrest with
          | here => exact absurd (hplain name _ hget) hreference
          | follow hagain _ => exact absurd (hplain name _ hget) hagain.target?_ne_none
  | follow hdesignates hrest ih =>
      cases hother with
      | here =>
          obtain ⟨name, _, hget⟩ := hdesignates
          cases hrest with
          | here => exact absurd (hplain name _ hget) hfound
          | follow hagain _ => exact absurd (hplain name _ hget) hagain.target?_ne_none
      | follow hdesignates' hrest' => exact ih (hdesignates.unique hdesignates' ▸ hrest') hfound
      | step hnone => exact absurd hnone hdesignates.target?_ne_none
  | step hnone hchild _ ih =>
      cases hother with
      | follow hdesignates => exact absurd hnone hdesignates.target?_ne_none
      | step _ hchild' hrest' =>
          obtain rfl := Option.some.inj (hchild.symm.trans hchild')
          exact ih hrest' hfound

/-! ## The tree of the result -/

section Result

variable {draft result : Json} {origins : Table Json} {captured : List Step → String → Prop}

/-- A node of the draft and the node of the result on the same path that was made
for it. -/
structure Together (draft result : Json) (origins : Table Json) (before : List Step)
    (node copy : Json) : Prop where
  inDraft : Meets (definitionsOf draft) (rootOf draft) before node
  inResult : Meets (definitionsOf result) (rootOf result) before copy
  tracks : Tracks (definitionsOf draft) origins (fun _ => True) node copy

/-- How a draft and what it was lifted to belong together. A reference that keeps
its name is captured, unless its definition was taken over under this name. -/
structure Tells (draft result : Json) (origins : Table Json)
    (captured : List Step → String → Prop) : Prop where
  copies : AreCopies (definitionsOf draft) origins (fun _ => True) (definitionsOf result)
  plain : ∀ name definition, Table.get? (definitionsOf result) name = some definition →
    target? definition = none
  there : ∀ path name, RefersAt result path name →
    ∃ definition, Table.get? (definitionsOf result) name = some definition
  refers : ∀ path name, captured path name → RefersAt result path name
  own : ∀ path name, RefersAt draft path name → RefersAt result path name →
    ¬ captured path name → ∃ origin, Table.get? (definitionsOf draft) name = some origin ∧
      Table.get? origins name = some origin

/-- What a node and its copy have in common: they look alike and hold such nodes,
or both refer to such nodes, or the reference is captured. -/
theorem Together.cases (htells : Tells draft result origins captured) {before : List Step}
    {node copy : Json} (h : Together draft result origins before node copy) :
    (target? node = none ∧ target? copy = none ∧ label node = label copy ∧
      ∀ step, Option.Rel (Behind (definitionsOf result)
        (Together draft result origins (before ++ [step]))) (child? node step) (child? copy step)) ∨
    (∃ name definition inner, target? node = some name ∧ ¬ captured before name ∧
      Table.get? (definitionsOf draft) name = some definition ∧
      Designates (definitionsOf result) copy inner ∧
      Together draft result origins before definition inner) ∨
    ∃ name definition, target? node = some name ∧ captured before name ∧
      target? copy = some name ∧ Table.get? (definitionsOf result) name = some definition := by
  cases htarget : target? node with
  | none =>
      refine .inl ?_
      rcases h.tracks with hcopies | ⟨_, _, _, _, hdesignates⟩
      · have hnone := eq_none_of_rel hcopies.target htarget
        refine ⟨rfl, hnone, hcopies.label, fun step => ?_⟩
        refine rel_mono (hcopies.children htarget step) fun inner other hinner hother hplace => ?_
        have halong := And.intro (h.inDraft.child htarget hinner) (h.inResult.child hnone hother)
        have hbehind := @Place.behind _ _ _ _ htells.copies (fun inner other =>
          Meets (definitionsOf draft) (rootOf draft) (before ++ [step]) inner ∧
            Meets (definitionsOf result) (rootOf result) (before ++ [step]) other) inner other
          (fun found halong hdesignates => ⟨halong.1, halong.2.designated hdesignates⟩) hplace halong
        refine hbehind.imp (fun htogether => ?_) fun ⟨found, hdesignates, htogether⟩ =>
          ⟨found, hdesignates, ?_⟩
        · exact ⟨htogether.1.1, htogether.1.2, htogether.2⟩
        · exact ⟨htogether.1.1, htogether.1.2, htogether.2⟩
      · exact absurd htarget hdesignates.target?_ne_none
  | some old =>
      refine .inr ?_
      have hdraft : RefersAt draft before old := ⟨node, h.inDraft, htarget⟩
      have hgoes {new : String} {definition : Json} (hcopy : target? copy = some new)
          (hsource : Table.get? (definitionsOf draft) old = some definition)
          (horigin : Table.get? origins new = some definition) (hfree : ¬ captured before old) :
          ∃ name definition inner, some old = some name ∧ ¬ captured before name ∧
            Table.get? (definitionsOf draft) name = some definition ∧
            Designates (definitionsOf result) copy inner ∧
            Together draft result origins before definition inner := by
        obtain ⟨inner, hinner, hcopies⟩ := htells.copies new definition horigin
        have hdesignates : Designates (definitionsOf result) copy inner := ⟨new, hcopy, hinner⟩
        exact ⟨old, definition, inner, rfl, hfree, hsource, hdesignates,
          h.inDraft.designated ⟨old, htarget, hsource⟩, h.inResult.designated hdesignates, .inl hcopies⟩
      obtain ⟨new, hcopy⟩ : ∃ new, target? copy = some new := by
        rcases h.tracks with hcopies | ⟨name, _, rfl, _, _⟩
        · obtain ⟨new, hcopy, _⟩ := exists_right_of_rel hcopies.target htarget
          exact ⟨new, hcopy⟩
        · exact ⟨name, target?_refTo name⟩
      by_cases hcaptured : captured before old
      · obtain ⟨other, hother, hname⟩ := htells.refers before old hcaptured
        obtain rfl := h.inResult.target_unique hother htells.plain (by simp [hcopy]) (by simp [hname])
        obtain ⟨definition, hget⟩ := htells.there before old ⟨copy, hother, hname⟩
        exact .inr ⟨old, definition, rfl, hcaptured, hname, hget⟩
      · refine .inl ?_
        rcases h.tracks with hcopies | ⟨name, origin, rfl, horigin, other, hother, hsource⟩
        · have hrel := hcopies.target
          rw [htarget, hcopy, Option.rel_some_some] at hrel
          rcases hrel with ⟨rfl, _⟩ | ⟨definition, hsource, horigin⟩
          · obtain ⟨origin, hsource, horigin⟩ :=
              htells.own before new hdraft ⟨copy, h.inResult, hcopy⟩ hcaptured
            exact hgoes hcopy hsource horigin hcaptured
          · exact hgoes hcopy hsource horigin hcaptured
        · obtain rfl := Option.some.inj (htarget.symm.trans hother)
          exact hgoes (target?_refTo name) hsource horigin hcaptured

/-- Where the result shows something the mixed tree shows the same. -/
theorem Together.shows (htells : Tells draft result origins captured) {before rest : List Step}
    {node copy found : Json} (hmeets : Meets (definitionsOf result) copy rest found)
    (htarget : target? found = none)
    (h : Behind (definitionsOf result) (Together draft result origins before) node copy) :
    Shows (definitionsOf draft) (definitionsOf result) captured before node rest (label found) := by
  induction hmeets generalizing before node with
  | here copy =>
      rcases h with h | ⟨_, hdesignates, _⟩
      · rcases h.cases htells with ⟨hnode, _, hlabel, _⟩ | ⟨_, _, _, _, _, _, hdesignates, _⟩ |
          ⟨_, _, _, _, hcopy, _⟩
        · rw [← hlabel]
          exact .here hnode
        · exact absurd htarget hdesignates.target?_ne_none
        · rw [htarget] at hcopy
          cases hcopy
      · exact absurd htarget hdesignates.target?_ne_none
  | @follow copy definition found rest hfollow hrest ih =>
      rcases h with h | ⟨inner, hdesignates, hinner⟩
      · rcases h.cases htells with ⟨_, hcopy, _⟩ |
          ⟨name, definition', inner, hname, hfree, hget, hdesignates, hinner⟩ |
          ⟨name, definition', hname, hcaptured, hcopy, hget⟩
        · exact absurd hcopy hfollow.target?_ne_none
        · exact .follow hname hfree hget (ih htarget (.inl (hfollow.unique hdesignates ▸ hinner)))
        · obtain rfl := hfollow.unique ⟨name, hcopy, hget⟩
          exact .astray hname hcaptured hget ⟨found, hrest, htarget, rfl⟩
      · exact ih htarget (.inl (hfollow.unique hdesignates ▸ hinner))
  | @step copy inner found step rest hnone hchild hrest ih =>
      rcases h with h | ⟨_, hdesignates, _⟩
      · rcases h.cases htells with ⟨hnode, _, _, hchildren⟩ | ⟨_, _, _, _, _, _, hdesignates, _⟩ |
          ⟨_, _, _, _, hcopy, _⟩
        · obtain ⟨other, hother, hbehind⟩ := exists_left_of_rel (hchildren step) hchild
          exact .step hnode hother (ih htarget hbehind)
        · exact absurd hnone hdesignates.target?_ne_none
        · rw [hnone] at hcopy
          cases hcopy
      · exact absurd hnone hdesignates.target?_ne_none

/-- What the mixed tree shows the result shows. -/
theorem Together.unfolding (htells : Tells draft result origins captured)
    {before rest : List Step} {node copy : Json} {shown : Label}
    (hshows : Shows (definitionsOf draft) (definitionsOf result) captured before node rest shown)
    (h : Together draft result origins before node copy) :
    Schema.unfolding (definitionsOf result) copy rest shown := by
  induction hshows generalizing copy with
  | here htarget =>
      rcases h.cases htells with ⟨_, hcopy, hlabel, _⟩ | ⟨_, _, _, hname, _⟩ | ⟨_, _, hname, _⟩
      · exact (unfolding_nil hcopy _).mpr hlabel.symm
      · rw [htarget] at hname
        cases hname
      · rw [htarget] at hname
        cases hname
  | @step before rest node inner step shown htarget hchild _ ih =>
      rcases h.cases htells with ⟨_, hcopy, _, hchildren⟩ | ⟨_, _, _, hname, _⟩ | ⟨_, _, hname, _⟩
      · obtain ⟨other, hother, hbehind⟩ := exists_right_of_rel (hchildren step) hchild
        obtain ⟨found, htogether, heq⟩ := hbehind.exists_unfolding_eq
        rw [unfolding_step hcopy hother, heq]
        exact ih htogether
      · rw [htarget] at hname
        cases hname
      · rw [htarget] at hname
        cases hname
  | follow htarget hfree hget _ ih =>
      rcases h.cases htells with ⟨hnone, _⟩ |
        ⟨name, definition, inner, hname, _, hget', hdesignates, hinner⟩ |
        ⟨name, _, hname, hcaptured, _⟩
      · rw [htarget] at hnone
        cases hnone
      · obtain rfl := Option.some.inj (htarget.symm.trans hname)
        obtain rfl := Option.some.inj (hget.symm.trans hget')
        rw [unfolding_of_designates hdesignates]
        exact ih hinner
      · obtain rfl := Option.some.inj (htarget.symm.trans hname)
        exact absurd hcaptured hfree
  | astray htarget hcaptured hget hshown =>
      rcases h.cases htells with ⟨hnone, _⟩ | ⟨name, _, _, hname, hfree, _⟩ |
        ⟨name, definition, hname, _, hcopy, hget'⟩
      · rw [htarget] at hnone
        cases hnone
      · obtain rfl := Option.some.inj (htarget.symm.trans hname)
        exact absurd hcaptured hfree
      · obtain rfl := Option.some.inj (htarget.symm.trans hname)
        obtain rfl := Option.some.inj (hget.symm.trans hget')
        rwa [unfolding_of_designates ⟨_, hcopy, hget⟩]

end Result

/-- A lifted schema shows what the draft shows, apart from captured references. -/
theorem treeOf_lift {draft result : Json} {rootName : String} {reserved : List String}
    (hroot : Solid (definitionsOf draft) (rootOf draft))
    (hsolid : ∀ name node, Table.get? (definitionsOf draft) name = some node →
      Solid (definitionsOf draft) node)
    (hresolves : ∀ name ∈ targets draft, name ∈ Table.names (definitionsOf draft))
    (hacyclic : Acyclic (definitionsOf draft) fun _ => True)
    (hlift : lift draft rootName reserved = .ok result) :
    treeOf result = mixedTree draft result (Captured draft rootName reserved result) := by
  obtain ⟨origins, hfollows, _, hentries⟩ :=
    lift_follows (walkable_solid hsolid) hroot hsolid hacyclic hlift
  have hplain {node copy : Json} (hnode : Solid (definitionsOf draft) node)
      (hcopies : Copies (definitionsOf draft) origins (fun _ => True) node copy) :
      target? copy = none := eq_none_of_rel hcopies.target hnode.target?
  have htells : Tells draft result origins (Captured draft rootName reserved result) := by
    refine ⟨hfollows.definitions, fun name definition hget => ?_, fun path name hrefers =>
      hrefers.exists_lifted hresolves hacyclic hlift, fun path name hcaptured => hcaptured.2.1,
      fun path name hdraft hresult hfree => ?_⟩
    · obtain ⟨origin, horigin⟩ := Table.exists_get?_of_mem_names
        ((hfollows.names name).mpr (Table.mem_names_of_get? hget))
      obtain ⟨copy, hcopy, hcopies⟩ := hfollows.definitions name origin horigin
      obtain rfl := Option.some.inj (hget.symm.trans hcopy)
      exact hplain (hfollows.nodes name origin horigin) hcopies
    · have hover : (name, name) ∈ takenOver draft rootName reserved := by
        by_contra hnot
        exact hfree ⟨hdraft, hresult, hnot⟩
      exact hentries _ hover
  have hstart : Together draft result origins [] (rootOf draft) (rootOf result) :=
    ⟨.here _, .here _, .inl hfollows.copies⟩
  funext path shown
  apply propext
  constructor
  · rintro ⟨found, hmeets, htarget, rfl⟩
    exact Together.shows htells hmeets htarget (.inl hstart)
  · exact fun hshows => hstart.unfolding htells hshows

end RequestShapes.Schema
