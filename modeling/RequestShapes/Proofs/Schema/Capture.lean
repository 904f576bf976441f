import Mathlib
import RequestShapes.Proofs.Schema.Termination

/-!
# References that are captured

Lifting gives new names to what it moves and copies, and whether a reference is
left over it tells by its name alone. So a reference can meet a definition that
was made for something else. Apart from that no reference is ever misled.
-/

namespace RequestShapes.Schema

/-- Under which names lifting takes over definitions of the draft that are still
referred to. -/
def takenOver (draft : Json) (rootName : String) (reserved : List String) :
    List (String × String) :=
  let scope := Scope.initial (rootName :: reserved) (definitionsOf draft)
  match liftRoot scope (rootOf draft) rootName with
  | .ok (root, definitions) => adoptions scope (adoptionBound draft) root definitions
  | .error _ => []

/-- A reference still has its name in the result, although its definition was
not taken over under that name. -/
def Captured (draft : Json) (rootName : String) (reserved : List String) (result : Json)
    (path : List Step) (name : String) : Prop :=
  RefersAt draft path name ∧ RefersAt result path name ∧
    (name, name) ∉ takenOver draft rootName reserved

/-- What the references of the result designate unfolds like what the references
of the draft designate in the same place. -/
def KeepsReferences (draft result : Json) : Prop :=
  ∀ path name other, RefersAt draft path name → RefersAt result path other →
    ∃ origin definition, Table.get? (definitionsOf draft) name = some origin ∧
      Table.get? (definitionsOf result) other = some definition ∧
      unfolding (definitionsOf result) definition = unfolding (definitionsOf draft) origin

/-- What holds of the references of a node and of all definitions holds of the
references of what is met on the way. -/
theorem Meets.targets {Holds : String → Prop} {definitions : Table Json} {node found : Json}
    {path : List Step} (h : Meets definitions node path found)
    (hnode : ∀ target ∈ Schema.targets node, Holds target)
    (hdefinitions : ∀ name definition, Table.get? definitions name = some definition →
      ∀ target ∈ Schema.targets definition, Holds target) :
    ∀ target ∈ Schema.targets found, Holds target := by
  induction h with
  | here => exact hnode
  | follow hdesignates _ ih =>
      obtain ⟨name, _, hget⟩ := hdesignates
      exact ih (hdefinitions name _ hget)
  | step _ hchild _ ih =>
      exact ih fun target hmem => hnode target (targets_child?_subset hchild hmem)

theorem RefersAt.mem_targets {schema : Json} {path : List Step} {name : String}
    (h : RefersAt schema path name) : name ∈ targets schema := by
  obtain ⟨node, hmeets, htarget⟩ := h
  exact hmeets.targets (fun _ hmem => targets_rootOf_subset schema hmem)
    (fun _ _ hget _ hmem => targets_definition_subset hget hmem) name
    (mem_targets_of_target? htarget)

/-- Where draft and result have no name in common no reference is captured. -/
theorem not_captured {draft result : Json} (h : ∀ name ∈ targets draft, name ∉ targets result)
    (rootName : String) (reserved : List String) (path : List Step) (name : String) :
    ¬ Captured draft rootName reserved result path name :=
  fun ⟨hdraft, hresult, _⟩ => h name hdraft.mem_targets hresult.mem_targets

/-- Where a reference is met the tree goes on with the definition it designates. -/
theorem unfolding_of_refersAt {schema definition : Json} {path : List Step} {name : String}
    (h : RefersAt schema path name)
    (hget : Table.get? (definitionsOf schema) name = some definition) (rest : List Step)
    (shown : Label) :
    unfolding (definitionsOf schema) definition rest shown ↔
      treeOf schema (path ++ rest) shown := by
  obtain ⟨node, hmeets, htarget⟩ := h
  rw [← unfolding_of_designates ⟨name, htarget, hget⟩]
  exact hmeets.unfolding_iff rest shown

/-- Two nodes that are met on the same path. -/
def MetTogether (source : Table Json) (start : Json) (definitions : Table Json) (root : Json)
    (node copy : Json) : Prop :=
  ∃ path, Meets source start path node ∧ Meets definitions root path copy

theorem goesOn_metTogether (source : Table Json) (start : Json) (definitions : Table Json)
    (root : Json) : GoesOn source definitions (MetTogether source start definitions root) where
  follow := fun _ _ _ _ ⟨path, hnode, hcopy⟩ hfirst hsecond =>
    ⟨path, hnode.designated hfirst, hcopy.designated hsecond⟩
  behind := fun _ _ _ ⟨path, hnode, hcopy⟩ hsecond => ⟨path, hnode, hcopy.designated hsecond⟩
  step := fun _ _ step _ _ ⟨path, hnode, hcopy⟩ hnone hnone' hchild hchild' =>
    ⟨path ++ [step], hnode.child hnone hchild, hcopy.child hnone' hchild'⟩

/-- What is known of the result of lifting a draft without cycles. -/
theorem lift_follows {draft result : Json} {rootName : String} {reserved : List String}
    {Node Bare : Json → Prop} (hwalk : Walkable (definitionsOf draft) (fun _ => True) Node Bare)
    (hroot : Node (rootOf draft))
    (hnodes : ∀ name node, Table.get? (definitionsOf draft) name = some node → Node node)
    (hacyclic : Acyclic (definitionsOf draft) fun _ => True)
    (h : lift draft rootName reserved = .ok result) :
    ∃ origins, Follows (definitionsOf draft) origins Node (rootOf draft) (rootOf result)
        (definitionsOf result) ∧
      missing? (definitionsOf draft) (rootOf result) (definitionsOf result) = none ∧
      ∀ entry ∈ takenOver draft rootName reserved, ∃ node,
        Table.get? (definitionsOf draft) entry.1 = some node ∧
          Table.get? origins entry.2 = some node := by
  obtain ⟨root, definitions, hlift, hadopt⟩ := lift_phases h
  obtain ⟨origins, hfollows⟩ := follows_of_liftRoot hwalk (.initial _ _ _) hroot hlift
  obtain ⟨origins', _, hfollows', hmissing, hentries⟩ :=
    hfollows.adopt hwalk (.initial _ _ _) rfl hacyclic hnodes hadopt
  refine ⟨origins', hfollows', hmissing, ?_⟩
  rw [takenOver, hlift]
  exact hentries

/-- All that the result of a draft that resolves refers to is there. -/
theorem lift_resolves {draft result : Json} {rootName : String} {reserved : List String}
    (hresolves : ∀ name ∈ targets draft, name ∈ Table.names (definitionsOf draft))
    (hacyclic : Acyclic (definitionsOf draft) fun _ => True)
    (h : lift draft rootName reserved = .ok result) :
    ∀ name ∈ referred (rootOf result) (definitionsOf result),
      name ∈ Table.names (definitionsOf result) := by
  obtain ⟨_, _, hmissing, _⟩ :=
    lift_follows (walkable_all _) trivial (fun _ _ _ => trivial) hacyclic h
  obtain ⟨root, definitions, hroot, hadopt⟩ := lift_phases h
  have hinner : ∀ name definition, Table.get? (definitionsOf draft) name = some definition →
      ∀ target ∈ targets definition, target ∈ Table.names (definitionsOf draft) :=
    fun _ _ hget target hmem => hresolves target (targets_definition_subset hget hmem)
  obtain ⟨haccounted, hclosed⟩ := liftRoot_closed
    (walkable_of_closed fun name definition _ hget => hinner name definition hget)
    (.initial _ _) rfl hroot
    fun target hmem => hresolves target (targets_rootOf_subset draft hmem)
  have haccounts : Accounts (· ∈ Table.names (definitionsOf draft)) root definitions :=
    .of_parts (nodup_names_of_liftRoot hroot) haccounted fun name copy hget =>
      hclosed name copy (by simp [Table.names]) hget
  have hlater := haccounts.adopt (.initial _ _) rfl rfl hacyclic hinner hadopt
  intro name hmem
  exact (hlater.referred name hmem).elim id (mem_names_of_missing? hmissing hmem)

/-- References of the result designate definitions. -/
theorem RefersAt.exists_lifted {draft result : Json} {rootName : String} {reserved : List String}
    (hresolves : ∀ name ∈ targets draft, name ∈ Table.names (definitionsOf draft))
    (hacyclic : Acyclic (definitionsOf draft) fun _ => True)
    (hlift : lift draft rootName reserved = .ok result) {path : List Step} {name : String}
    (h : RefersAt result path name) :
    ∃ definition, Table.get? (definitionsOf result) name = some definition := by
  have hthere := lift_resolves hresolves hacyclic hlift
  obtain ⟨node, hmeets, htarget⟩ := h
  refine Table.exists_get?_of_mem_names (hmeets.targets (fun target hmem => ?_)
    (fun _ _ hget target hmem => ?_) name (mem_targets_of_target? htarget))
  · exact hthere target (targets_root_subset hmem)
  · exact hthere target (targets_subset_referred hget hmem)

/-- Orderly drafts are lifted. References are never misled, and the tree stays the
same, exactly if every captured reference has met a definition that unfolds like
its own. -/
theorem lift_keepsReferences_iff (draft : Json) (rootName : String) (reserved : List String)
    (hresolves : ∀ name ∈ targets draft, name ∈ Table.names (definitionsOf draft))
    (hacyclic : Acyclic (definitionsOf draft) fun _ => True) :
    (draft.isObject = true → Orderly (rootOf draft) → OrderlyTable (definitionsOf draft) →
      ∃ result, lift draft rootName reserved = .ok result) ∧
    ∀ result, lift draft rootName reserved = .ok result →
      ((KeepsReferences draft result ∧ treeOf result = treeOf draft) ↔
        ∀ path name origin definition, Captured draft rootName reserved result path name →
          Table.get? (definitionsOf draft) name = some origin →
          Table.get? (definitionsOf result) name = some definition →
          unfolding (definitionsOf result) definition =
            unfolding (definitionsOf draft) origin) := by
  refine ⟨fun hobject hroot hdefinitions =>
    lift_ok hobject hroot hdefinitions hacyclic rootName reserved, fun result hlift => ?_⟩
  have horigin {path : List Step} {name : String} (h : RefersAt draft path name) :=
    Table.exists_get?_of_mem_names (hresolves name h.mem_targets)
  constructor
  · rintro ⟨hkeeps, _⟩ path name origin definition ⟨hdraft, hresult, _⟩ hget hget'
    obtain ⟨_, _, hfirst, hsecond, heq⟩ := hkeeps path name name hdraft hresult
    obtain rfl := Option.some.inj (hget.symm.trans hfirst)
    obtain rfl := Option.some.inj (hget'.symm.trans hsecond)
    exact heq
  · intro hcaptured
    obtain ⟨origins, hfollows, _, hentries⟩ :=
      lift_follows (walkable_all _) trivial (fun _ _ _ => trivial) hacyclic hlift
    have hmirrors := mirrors_of_copies hfollows.definitions (goesOn_metTogether _ (rootOf draft) _
      (rootOf result)) fun node copy name ⟨path, hnode, hcopy⟩ htarget htarget' _ => by
        by_cases hover : (name, name) ∈ takenOver draft rootName reserved
        · exact .inr (hentries _ hover)
        · obtain ⟨origin, hget⟩ := horigin ⟨node, hnode, htarget⟩
          obtain ⟨definition, hget'⟩ := RefersAt.exists_lifted hresolves hacyclic hlift
            ⟨copy, hcopy, htarget'⟩
          refine .inl ?_
          rw [unfolding_of_designates ⟨name, htarget, hget⟩,
            unfolding_of_designates ⟨name, htarget', hget'⟩]
          exact (hcaptured path name origin definition
            ⟨⟨node, hnode, htarget⟩, ⟨copy, hcopy, htarget'⟩, hover⟩ hget hget').symm
    have htree : treeOf result = treeOf draft :=
      (hmirrors.unfolding_eq ⟨⟨[], .here _, .here _⟩, .inl hfollows.copies⟩).symm
    refine ⟨fun path name other hdraft hresult => ?_, htree⟩
    obtain ⟨origin, hget⟩ := horigin hdraft
    obtain ⟨definition, hget'⟩ := hresult.exists_lifted hresolves hacyclic hlift
    refine ⟨origin, definition, hget, hget', ?_⟩
    funext rest shown
    rw [eq_iff_iff, unfolding_of_refersAt hresult hget', unfolding_of_refersAt hdraft hget, htree]

/-- A schema with one definition, to which only an alternative refers. -/
def nullablePet : Json :=
  .obj [("anyOf", .arr [refTo "Pet", nullType]),
    ("definitions", .obj [("Pet", ofType (.str "string"))])]

/-- The definition is taken over under another name if its own is reserved. -/
def nullablePetLifted : Json :=
  .obj [("anyOf", .arr [refTo "Pet2", nullType]),
    ("definitions", .obj [("Pet2", ofType (.str "string"))])]

theorem acyclic_of_targets {source : Table Json} {Kind : Json → Prop}
    (h : ∀ name node, Table.get? source name = some node → targets node = []) :
    Acyclic source Kind := by
  intro name hcycle
  obtain ⟨_, ⟨node, hget, _, htarget⟩, _⟩ := Relation.TransGen.head'_iff.mp hcycle
  rw [h name node hget] at htarget
  cases htarget

theorem targets_of_singleton {name other : String} {node found : Json} (h : targets node = [])
    (hget : Table.get? [(name, node)] other = some found) : targets found = [] := by
  cases List.mem_singleton.mp (Table.mem_of_get? hget)
  exact h

theorem nullablePet_keepsReferences :
    lift nullablePet "Root" ["Pet"] = .ok nullablePetLifted ∧
      KeepsReferences nullablePet nullablePetLifted ∧
      treeOf nullablePetLifted = treeOf nullablePet := by
  have hlift : lift nullablePet "Root" ["Pet"] = .ok nullablePetLifted := by cbv
  have hacyclic : Acyclic (definitionsOf nullablePet) fun _ => True :=
    acyclic_of_targets fun _ _ hget => targets_of_singleton rfl hget
  refine ⟨hlift, ((lift_keepsReferences_iff nullablePet "Root" ["Pet"] (by decide) hacyclic).2
    _ hlift).mpr ?_⟩
  intro path name origin definition hcaptured _ _
  -- the only reference gets another name
  exact absurd hcaptured (not_captured (by decide) "Root" ["Pet"] path name)

/-- A schema in which the way to a property is called like a definition. -/
def misledAlternative : Json :=
  .obj [("type", .str "object"),
    ("properties", .obj [("b", .obj [("type", .str "object"), ("properties", .obj [])])]),
    ("anyOf", .arr [refTo "AB"]), ("definitions", .obj [("AB", ofType (.str "string"))])]

/-- The alternative now refers to the property. -/
def misledAlternativeLifted : Json :=
  .obj [("type", .str "object"), ("properties", .obj [("b", refTo "AB")]),
    ("anyOf", .arr [refTo "AB"]),
    ("definitions", .obj [("AB", .obj [("type", .str "object"), ("properties", .obj [])])])]

theorem misledAlternative_captured :
    (∀ name ∈ targets misledAlternative, name ∈ Table.names (definitionsOf misledAlternative)) ∧
      Acyclic (definitionsOf misledAlternative) (fun _ => True) ∧
      lift misledAlternative "A" [] = .ok misledAlternativeLifted ∧
      ¬ KeepsReferences misledAlternative misledAlternativeLifted := by
  refine ⟨by decide, acyclic_of_targets fun _ _ hget => targets_of_singleton rfl hget, by cbv,
    fun hkeeps => ?_⟩
  · have hdraft : RefersAt misledAlternative [.member "anyOf", .item 0] "AB" :=
      ⟨refTo "AB", .step rfl rfl (.step rfl rfl (.here _)), rfl⟩
    have hresult : RefersAt misledAlternativeLifted [.member "anyOf", .item 0] "AB" :=
      ⟨refTo "AB", .step rfl rfl (.step rfl rfl (.here _)), rfl⟩
    obtain ⟨origin, definition, horigin, hdefinition, heq⟩ := hkeeps _ _ _ hdraft hresult
    cases horigin
    cases hdefinition
    have hshown := congrFun (congrFun heq [.member "type"]) (.str "object")
    rw [eq_iff_iff, unfolding_step rfl rfl, unfolding_step rfl rfl, unfolding_nil rfl,
      unfolding_nil rfl] at hshown
    exact absurd (hshown.mp rfl) (by decide)

end RequestShapes.Schema
