import RequestShapes.Proofs.Schema.Inferring
import RequestShapes.Proofs.Schema.Reaching

/-!
# What inlining the root leaves unresolved

Inlining takes the definition that the root refers to out of the table. What
else refers to it, be it the definition itself, then refers to nothing: this is
the only reference that can be lost, and lifting does not bring it back.
-/

namespace RequestShapes.Schema

theorem mem_targets_obj {members : List (String × Json)} {name : String} :
    name ∈ targets (.obj members) ↔
      target? (.obj members) = some name ∨ ∃ entry ∈ members, name ∈ targets entry.2 := by
  rw [targets, List.mem_append, Option.mem_toList, mem_memberTargets]

/-- What an object refers to, one of its members already refers to, or the object
holds the reference itself. -/
theorem exists_mem_of_mem_targets {node : Json} {name : String} (hobject : node.isObject = true)
    (h : name ∈ targets node) :
    ("$ref", .str (definitionsPath ++ name)) ∈ node.members ∨
      ∃ entry ∈ node.members, name ∈ targets entry.2 := by
  cases node with
  | obj members =>
      exact (mem_targets_obj.mp h).imp
        (fun htarget => Table.mem_of_get? (target?_eq_some htarget)) id
  | _ => cases hobject

theorem mem_update {table entries : Table Json} {entry : String × Json}
    (h : entry ∈ Table.update table entries) : entry ∈ table ∨ entry ∈ entries := by
  induction entries generalizing table with
  | nil => exact .inl h
  | cons first rest ih =>
      rcases ih h with hmem | hmem
      · rcases Table.mem_set hmem with rfl | hold
        · exact .inr List.mem_cons_self
        · exact .inl hold
      · exact .inr (List.mem_cons_of_mem _ hmem)

theorem mem_names_erase {table : Table Json} {name other : String} :
    other ∈ Table.names (Table.erase table name) ↔ other ∈ Table.names table ∧ other ≠ name := by
  rw [← Table.has_iff_mem_names, ← Table.has_iff_mem_names, Table.has, Table.get?_erase, Table.has]
  by_cases heq : other = name
  · simp [heq]
  · simp [heq]

theorem target?_rootOf (draft : Json) : target? (rootOf draft) = target? draft := by
  cases draft with
  | obj members =>
      rw [target?, rootOf, Json.erase, Json.get?, Table.get?_erase, if_neg (by decide)]
      rfl
  | _ => rfl

theorem mem_members_of_erase {node : Json} {name : String} {entry : String × Json}
    (h : entry ∈ (node.erase name).members) : entry ∈ node.members ∧ entry.1 ≠ name := by
  cases node with
  | obj members => simpa [Json.erase, Json.members, Table.erase] using h
  | _ => cases h

theorem mem_targets_of_mem_members {node : Json} {name : String} {entry : String × Json}
    (hentry : entry ∈ node.members) (hmem : name ∈ targets entry.2) : name ∈ targets node := by
  cases node with
  | obj members => exact mem_targets_obj.mpr (.inr ⟨entry, hentry, hmem⟩)
  | _ => cases hentry

theorem Distinct.nodup_members {node : Json} (h : Distinct node) :
    (Table.names node.members).Nodup := by
  cases node with
  | obj members => exact h.of_obj.1
  | _ => exact List.nodup_nil

/-- An object holds a reference at one place only, so it refers to what it holds. -/
theorem mem_targets_of_reference {node : Json} {name : String} (hdistinct : Distinct node)
    (hmem : ("$ref", .str (definitionsPath ++ name)) ∈ node.members) : name ∈ targets node := by
  cases node with
  | obj members =>
      have hget : (Json.obj members).get? "$ref" = some (.str (definitionsPath ++ name)) :=
        Table.get?_of_mem hdistinct.nodup_members hmem
      refine mem_targets_of_target? ?_
      rw [target?, hget]
      exact nameOfPath?_definitionsPath name
  | _ => cases hmem

theorem Distinct.definition {draft definition : Json} {name : String} (h : Distinct draft)
    (hget : Table.get? (definitionsOf draft) name = some definition) : Distinct definition := by
  cases draft with
  | obj members =>
      rw [definitionsOf, Json.get?] at hget
      cases hdefinitions : Table.get? members "definitions" with
      | none => simp [hdefinitions] at hget
      | some found =>
          rw [hdefinitions, Option.map_some, Option.getD_some] at hget
          have hfound : Distinct found := h.of_obj.2 _ (Table.mem_of_get? hdefinitions)
          cases found with
          | obj definitions => exact hfound.of_obj.2 _ (Table.mem_of_get? hget)
          | _ => cases hget
  | _ => cases hget

theorem definitionsOf_erase_ref (draft : Json) :
    definitionsOf (draft.erase "$ref") = definitionsOf draft := by
  cases draft with
  | obj members =>
      rw [definitionsOf, Json.erase, Json.get?, Table.get?_erase, if_neg (by decide)]
      rfl
  | _ => rfl

theorem referencesOf_erase_ref_subset (draft : Json) :
    referencesOf (draft.erase "$ref") ⊆ referencesOf draft := by
  intro name hmem
  rw [referencesOf, mem_referred, definitionsOf_erase_ref] at hmem
  refine mem_referred.mpr (hmem.imp_left fun hroot => ?_)
  cases draft with
  | obj members =>
      rcases exists_mem_of_mem_targets rfl hroot with hreference | ⟨entry, hentry, htarget⟩
      · exact absurd rfl (mem_members_of_erase (mem_members_of_erase hreference).1).2
      · obtain ⟨hentry, hne⟩ := mem_members_of_erase hentry
        refine mem_targets_of_mem_members ?_ htarget
        exact List.mem_filter.mpr ⟨(mem_members_of_erase hentry).1, decide_eq_true hne⟩
  | _ => exact hroot

/-- The members of an inlined root come from the root or from its definition. -/
theorem mem_members_rootOf_inlined {draft inlined definition : Json} {target : String}
    (htarget : target? draft = some target)
    (hget : Table.get? (definitionsOf draft) target = some definition)
    (h : inlineRoot draft = .ok inlined) {entry : String × Json}
    (hentry : entry ∈ (rootOf inlined).members) :
    entry ∈ (rootOf (draft.erase "$ref")).members ∨ entry ∈ definition.members := by
  unfold inlineRoot at h
  simp only [htarget, hget] at h
  cases hoverriding : overriding? definition with
  | none =>
      rw [hoverriding] at h
      cases h
  | some members =>
      rw [hoverriding] at h
      cases h
      obtain ⟨hmem, hne⟩ := mem_members_of_erase hentry
      rcases Table.mem_set hmem with rfl | hmem
      · exact absurd rfl hne
      · refine (mem_update hmem).imp id fun hmember => ?_
        -- an empty text or list overrides nothing, like an empty object
        unfold overriding? at hoverriding
        split at hoverriding
        next => cases hoverriding; exact hmember
        next => cases hoverriding; cases hmember
        next => cases hoverriding; cases hmember
        next => cases hoverriding

theorem isObject_rootOf_inlined {draft inlined : Json} {target : String}
    (htarget : target? draft = some target) (h : inlineRoot draft = .ok inlined) :
    (rootOf inlined).isObject = true := by
  rw [isObject_rootOf]
  unfold inlineRoot at h
  simp only [htarget] at h
  split at h
  next =>
    cases h
    exact isObject_of_target? htarget
  next =>
    split at h
    next => cases h
    next =>
      cases h
      rfl

theorem definitionsOf_inlined {draft inlined : Json} {target : String}
    (htarget : target? draft = some target)
    (hmem : target ∈ Table.names (definitionsOf draft)) (h : inlineRoot draft = .ok inlined) :
    definitionsOf inlined = Table.erase (definitionsOf draft) target := by
  obtain ⟨definition, hget⟩ := Table.exists_get?_of_mem_names hmem
  unfold inlineRoot at h
  simp only [htarget, hget] at h
  split at h
  next => cases h
  next =>
    cases h
    rw [definitionsOf, Json.set, Json.get?, Table.get?_set_self]
    rfl

/-- Inlining brings no references that the draft does not hold beside the one
that it follows. -/
theorem referencesOf_inlined_subset {draft inlined : Json} {target : String}
    (hdistinct : Distinct draft) (htarget : target? draft = some target)
    (hmem : target ∈ Table.names (definitionsOf draft)) (h : inlineRoot draft = .ok inlined) :
    referencesOf inlined ⊆ referencesOf (draft.erase "$ref") := by
  obtain ⟨definition, hget⟩ := Table.exists_get?_of_mem_names hmem
  have hbelow : targets definition ⊆ referencesOf (draft.erase "$ref") := by
    intro name hname
    rw [← definitionsOf_erase_ref] at hget
    exact mem_referencesOf_of_get? hget hname
  intro name hname
  rcases mem_referred.mp hname with hroot | ⟨entry, hentry, htargets⟩
  · have hmembers (entry) := @mem_members_rootOf_inlined _ _ _ _ htarget hget h entry
    have hobject := isObject_rootOf_inlined htarget h
    rcases exists_mem_of_mem_targets hobject hroot with hreference | ⟨entry, hentry, htargets⟩
    · rcases hmembers _ hreference with hrest | hdefinition
      · exact absurd rfl (mem_members_of_erase (mem_members_of_erase hrest).1).2
      · exact hbelow (mem_targets_of_reference (hdistinct.definition hget) hdefinition)
    · rcases hmembers _ hentry with hrest | hdefinition
      · exact targets_root_subset (mem_targets_of_mem_members hrest htargets)
      · exact hbelow (mem_targets_of_mem_members hdefinition htargets)
  · rw [definitionsOf_inlined htarget hmem h] at hentry
    refine mem_referred.mpr (.inr ⟨entry, ?_, htargets⟩)
    rw [definitionsOf_erase_ref]
    exact List.mem_of_mem_filter hentry

/-- A draft whose root refers to a definition, and in which all references
resolve, can be inlined if the definition is an object. Then all references
resolve if and only if nothing left refers to that definition, as is the case if
only the root does. Lifting keeps this, whichever bounds it takes; but for a
reference to that definition, nothing that it returns is unresolved. -/
theorem inlineRoot_resolved_iff {draft : Json} {target : String} (hdistinct : Distinct draft)
    (htarget : target? draft = some target) (hresolved : Resolved draft) :
    ((∀ definition, Table.get? (definitionsOf draft) target = some definition →
        definition.isObject = true) → ∃ inlined, inlineRoot draft = .ok inlined) ∧
      ∀ inlined, inlineRoot draft = .ok inlined →
        (Resolved inlined ↔ target ∉ referencesOf inlined) ∧
        (target ∉ referencesOf (draft.erase "$ref") → Resolved inlined) ∧
        ∀ limit fuel rootName reserved result,
          liftWithin limit fuel inlined rootName reserved = .ok result →
          (Resolved inlined → Resolved result) ∧
          (Resolved result ↔ (target ∈ referencesOf result →
            target ∈ Table.names (definitionsOf result))) := by
  have htargets : target ∈ targets (rootOf draft) := by
    refine mem_targets_of_target? ?_
    rw [target?_rootOf, htarget]
  have hmem : target ∈ Table.names (definitionsOf draft) :=
    hresolved target (targets_root_subset htargets)
  refine ⟨fun hobject => ?_, fun inlined hinlined => ?_⟩
  · obtain ⟨definition, hget⟩ := Table.exists_get?_of_mem_names hmem
    have hmembers := hobject definition hget
    cases definition with
    | obj members =>
        unfold inlineRoot
        simp only [htarget, hget, overriding?]
        exact ⟨_, rfl⟩
    | _ => cases hmembers
  · have hsubset := referencesOf_inlined_subset hdistinct htarget hmem hinlined
    -- only the definition taken out is missing
    have hbut (name) (hname : name ∈ referencesOf inlined) :
        name ∈ Table.names (definitionsOf inlined) ∨ name = target := by
      have hdraft := hresolved name (referencesOf_erase_ref_subset draft (hsubset hname))
      by_cases heq : name = target
      · exact .inr heq
      · rw [definitionsOf_inlined htarget hmem hinlined]
        exact .inl (mem_names_erase.mpr ⟨hdraft, heq⟩)
    have hiff : Resolved inlined ↔ target ∉ referencesOf inlined := by
      constructor
      · intro hinner hreferred
        have hkept := hinner target hreferred
        rw [definitionsOf_inlined htarget hmem hinlined] at hkept
        exact absurd rfl (mem_names_erase.mp hkept).2
      · intro hfree name hname
        refine (hbut name hname).resolve_right ?_
        rintro rfl
        exact hfree hname
    refine ⟨hiff, fun hfree => hiff.mpr fun hreferred => hfree (hsubset hreferred), ?_⟩
    intro limit fuel rootName reserved result hlift
    obtain ⟨hreferences, _⟩ := liftWithin_grown hlift
    refine ⟨fun hinner name hname => ?_, fun hresult => hresult target, fun hresult name hname => ?_⟩
    · refine (hreferences name hname).resolve_right ?_
      rintro ⟨hreferred, habsent⟩
      exact habsent (hinner name hreferred)
    · rcases hreferences name hname with hdefined | ⟨hreferred, habsent⟩
      · exact hdefined
      · obtain rfl := (hbut name hreferred).resolve_left habsent
        exact hresult hname

/-- The root alone refers to its definition. -/
def ownedDraft : Json :=
  .obj [("$ref", .str "#/definitions/Pet"), ("definitions", .obj [
    ("Pet", .obj [("type", .str "object"), ("properties", .obj [("owner", refTo "Owner")])]),
    ("Owner", ofType (.str "object"))])]

theorem owned_resolved :
    Distinct ownedDraft ∧ target? ownedDraft = some "Pet" ∧ Resolved ownedDraft ∧
      ∃ inlined, inlineRoot ownedDraft = .ok inlined ∧ Resolved inlined ∧
        ∀ limit fuel rootName reserved result,
          liftWithin limit fuel inlined rootName reserved = .ok result → Resolved result := by
  have hdistinct : Distinct ownedDraft := (distinct_iff _).mp (by decide)
  have hresolved : Resolved ownedDraft := by decide
  have htarget : target? ownedDraft = some "Pet" := by decide
  obtain ⟨hinlines, hinlined⟩ := inlineRoot_resolved_iff hdistinct htarget hresolved
  obtain ⟨inlined, hinline⟩ := hinlines fun definition hget => by
    cases Option.some.inj hget
    rfl
  obtain ⟨_, hfree, hlift⟩ := hinlined inlined hinline
  have hinner : Resolved inlined := hfree (by decide)
  exact ⟨hdistinct, htarget, hresolved, inlined, hinline, hinner,
    fun limit fuel rootName reserved result h =>
      (hlift limit fuel rootName reserved result h).1 hinner⟩

/-- The root refers to a definition that refers to itself. -/
def loopDraft : Json :=
  .obj [("$ref", .str "#/definitions/Node"), ("definitions", .obj [
    ("Node", .obj [("type", .str "object"), ("properties", .obj [("next", refTo "Node")])])])]

/-- The reference stays, the definition is gone. -/
def loopInlined : Json :=
  .obj [("type", .str "object"), ("properties", .obj [("next", refTo "Node")]),
    ("definitions", .obj [])]

theorem loop_unresolved :
    Distinct loopDraft ∧ target? loopDraft = some "Node" ∧ Resolved loopDraft ∧
      inlineRoot loopDraft = .ok loopInlined ∧ ¬ Resolved loopInlined ∧
      lift loopInlined "Root" [] = .ok loopInlined := by
  have hdistinct : Distinct loopDraft := (distinct_iff _).mp (by decide)
  refine ⟨hdistinct, by decide, by decide, by decide +kernel, by decide, ?_⟩
  cbv

end RequestShapes.Schema
