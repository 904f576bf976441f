import RequestShapes.Proofs.Schema.Provenance

/-!
# Lifting keeps nodes traced

What lifting moves and copies comes from where it came from before, and the
references that it puts in stand for definitions that are traced. So all nodes of
the schema of a sample are traced back to the sample.
-/

namespace RequestShapes.Schema

variable {sample : Json}

/-! ## Maps that pass through nodes -/

theorem Traced.isObject {Stands : Json → Prop} (hstands : ∀ node, Stands node → node.isObject = true)
    {hops : List Hop} {node : Json} (h : Traced Stands sample hops node) : node.isObject = true := by
  cases h with
  | plain hplain =>
      obtain ⟨_, rfl, _⟩ := hplain.exists_leaf
      rfl
  | stands h => exact hstands node h
  | _ => rfl

theorem IsReference.isObject (node : Json) (h : IsReference node) : node.isObject = true := by
  obtain ⟨name, rfl⟩ := h
  rfl

/-- A map of nodes passes to what is inside of them and changes nothing else. -/
structure PassesThrough (f : Json → Json) : Prop where
  empty : f .empty = .empty
  plain : ∀ node, Plain node → f node = node
  array : ∀ items, f (ofArray items) = ofArray (f items)
  anyOf : ∀ alternatives, f (anyOf alternatives) = anyOf (alternatives.map f)
  object : ∀ (properties : List (String × Json)) (required : List String) (title : String),
    (∀ entry ∈ properties, entry.2.isObject = true) →
    f (closedObject properties (.arr (required.map .str)) title) =
      closedObject (properties.map fun entry => (entry.1, f entry.2)) (.arr (required.map .str)) title

/-- What passes through nodes keeps them traced. -/
theorem Traced.map {Stands Other : Json → Prop} {f : Json → Json} (hf : PassesThrough f)
    (hobject : ∀ node, Stands node → node.isObject = true)
    (hstands : ∀ node, Stands node → Other (f node)) {hops : List Hop} {node : Json}
    (h : Traced Stands sample hops node) : Traced Other sample hops (f node) := by
  induction h with
  | empty hempty =>
      rw [hf.empty]
      exact .empty hempty
  | plain hplain => exact (hf.plain _ hplain).symm ▸ .plain hplain
  | stands h => exact .stands (hstands _ h)
  | array _ ih => exact hf.array _ ▸ .array ih
  | anyOf hlength _ ih =>
      rw [hf.anyOf]
      refine .anyOf (by rwa [List.length_map]) fun node hmem => ?_
      obtain ⟨other, hother, rfl⟩ := List.mem_map.mp hmem
      exact ih other hother
  | object hproperties ih =>
      rw [hf.object _ _ _ fun entry hmem => (hproperties entry hmem).isObject hobject]
      refine .object fun entry hmem => ?_
      obtain ⟨other, hother, rfl⟩ := List.mem_map.mp hmem
      exact ih other hother

theorem TracedTable.map {Stands Other : Json → Prop} {f : Json → Json} (hf : PassesThrough f)
    (hobject : ∀ node, Stands node → node.isObject = true)
    (hstands : ∀ node, Stands node → Other (f node)) {definitions : Table Json}
    (h : TracedTable Stands sample definitions) :
    TracedTable Other sample (definitions.map fun entry => (entry.1, f entry.2)) := by
  intro entry hmem
  obtain ⟨other, hother, rfl⟩ := List.mem_map.mp hmem
  obtain ⟨hops, htraced⟩ := h other hother
  exact ⟨hops, htraced.map hf hobject hstands⟩

theorem target?_members {members : List (String × Json)}
    (h : ∀ entry ∈ members, entry.2.isObject = true) : target? (.obj members) = none := by
  rw [target?, Json.get?]
  split
  next hget =>
    have hobject := h _ (Table.mem_of_get? hget)
    cases hobject
  next => rfl

theorem Plain.targets {node : Json} (h : Plain node) : targets node = [] := by
  have hscalar {type : Json} {name : String} {rest : List (String × Json)} (h : Scalar name rest)
      (htype : Schema.targets type = []) : Schema.targets (.obj (("type", type) :: rest)) = [] := by
    cases h <;> simp [Schema.targets, memberTargets, target?, Json.get?, Table.get?, htype]
  cases h with
  | null => rfl
  | scalar h => exact hscalar h rfl
  | nullable h => exact hscalar h rfl

theorem retarget_ofArray (old new : String) (items : Json) :
    retarget old new (ofArray items) = ofArray (retarget old new items) := by
  have hnone : target? (.obj [("type", .str "array"), ("items", items)]) = none := rfl
  simp [ofArray, retarget, retargetMembers, hnone]

theorem retargetMembers_eq_map (old new : String) (members : List (String × Json)) :
    retargetMembers old new members =
      members.map fun entry => (entry.1, retarget old new entry.2) := by
  induction members with
  | nil => rfl
  | cons entry rest ih => rw [retargetMembers, ih, List.map_cons]

theorem passesThrough_retarget (old new : String) : PassesThrough (retarget old new) where
  empty := rfl
  plain node h := retarget_eq_self node fun hmem => by
    rw [h.targets] at hmem
    cases hmem
  array := retarget_ofArray old new
  anyOf alternatives := by
    have hnone : target? (.obj [("anyOf", .arr alternatives)]) = none := rfl
    simp [anyOf, retarget, retargetMembers, retargetItems_eq_map, hnone]
  object properties required title h := by
    have hnone : target? (closedObject properties (.arr (required.map .str)) title) = none := rfl
    have hrequired : retargetItems old new (required.map .str) = required.map .str := by
      rw [retargetItems_eq_map, List.map_map]
      rfl
    rw [closedObject] at hnone ⊢
    simp [retarget, retargetMembers, hnone, target?_members h, retargetMembers_eq_map, hrequired,
      closedObject]

theorem retarget_refTo (old new name : String) :
    retarget old new (refTo name) = refTo (if name = old then new else name) := by
  have htarget : target? (.obj [("$ref", .str (definitionsPath ++ name))]) = some name :=
    target?_refTo name
  by_cases hname : name = old
  · subst hname
    simp [refTo, retarget, retargetMembers, htarget, Json.set, Table.set]
  · simp [refTo, retarget, retargetMembers, htarget, hname]

theorem retarget_isReference (old new : String) (node : Json) (h : IsReference node) :
    IsReference (retarget old new node) := by
  obtain ⟨name, rfl⟩ := h
  exact ⟨_, retarget_refTo old new name⟩

/-- A node whose references are turned to another definition. -/
theorem Traced.retarget {hops : List Hop} {node : Json} (h : Traced IsReference sample hops node)
    (old new : String) : Traced IsReference sample hops (retarget old new node) :=
  h.map (passesThrough_retarget old new) IsReference.isObject (retarget_isReference old new)

/-! ## Forms of traced nodes -/

section Forms

variable {hops : List Hop} {node : Json}

theorem Traced.of_array (h : Traced IsReference sample hops node) (harray : isArray node = true) :
    ∃ items, node = ofArray items ∧ Traced IsReference sample (hops ++ [.element]) items := by
  cases h with
  | array hitems => exact ⟨_, rfl, hitems⟩
  | plain hplain =>
      obtain ⟨_, rfl, hleaf⟩ := hplain.exists_leaf
      rw [hleaf.plain.2.1] at harray
      cases harray
  | stands hstands =>
      obtain ⟨_, rfl⟩ := hstands
      cases harray
  | _ => cases harray

theorem Traced.of_properties (h : Traced IsReference sample hops node)
    {properties : List (String × Json)} (hget : node.get? "properties" = some (.obj properties)) :
    ∃ (required : List String) (title : String),
      node = closedObject properties (.arr (required.map .str)) title ∧
        ∀ entry ∈ properties, Traced IsReference sample (hops ++ [.key entry.1]) entry.2 := by
  cases h with
  | @object _ others required title hproperties =>
      obtain rfl : others = properties := by
        simpa [closedObject, Json.get?, Table.get?] using hget
      exact ⟨required, title, rfl, hproperties⟩
  | plain hplain =>
      obtain ⟨_, rfl, hleaf⟩ := hplain.exists_leaf
      rw [Json.get?, hleaf.plain.2.2] at hget
      cases hget
  | stands hstands =>
      obtain ⟨_, rfl⟩ := hstands
      cases hget
  | _ => cases hget

end Forms

/-- The sample itself is found without a hop, so its schema is not empty. -/
theorem Traced.isVacant_nil {node : Json} (h : Traced IsReference sample [] node) :
    node.isVacant = false := by
  generalize hhops : ([] : List Hop) = hops at h
  cases h with
  | empty => simp at hhops
  | plain hplain => cases hplain <;> rfl
  | stands hstands =>
      obtain ⟨_, rfl⟩ := hstands
      rfl
  | _ => rfl

/-! ## Lifting -/

/-- The definitions that may still be copied are no arrays, and are traced. -/
def Scope.Traces (sample : Json) (scope : Scope) : Prop :=
  ∀ entry ∈ scope.pending, isArray entry.2 = false ∧ ∃ hops, Traced IsReference sample hops entry.2

/-- What is lifted is traced; of a list of properties, each is. -/
def Part.Traces (sample : Json) (hops : List Hop) : Part → Json → Prop
  | .members, node => ∃ members, node = .obj members ∧
      ∀ entry ∈ members, Traced IsReference sample (hops ++ [.key entry.1]) entry.2
  | _, node => Traced IsReference sample hops node

theorem Part.MayRefer.traces_refTo {part : Part} {node : Json} (h : part.MayRefer node)
    (hops : List Hop) (name : String) : part.Traces sample hops (refTo name) := by
  cases part with
  | property | item => exact .stands ⟨name, rfl⟩
  | _ => exact h.elim

theorem Part.Moves.traces_refTo {scope : Scope} {part : Part} {node : Json}
    (h : part.Moves scope node) (hops : List Hop) (name : String) :
    part.Traces sample hops (refTo name) := by
  cases part with
  | property | item => exact .stands ⟨name, rfl⟩
  | _ => exact h.elim

theorem Part.Moves.traced {scope : Scope} {part : Part} {node : Json} (h : part.Moves scope node)
    {hops : List Hop} (htraces : part.Traces sample hops node) :
    Traced IsReference sample hops node := by
  cases part with
  | property | item => exact htraces
  | _ => exact h.elim

/-- Lifting keeps what is lifted traced, and all definitions. -/
theorem Lifts.traced {part : Part} {scope : Scope} {definitions later : Table Json}
    {node lifted : Json} {path : String}
    (h : Lifts part scope definitions node path lifted later) (hscope : scope.Traces sample)
    {hops : List Hop} (hnode : part.Traces sample hops node)
    (hdefinitions : TracedTable IsReference sample definitions) :
    part.Traces sample hops lifted ∧ TracedTable IsReference sample later := by
  induction h generalizing hops with
  | plain | nil | kept => exact ⟨hnode, hdefinitions⟩
  | back hrefer => exact ⟨hrefer.traces_refTo hops _, hdefinitions⟩
  | within hget _ ih =>
      obtain ⟨required, title, rfl, hproperties⟩ := Traced.of_properties hnode hget
      obtain ⟨⟨lifted, heq, hlifted⟩, hlater⟩ := ih hscope ⟨_, rfl, hproperties⟩ hdefinitions
      cases heq
      exact ⟨.object hlifted, hlater⟩
  | cons _ _ ihvalue ihrest =>
      obtain ⟨members, heq, hmembers⟩ := hnode
      cases heq
      obtain ⟨hvalue, hrest⟩ := List.forall_mem_cons.mp hmembers
      obtain ⟨hlifted, hmiddle⟩ := ihvalue hscope hvalue hdefinitions
      obtain ⟨⟨others, heq, hothers⟩, hlater⟩ := ihrest hscope ⟨_, rfl, hrest⟩ hmiddle
      cases heq
      exact ⟨⟨_, rfl, List.forall_mem_cons.mpr ⟨hlifted, hothers⟩⟩, hlater⟩
  | moved hmoves _ _ _ ih =>
      have hbody := hmoves.traced hnode
      obtain ⟨hlifted, hlater⟩ := ih hscope hbody (hdefinitions.set hbody _)
      exact ⟨hmoves.traces_refTo hops _, hlater.set hlifted _⟩
  | copied hrefer _ _ _ hget _ _ _ ih =>
      obtain ⟨_, origin, hdefinition⟩ := hscope _ (Table.mem_of_get? hget)
      obtain ⟨hlifted, hlater⟩ := ih (fun entry hmem => hscope entry (List.mem_of_mem_filter hmem))
        hdefinition (hdefinitions.set hdefinition _)
      exact ⟨hrefer.traces_refTo hops _, hlater.set hlifted _⟩
  | copiedArray _ _ _ _ hget hdefinition =>
      rw [(hscope _ (Table.mem_of_get? hget)).1] at hdefinition
      cases hdefinition
  | direct hpart _ _ ih =>
      rcases hpart with rfl | rfl <;> exact ih hscope hnode hdefinitions
  | array harray _ _ ih =>
      obtain ⟨items, rfl, hitems⟩ := Traced.of_array hnode harray
      rw [itemsOf_ofArray (hitems.isObject IsReference.isObject)] at ih
      obtain ⟨hlifted, hlater⟩ := ih hscope hitems hdefinitions
      exact ⟨.stands ⟨_, rfl⟩, hlater.set (.array hlifted) _⟩

/-- A root that says something and is no reference, with the dialect in front, is
traced. -/
def TracedRoot (Stands : Json → Prop) (sample : Json) (schema : Json) : Prop :=
  ∃ root hops, schema = declared root ∧ target? root = none ∧ root.isVacant = false ∧
    Traced Stands sample hops root

theorem liftRoot_traced {scope : Scope} {root lifted : Json} {path : String}
    {definitions : Table Json} (h : liftRoot scope root path = .ok (lifted, definitions))
    (hscope : scope.Traces sample) (hroot : TracedRoot IsReference sample root) :
    TracedRoot IsReference sample lifted ∧ TracedTable IsReference sample definitions := by
  obtain ⟨root, hops, rfl, hnone, hfilled, htraced⟩ := hroot
  have hobject := htraced.isObject IsReference.isObject
  rw [liftRoot] at h
  split at h
  next harray =>
    rw [isArray_declared hobject] at harray
    obtain ⟨items, rfl, hitems⟩ := htraced.of_array harray
    obtain ⟨⟨inner, later⟩, hitem, heq⟩ := bind_eq_ok h
    cases heq
    have heq : (Json.filled? ((declared (ofArray items)).get? "items")).getD .empty = items :=
      itemsOf_ofArray (hitems.isObject IsReference.isObject)
    rw [heq] at hitem
    obtain ⟨hinner, hlater⟩ := (lifts_of_liftItem hitem).traced hscope hitems
      (fun _ hmem => (by cases hmem))
    exact ⟨⟨ofArray inner, hops, rfl, rfl, rfl, .array hinner⟩, hlater⟩
  next =>
    cases lifts_of_liftProperties h with
    | plain => exact ⟨⟨root, hops, rfl, hnone, hfilled, htraced⟩, fun _ hmem => (by cases hmem)⟩
    | within hget hmembers =>
        rw [get?_declared hobject (by decide)] at hget
        obtain ⟨required, title, rfl, hproperties⟩ := htraced.of_properties hget
        obtain ⟨⟨lifted, heq, hlifted⟩, hlater⟩ := hmembers.traced hscope ⟨_, rfl, hproperties⟩
          (fun _ hmem => (by cases hmem))
        cases heq
        exact ⟨⟨_, hops, rfl, rfl, rfl, .object hlifted⟩, hlater⟩
    | back hrefer | copied hrefer | copiedArray hrefer => exact hrefer.elim
    | moved hmoves => exact hmoves.elim
    | direct hpart => rcases hpart with heq | heq <;> cases heq

/-! ## Taking definitions over -/

theorem retarget_declared {root : Json} (old new : String) (hobject : root.isObject = true)
    (hnone : target? root = none) :
    retarget old new (declared root) = declared (retarget old new root) := by
  have hnone' := (target?_declared hobject).trans hnone
  cases root with
  | obj members =>
      simp only [declared, Json.members] at hnone' ⊢
      simp [retarget, retargetMembers, hnone, hnone']
  | _ => cases hobject

theorem TracedRoot.retarget {root : Json} (h : TracedRoot IsReference sample root)
    (old new : String) : TracedRoot IsReference sample (retarget old new root) := by
  obtain ⟨root, hops, rfl, hnone, hfilled, htraced⟩ := h
  exact ⟨_, hops, retarget_declared old new (htraced.isObject IsReference.isObject) hnone,
    by rw [target?_retarget, hnone, Option.map_none], by rw [isVacant_retarget, hfilled],
    htraced.retarget old new⟩

theorem adoptOne_traced {scope : Scope} {root root' node : Json} {definitions later : Table Json}
    {target : String} (h : adoptOne scope root definitions target node = .ok (root', later))
    (hscope : scope.Traces sample) {hops : List Hop} (hnode : Traced IsReference sample hops node)
    (hroot : TracedRoot IsReference sample root)
    (hdefinitions : TracedTable IsReference sample definitions) :
    TracedRoot IsReference sample root' ∧ TracedTable IsReference sample later := by
  obtain ⟨name, lifted, middle, _, hlifts, rfl, rfl⟩ := adoptOne_eq_ok h
  have hturned := hdefinitions.map (passesThrough_retarget target name) IsReference.isObject
    (retarget_isReference target name)
  have hbody := hnode.retarget target name
  obtain ⟨hlifted, hmiddle⟩ := (lifts_of_liftProperties hlifts).traced hscope hbody
    (hturned.set hbody name)
  exact ⟨hroot.retarget target name, hmiddle.set hlifted name⟩

theorem adopt_traced {scope : Scope} {fuel : Nat} {root root' : Json}
    {definitions later : Table Json} (h : adopt scope fuel root definitions = .ok (root', later))
    (hscope : scope.Traces sample) (hroot : TracedRoot IsReference sample root)
    (hdefinitions : TracedTable IsReference sample definitions) :
    TracedRoot IsReference sample root' ∧ TracedTable IsReference sample later := by
  refine (adopt_invariant (fun _ root definitions => TracedRoot IsReference sample root ∧
    TracedTable IsReference sample definitions) ?_ ⟨hroot, hdefinitions⟩ h).1
  rintro _ root definitions target node _ _ ⟨hroot, hdefinitions⟩ hmissing hone
  obtain ⟨_, _, hget⟩ := missing?_eq_some hmissing
  obtain ⟨_, hops, hnode⟩ := hscope _ (Table.mem_of_get? hget)
  exact adoptOne_traced hone hscope hnode hroot hdefinitions

/-- The result of lifting is traced if the draft is. -/
theorem lift_traced {draft result : Json} {rootName : String} {reserved : List String}
    (h : lift draft rootName reserved = .ok result)
    (hroot : TracedRoot IsReference sample (rootOf draft))
    (hdefinitions : ∀ entry ∈ definitionsOf draft,
      isArray entry.2 = false ∧ ∃ hops, Traced IsReference sample hops entry.2) :
    TracedRoot IsReference sample (rootOf result) ∧
      TracedTable IsReference sample (definitionsOf result) := by
  obtain ⟨root, definitions, hlift, hadopt⟩ := lift_phases h
  obtain ⟨hlifted, hlater⟩ := liftRoot_traced hlift hdefinitions hroot
  exact adopt_traced hadopt hdefinitions hlifted hlater

/-! ## The schema of a sample -/

/-- The draft of a sample is traced when its root has been inlined. -/
theorem inlineRoot_traced {schema inlined : Json} (h : Summarizes (· = sample) schema)
    {name : String} (hinline : inlineRoot (draftOf schema name) = .ok inlined) :
    TracedRoot IsReference sample (rootOf inlined) ∧
      ∀ entry ∈ definitionsOf inlined,
        isArray entry.2 = false ∧ ∃ hops, Traced IsReference sample hops entry.2 := by
  generalize hname : (if (Identifier.pascalCase name).isEmpty then "Root"
    else Identifier.pascalCase name) = rootName
  have hshares := h.normal.shareable [] rootName .nil
  obtain ⟨hroot, hdefinitions⟩ := h.sharesTraced [] (observesAll_of_eq (fun _ => Iff.rfl) _)
    (fun heq => absurd rfl ((heq ▸ h).not_observed sample)) [] rootName
    (fun _ hmem => (nomatch hmem))
  generalize hshare : share [] schema rootName = shared at hshares hroot hdefinitions
  obtain ⟨root, definitions⟩ := shared
  rw [draftOf_eq (hname ▸ hshare) hshares.drafted] at hinline
  have hshapes : ∀ entry ∈ definitions,
      isArray entry.2 = false ∧ ∃ hops, Traced IsReference sample hops entry.2 := by
    intro entry hmem
    obtain ⟨_, _, _, heq, _⟩ :=
      hshares.layered.isShape (Table.get?_of_mem hshares.layered.nodup hmem)
    exact ⟨by rw [heq]; rfl, hdefinitions entry hmem⟩
  cases htarget : target? root with
  | none =>
      rw [inlineRoot_node hshares.drafted.isObject htarget] at hinline
      cases hinline
      obtain ⟨hrootOf, hparts⟩ := @parts_draftWith definitions root hshares.drafted.isObject
        (hshares.drafted.get?_eq_none (by decide))
      rw [hrootOf, hparts]
      exact ⟨⟨root, [], rfl, htarget, hroot.isVacant_nil, hroot⟩, hshapes⟩
  | some final =>
      obtain rfl : root = refTo final := hshares.drafted.eq_refTo htarget
      obtain ⟨definition, hget⟩ := Table.exists_get?_of_mem_names
        (hshares.resolves final (mem_targets_of_target? htarget))
      obtain ⟨properties, required, title, rfl, _⟩ := hshares.layered.isShape hget
      obtain ⟨_, hops, htraced⟩ := hshapes _ (Table.mem_of_get? hget)
      rw [inlineRoot_shape hget] at hinline
      cases hinline
      obtain ⟨hrootOf, hparts⟩ := @parts_draftWith (Table.erase definitions final)
        (closedObject properties (.arr (required.map .str)) title) rfl rfl
      rw [hrootOf, hparts]
      exact ⟨⟨_, hops, rfl, rfl, rfl, htraced⟩,
        fun entry hmem => hshapes entry (List.mem_of_mem_filter hmem)⟩

/-- Every sample has a schema whose nodes are all traced and whose references are
to definitions of its own. -/
theorem lift_sample (name : String) (sample : Json) (reserved : List String)
    (hdistinct : Distinct sample) :
    ∃ schema inlined result, draft name [sample] = .ok schema ∧ inlineRoot schema = .ok inlined ∧
      lift inlined name reserved = .ok result ∧
      TracedRoot IsReference sample (rootOf result) ∧
      TracedTable IsReference sample (definitionsOf result) ∧
      ∀ target ∈ referred (rootOf result) (definitionsOf result),
        target ∈ Table.names (definitionsOf result) := by
  obtain ⟨inferred, hinfer, hsummarizes⟩ := infer_summarizes sample hdistinct
  obtain ⟨root, definitions, hinline, hroot, hlayered, hresolves, _⟩ :=
    inlineRoot_draftOf hsummarizes.normal name
  obtain ⟨hrootOf, hdefinitions⟩ :=
    @parts_draftWith definitions root hroot.isObject hroot.get?_definitions
  have hacyclic : Acyclic (definitionsOf (draftWith root definitions)) fun _ => True := by
    rw [hdefinitions]
    exact hlayered.acyclic
  obtain ⟨result, hlift⟩ := @lift_ok (draftWith root definitions) rfl
    (by rw [hrootOf]; exact hroot.orderly.declared hroot.isObject)
    (by rw [hdefinitions]; exact hlayered.orderly) hacyclic name reserved
  obtain ⟨htraced, hshapes⟩ := inlineRoot_traced hsummarizes hinline
  obtain ⟨htracedRoot, htracedTable⟩ := lift_traced hlift htraced hshapes
  refine ⟨_, _, result, ?_, hinline, hlift, htracedRoot, htracedTable, ?_⟩
  · rw [draft, ofSamples_singleton hinfer, ok_bind]
  · refine lift_resolves ?_ hacyclic hlift
    rw [hdefinitions]
    exact targets_draftWith hlayered hroot.isObject hresolves

end RequestShapes.Schema
