import RequestShapes.Proofs.Endpoint.Declaring
import RequestShapes.Proofs.Zod.Rendering

/-!
# No reference is lost on the way to the text

The nodes that a component declares hold no reference any more. Each marker in
them names a constant that the same component declares, so what accepts everything
was written for the items of empty arrays and for nothing else.
-/

namespace RequestShapes.Endpoint

open Schema (Distinct FullyMarked IsReference TracedRoot TracedTable referred)

theorem names_constantsOf (definitions : Table Json) :
    Table.names (Schema.constantsOf definitions) = Table.names definitions := by
  simp [Schema.constantsOf, Table.names]

/-- Every definition has a constant. -/
theorem get?_constantsOf {definitions : Table Json} {name : String}
    (h : name ∈ Table.names definitions) :
    Table.get? (Schema.constantsOf definitions) name =
      some (Identifier.schemaConstant (Identifier.pascalCase name)) := by
  obtain ⟨node, hget⟩ := Table.exists_get?_of_mem_names h
  have hmapped := Table.get?_mapValues definitions
    (fun name _ => Identifier.schemaConstant (Identifier.pascalCase name)) name
  rw [hget] at hmapped
  exact hmapped

/-- The constants of the definitions are declared. -/
theorem constant_mem_declaredNodes {base constant : String} {schema : Json}
    (h : constant ∈ (Schema.constantsOf (Schema.definitionsOf schema)).map Prod.snd) :
    constant ∈ (declaredNodes base schema).map Prod.fst := by
  obtain ⟨entry, hentry, rfl⟩ := List.mem_map.mp h
  obtain ⟨definition, hdefinition, rfl⟩ := List.mem_map.mp hentry
  have hname : definition.1 ∈ Table.names (Schema.definitionsOf schema) :=
    List.mem_map_of_mem hdefinition
  refine List.mem_map.mpr ⟨_, List.mem_append_left _ (List.mem_map_of_mem hdefinition), ?_⟩
  simp only [get?_constantsOf hname, Option.getD_some]

/-- Every constant of a sample's schema has a fully marked node, which denotes an
expression. -/
theorem declaredNodes_resolved {base : String} {sample schema : Json}
    (hroot : TracedRoot IsReference sample (Schema.rootOf schema))
    (hdefinitions : TracedTable IsReference sample (Schema.definitionsOf schema))
    (hresolves : ∀ target ∈ referred (Schema.rootOf schema) (Schema.definitionsOf schema),
      target ∈ Table.names (Schema.definitionsOf schema)) :
    ∀ entry ∈ declaredNodes base schema,
      FullyMarked ((declaredNodes base schema).map Prod.fst) entry.2 ∧
        ∃ hops, Zod.Rendered sample hops entry.2 := by
  have hconstants : ∀ target ∈ referred (Schema.rootOf schema) (Schema.definitionsOf schema),
      target ∈ Table.names (Schema.constantsOf (Schema.definitionsOf schema)) := by
    rw [names_constantsOf]
    exact hresolves
  intro entry hmem
  rcases List.mem_append.mp hmem with hmapped | hlast
  · obtain ⟨definition, hdefinition, rfl⟩ := List.mem_map.mp hmapped
    obtain ⟨hops, htraced⟩ := hdefinitions definition hdefinition
    have hmarked := htraced.mark fun target htarget => hconstants target (List.mem_flatMap.mpr
      ⟨_, List.mem_cons_of_mem _ (List.mem_map_of_mem hdefinition), htarget⟩)
    exact ⟨hmarked.fullyMarked.mono fun _ => constant_mem_declaredNodes, hops,
      Zod.rendered_of_traced hmarked⟩
  · obtain rfl := List.mem_singleton.mp hlast
    have hmarked := hroot.mark fun target htarget =>
      hconstants target (Schema.targets_root_subset htarget)
    exact ⟨hmarked.fullyMarked.mono fun _ => constant_mem_declaredNodes,
      Zod.exists_rendered_of_tracedRoot hmarked⟩

/-- A sample that says something has a schema, in which nothing is lost. -/
theorem sampleSchema_resolved (base : String) {sample : Json} (reserved : List String)
    (hdistinct : Distinct sample) : ∃ schema, sampleSchema base sample reserved = .ok schema ∧
      ∀ entry ∈ declaredNodes base schema,
        FullyMarked ((declaredNodes base schema).map Prod.fst) entry.2 ∧
          ∃ hops, Zod.Rendered sample hops entry.2 := by
  obtain ⟨draft, inlined, schema, hdraft, hinlined, hlift, hroot, hdefinitions, hresolves⟩ :=
    Schema.lift_sample base sample reserved hdistinct
  exact ⟨schema, sampleSchema_eq_ok.mpr ⟨draft, inlined, hdraft, hinlined, hlift⟩,
    declaredNodes_resolved hroot hdefinitions hresolves⟩

/-- A sample that can be written has a component. -/
theorem exists_component (name : String) {sample : Json} (reserved : List String)
    (hdistinct : Distinct sample) (hwritable : sample.writable = true) :
    ∃ component, Synthesizer.standard.component name sample reserved = .ok component := by
  by_cases hblank : isBlankSample sample = true
  · exact ⟨_, component_blank hblank⟩
  · obtain ⟨schema, hschema, hnodes⟩ :=
      sampleSchema_resolved (Identifier.pascalCase name) reserved hdistinct
    have hsegments : ∀ entry ∈ declaredNodes (Identifier.pascalCase name) schema,
        ∃ segment, Declares entry segment := by
      intro entry hmem
      obtain ⟨_, _, expr, hexpr, _⟩ := hnodes entry hmem
      exact ⟨_, expr, hexpr, rfl⟩
    choose! segment hsegment using hsegments
    refine ⟨⟨(declaredNodes (Identifier.pascalCase name) schema).map segment,
      List.zipWith typeExport (declaredTypes (Identifier.pascalCase name) schema)
        ((declaredNodes (Identifier.pascalCase name) schema).map Prod.fst),
      declaredTypes (Identifier.pascalCase name) schema⟩,
      (component_eq_ok (by simpa using hblank)).mpr ⟨hwritable, schema, hschema, ?_, rfl, rfl⟩⟩
    exact List.forall₂_map_right_iff.mpr (List.forall₂_same.mpr hsegment)

/-- Every sample that can be written yields a component. None of the nodes that it
declares holds a reference, every marker in them is of a constant that one of its
segments declares, and where an expression accepts everything the schema in the
same place is empty and was made for the items of arrays without any. -/
theorem component_resolves (name : String) (sample : Json) (reserved : List String)
    (hdistinct : Distinct sample) (hsample : isBlankSample sample = false) :
    (sample.writable = true →
      ∃ component, Synthesizer.standard.component name sample reserved = .ok component) ∧
    ∀ component, Synthesizer.standard.component name sample reserved = .ok component →
      ∃ schema, sampleSchema (Identifier.pascalCase name) sample reserved = .ok schema ∧
        List.Forall₂ Declares (declaredNodes (Identifier.pascalCase name) schema)
          component.segments ∧
        ∀ entry ∈ declaredNodes (Identifier.pascalCase name) schema,
          FullyMarked ((declaredNodes (Identifier.pascalCase name) schema).map Prod.fst) entry.2 ∧
            ∃ hops, Zod.Rendered sample hops entry.2 := by
  refine ⟨exists_component name reserved hdistinct, fun component hcomponent => ?_⟩
  obtain ⟨schema, hschema, hnodes⟩ :=
    sampleSchema_resolved (Identifier.pascalCase name) reserved hdistinct
  obtain ⟨_, other, hother, hsegments, _⟩ := (component_eq_ok hsample).mp hcomponent
  obtain rfl := Except.ok.inj (hschema.symm.trans hother)
  exact ⟨schema, hschema, hsegments, hnodes⟩

/-- A shop with a pet, a gap and a shelf that is empty. -/
def shelfSample : Json :=
  .obj [("pets", .arr [.obj [("age", .int 1)], .null]), ("shelf", .arr [])]

theorem shelfSample_resolves :
    Distinct shelfSample ∧ isBlankSample shelfSample = false ∧ shelfSample.writable = true ∧
      ∃ component schema,
        Synthesizer.standard.component "shop" shelfSample ["Pets"] = .ok component ∧
        sampleSchema (Identifier.pascalCase "shop") shelfSample ["Pets"] = .ok schema ∧
        List.Forall₂ Declares (declaredNodes (Identifier.pascalCase "shop") schema)
          component.segments ∧
        ∀ entry ∈ declaredNodes (Identifier.pascalCase "shop") schema,
          FullyMarked ((declaredNodes (Identifier.pascalCase "shop") schema).map Prod.fst) entry.2 ∧
            ∃ hops, Zod.Rendered shelfSample hops entry.2 := by
  have hdistinct : Distinct shelfSample := by decide
  have hwritable : shelfSample.writable = true := by
    simp [shelfSample, Json.writable, Json.membersWritable, Json.itemsWritable, integerFits_one]
  obtain ⟨hsome, hall⟩ := component_resolves "shop" shelfSample ["Pets"] hdistinct rfl
  obtain ⟨component, hcomponent⟩ := hsome hwritable
  obtain ⟨schema, hschema, hsegments, hnodes⟩ := hall component hcomponent
  exact ⟨hdistinct, rfl, hwritable, component, schema, hcomponent, hschema, hsegments, hnodes⟩

end RequestShapes.Endpoint
