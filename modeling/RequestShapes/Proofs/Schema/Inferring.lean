import RequestShapes.Proofs.Schema.Summarizing

/-!
# Inferred schemas describe their samples

Merging never fails on inferred schemas and ends within the depth it is given.
So every value has a schema, which is made of this value alone and describes it,
and every list of samples has a schema that is made of them.
-/

namespace RequestShapes.Schema

/-! ## Values without repeated names -/

/-- No object inside of a value has a name twice. -/
inductive Distinct : Json → Prop
  | scalar {value : Json} : value.isContainer = false → Distinct value
  | arr {items : List Json} : (∀ item ∈ items, Distinct item) → Distinct (.arr items)
  | obj {members : List (String × Json)} : (Table.names members).Nodup →
      (∀ entry ∈ members, Distinct entry.2) → Distinct (.obj members)

mutual

/-- Whether no object inside of a value has a name twice. -/
def distinct : Json → Bool
  | .obj members => decide (Table.names members).Nodup && distinctMembers members
  | .arr items => distinctItems items
  | _ => true

/-- Whether no object inside of items has a name twice. -/
def distinctItems : List Json → Bool
  | [] => true
  | item :: items => distinct item && distinctItems items

/-- Whether no object inside of members has a name twice. -/
def distinctMembers : List (String × Json) → Bool
  | [] => true
  | (_, value) :: members => distinct value && distinctMembers members

end

theorem distinctItems_iff (items : List Json) :
    distinctItems items = true ↔ ∀ item ∈ items, distinct item = true := by
  induction items with
  | nil => simp [distinctItems]
  | cons item items ih => rw [distinctItems, Bool.and_eq_true, ih, List.forall_mem_cons]

theorem distinctMembers_iff (members : List (String × Json)) :
    distinctMembers members = true ↔ ∀ entry ∈ members, distinct entry.2 = true := by
  induction members with
  | nil => simp [distinctMembers]
  | cons entry members ih =>
      rw [distinctMembers, Bool.and_eq_true, ih, List.forall_mem_cons]

theorem distinct_of_true (value : Json) (h : distinct value = true) : Distinct value := by
  match value, h with
  | .obj members, h =>
      rw [distinct, Bool.and_eq_true, decide_eq_true_iff, distinctMembers_iff] at h
      exact .obj h.1 fun entry hmem =>
        have := List.sizeOf_lt_of_mem hmem
        distinct_of_true entry.2 (h.2 entry hmem)
  | .arr items, h =>
      rw [distinct, distinctItems_iff] at h
      exact .arr fun item hmem =>
        have := List.sizeOf_lt_of_mem hmem
        distinct_of_true item (h item hmem)
  | .null, _ | .bool _, _ | .int _, _ | .float _, _ | .str _, _ => exact .scalar rfl
termination_by sizeOf value
decreasing_by
  · obtain ⟨name, value⟩ := entry
    simp only [Json.obj.sizeOf_spec, Prod.mk.sizeOf_spec] at *
    omega
  · simp only [Json.arr.sizeOf_spec]
    omega

theorem distinct_iff (value : Json) : distinct value = true ↔ Distinct value := by
  refine ⟨distinct_of_true value, fun h => ?_⟩
  induction h with
  | @scalar value hscalar => cases value <;> first | rfl | cases hscalar
  | arr _ ih =>
      rw [distinct, distinctItems_iff]
      exact ih
  | obj hnodup _ ih =>
      rw [distinct, Bool.and_eq_true, decide_eq_true_iff, distinctMembers_iff]
      exact ⟨hnodup, ih⟩

instance : DecidablePred Distinct := fun value => decidable_of_iff _ (distinct_iff value)

theorem Distinct.of_arr {items : List Json} (h : Distinct (.arr items)) :
    ∀ item ∈ items, Distinct item := by
  cases h with
  | scalar hscalar => cases hscalar
  | arr hitems => exact hitems

theorem Distinct.of_obj {members : List (String × Json)} (h : Distinct (.obj members)) :
    (Table.names members).Nodup ∧ ∀ entry ∈ members, Distinct entry.2 := by
  cases h with
  | scalar hscalar => cases hscalar
  | obj hnodup hmembers => exact ⟨hnodup, hmembers⟩

/-! ## Inference -/

theorem inferItems_ok {R : Json → Json → Prop} {items : List Json}
    (h : ∀ item ∈ items, ∃ schema, infer item = .ok schema ∧ R item schema) :
    ∃ schemas, inferItems items = .ok schemas ∧ List.Forall₂ R items schemas := by
  induction items with
  | nil => exact ⟨[], by rw [inferItems], .nil⟩
  | cons item rest ih =>
      obtain ⟨⟨schema, hschema, hitem⟩, hrest⟩ := List.forall_mem_cons.mp h
      obtain ⟨schemas, hschemas, hall⟩ := ih hrest
      exact ⟨schema :: schemas, by rw [inferItems, hschema, ok_bind, hschemas, ok_bind],
        .cons hitem hall⟩

theorem inferMembers_ok {R : Json → Json → Prop} {members : List (String × Json)}
    (h : ∀ entry ∈ members, ∃ schema, infer entry.2 = .ok schema ∧ R entry.2 schema) :
    ∃ schemas, inferMembers members = .ok schemas ∧
      List.Forall₂ (fun entry other => other.1 = entry.1 ∧ R entry.2 other.2) members schemas := by
  induction members with
  | nil => exact ⟨[], by rw [inferMembers], .nil⟩
  | cons entry rest ih =>
      obtain ⟨name, value⟩ := entry
      obtain ⟨⟨schema, hschema, hentry⟩, hrest⟩ := List.forall_mem_cons.mp h
      obtain ⟨schemas, hschemas, hall⟩ := ih hrest
      exact ⟨(name, schema) :: schemas,
        by rw [inferMembers, hschema, ok_bind, hschemas, ok_bind], .cons ⟨rfl, hentry⟩ hall⟩

/-- The schema of an array holds what the schemas of its items merge to. -/
theorem infer_arr {items schemas : List Json} {merged : Json}
    (hschemas : inferItems items = .ok schemas) (hmerged : merge schemas = .ok merged) :
    infer (.arr items) = .ok (ofArray merged) := by
  cases items with
  | nil =>
      rw [inferItems] at hschemas
      cases hschemas
      cases hmerged
      rw [infer]
  | cons first rest =>
      rw [infer, hschemas, ok_bind, hmerged, ok_bind]
      exact fun heq => (by cases heq)

/-- The schemas of several values are made of one value each. -/
theorem inferItems_summaries {items : List Json}
    (h : ∀ item ∈ items, ∃ schema, infer item = .ok schema ∧ Summarizes (· = item) schema) :
    ∃ parts : List Summary, inferItems items = .ok (parts.map Prod.snd) ∧
      (∀ part ∈ parts, Summarizes part.1 part.2) ∧ ∀ value, joined parts value ↔ value ∈ items := by
  induction items with
  | nil => exact ⟨[], by rw [inferItems]; rfl, fun _ hmem => (nomatch hmem), by simp [joined]⟩
  | cons item rest ih =>
      obtain ⟨⟨schema, hschema, hsummarizes⟩, hrest⟩ := List.forall_mem_cons.mp h
      obtain ⟨parts, hparts, hall, hjoined⟩ := ih hrest
      refine ⟨((· = item), schema) :: parts, ?_, List.forall_mem_cons.mpr ⟨hsummarizes, hall⟩,
        fun value => ?_⟩
      · rw [inferItems, hschema, ok_bind, hparts, ok_bind, List.map_cons]
      · rw [joined_cons, hjoined, List.mem_cons]

/-- The schema of a value is made of this value. -/
theorem infer_summarizes (value : Json) (h : Distinct value) :
    ∃ schema, infer value = .ok schema ∧ Summarizes (· = value) schema := by
  have htyped {type : String} (hmem : type ∈ ["boolean", "integer", "number", "string"])
      (htype : HasType value type) : Summarizes (· = value) (ofType (.str type)) := by
    refine .scalar (.plain hmem) ⟨value, rfl⟩ ?_
    rintro _ rfl
    exact .scalar (.plain hmem) htype
  cases value with
  | null => exact ⟨nullType, by simp [infer, nullType, typeName], .null fun _ => Iff.rfl⟩
  | bool value => exact ⟨_, by simp [infer, typeName], htyped (by decide) (.bool value)⟩
  | int value => exact ⟨_, by simp [infer, typeName], htyped (by decide) (.int value)⟩
  | float value => exact ⟨_, by simp [infer, typeName], htyped (by decide) (.float value)⟩
  | str text =>
      refine ⟨ofString text, by rw [infer], ?_⟩
      unfold ofString
      split
      next format hdetect =>
        refine .scalar (.format format) ⟨_, rfl⟩ ?_
        rintro _ rfl
        exact .format hdetect
      next => exact htyped (by decide) (.str text)
  | arr items =>
      obtain ⟨parts, hparts, hall, hjoined⟩ := inferItems_summaries fun item hmem =>
        infer_summarizes item (h.of_arr item hmem)
      obtain ⟨merged, hmerged, hsummarizes⟩ := merge_summaries hall
      refine ⟨ofArray merged, infer_arr hparts hmerged, .array ⟨_, rfl⟩
        (fun _ heq => ⟨items, heq⟩) (hsummarizes.congr fun value => ?_)⟩
      rw [hjoined]
      refine ⟨?_, fun hmem => ⟨items, rfl, hmem⟩⟩
      rintro ⟨_, heq, hmem⟩
      exact Json.arr.inj heq ▸ hmem
  | obj members =>
      obtain ⟨hnodup, hmembers⟩ := h.of_obj
      obtain ⟨schemas, hschemas, hall⟩ :=
        inferMembers_ok (R := fun value => Summarizes (· = value)) fun entry hmem =>
          infer_summarizes entry.2 (hmembers entry hmem)
      have hnames : Table.names schemas = Table.names members :=
        (get?_of_forall₂ (R := fun _ _ => True) (hall.imp fun _ _ h => ⟨h.1, trivial⟩)).1
      refine ⟨ofObject schemas (Table.names members), by rw [infer, hschemas, ok_bind],
        .object ⟨_, rfl⟩ (fun _ heq => ⟨members, heq⟩) (hnames ▸ hnodup)
          (hnames ▸ List.Sublist.refl _) (fun name => ?_) (fun name => ?_) fun entry hmem => ?_⟩
      · rw [hnames]
        refine ⟨fun hname => ⟨members, rfl, hname⟩, ?_⟩
        rintro ⟨_, heq, hname⟩
        exact Json.obj.inj heq ▸ hname
      · exact ⟨fun hname _ heq => Json.obj.inj heq ▸ hname, fun hname => hname members rfl⟩
      · obtain ⟨source, hsource, hname, hsummarizes⟩ := exists_left_of_forall₂ hall hmem
        refine hsummarizes.congr fun value => ?_
        rw [hname]
        have hget : Table.get? members source.1 = some source.2 := Table.get?_of_mem hnodup hsource
        constructor
        · rintro ⟨_, heq, hvalue⟩
          rw [Json.obj.inj heq, hget] at hvalue
          exact (Option.some.inj hvalue).symm
        · rintro rfl
          exact ⟨members, rfl, hget⟩
termination_by sizeOf value
decreasing_by
  · subst_vars
    have := List.sizeOf_lt_of_mem hmem
    simp only [Json.arr.sizeOf_spec]
    omega
  · subst_vars
    have := List.sizeOf_lt_of_mem hmem
    obtain ⟨name, value⟩ := entry
    simp only [Json.obj.sizeOf_spec, Prod.mk.sizeOf_spec] at *
    omega

/-- The schema of samples is made of the samples. -/
theorem ofSamples_summarizes {samples : List Json} (h : ∀ sample ∈ samples, Distinct sample) :
    ∃ schema, ofSamples samples = .ok schema ∧ Summarizes (· ∈ samples) schema := by
  obtain ⟨parts, hparts, hall, hjoined⟩ := inferItems_summaries fun sample hmem =>
    infer_summarizes sample (h sample hmem)
  obtain ⟨merged, hmerged, hsummarizes⟩ := merge_summaries hall
  exact ⟨merged, by rw [ofSamples, hparts, ok_bind, hmerged],
    hsummarizes.congr fun value => (hjoined value).symm⟩

/-! ## What inferred schemas describe -/

/-- Every value has a schema that describes it. -/
theorem infer_ok (value : Json) (h : Distinct value) :
    ∃ schema, infer value = .ok schema ∧ Normal schema ∧ Fits schema value := by
  obtain ⟨schema, hschema, hsummarizes⟩ := infer_summarizes value h
  exact ⟨schema, hschema, hsummarizes.normal, hsummarizes.fits value rfl⟩

/-- Every list of samples has a schema that describes each of them. -/
theorem ofSamples_ok {samples : List Json} (h : ∀ sample ∈ samples, Distinct sample) :
    ∃ schema, ofSamples samples = .ok schema ∧ Normal schema ∧
      ∀ sample ∈ samples, Fits schema sample := by
  obtain ⟨schema, hschema, hsummarizes⟩ := ofSamples_summarizes h
  exact ⟨schema, hschema, hsummarizes.normal, hsummarizes.fits⟩

/-- The schema of a single sample. -/
theorem ofSamples_singleton {sample schema : Json} (h : infer sample = .ok schema) :
    ofSamples [sample] = .ok schema := by
  simp only [ofSamples, inferItems, h, bind, Except.bind]
  rfl

end RequestShapes.Schema
