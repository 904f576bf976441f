import RequestShapes.Proofs.Schema.Duplicates

/-!
# The order and the repetition of samples

The schema of a value is settled, and merging settled schemas gives a settled one
that says what they say together. So samples in another order, or repeated, or with
members in another order have the same schema up to order.
-/

namespace RequestShapes.Schema

variable {settled : Prop}

/-! ## Inferred schemas are tidy -/

theorem tidy_ofString (text : String) : Tidy settled (ofString text) ∧ ofString text ≠ .empty := by
  unfold ofString
  split
  next format _ => exact ⟨.scalar (.format format), by simp [Json.empty]⟩
  next => exact ⟨.scalar (.plain (by decide)), by simp [Json.empty, ofType]⟩

/-- Every value has a tidy schema, which says something. -/
theorem infer_tidy (value : Json) (h : Distinct value) :
    ∃ schema, infer value = .ok schema ∧ Tidy settled schema ∧ schema ≠ .empty := by
  have htyped {type : String} (hmem : type ∈ ["boolean", "integer", "number", "string"]) :
      Tidy settled (ofType (.str type)) ∧ ofType (.str type) ≠ .empty :=
    ⟨.scalar (.plain hmem), by simp [Json.empty, ofType]⟩
  cases value with
  | null =>
      refine ⟨nullType, by simp [infer, nullType, typeName], ?_,
        by simp [Json.empty, nullType, ofType]⟩
      exact @Tidy.combined settled [] true (by simp) ⟨by simp, by simp⟩ not_onlyNumbers_nil
  | bool value =>
      exact ⟨ofType (.str "boolean"), by simp [infer, typeName], htyped (by decide)⟩
  | int value =>
      exact ⟨ofType (.str "integer"), by simp [infer, typeName], htyped (by decide)⟩
  | float value =>
      exact ⟨ofType (.str "number"), by simp [infer, typeName], htyped (by decide)⟩
  | str text => exact ⟨ofString text, by rw [infer], tidy_ofString text⟩
  | arr items =>
      obtain ⟨schemas, hschemas, hrel⟩ := inferItems_ok (R := fun _ => Tidy settled)
        fun item hmem => (infer_tidy item (h.of_arr item hmem)).imp fun _ hfacts =>
          ⟨hfacts.1, hfacts.2.1⟩
      obtain ⟨merged, hmerged, htidy, _⟩ := merge_tidy fun schema hmem =>
        (exists_left_of_forall₂ hrel hmem).elim fun _ hitem => hitem.2
      exact ⟨ofArray merged, infer_arr hschemas hmerged, .array htidy,
        by simp [Json.empty, ofArray]⟩
  | obj members =>
      obtain ⟨hnodup, hmembers⟩ := h.of_obj
      obtain ⟨properties, hproperties, hrel⟩ :=
        inferMembers_ok (R := fun _ schema => Tidy settled schema ∧ schema ≠ .empty)
          fun entry hmem => infer_tidy entry.2 (hmembers entry hmem)
      have hnames := (get?_of_forall₂ (R := fun _ schema => Tidy settled schema ∧ schema ≠ .empty)
        hrel).1
      have hall : ∀ entry ∈ properties, Tidy settled entry.2 ∧ entry.2 ≠ .empty := fun entry hmem =>
        (exists_left_of_forall₂ hrel hmem).elim fun _ hentry => hentry.2.2
      exact ⟨ofObject properties (Table.names members), by rw [infer, hproperties, ok_bind],
        .object (hnames ▸ hnodup) (hnames ▸ .refl _) (fun entry hmem => (hall entry hmem).2)
          fun entry hmem => (hall entry hmem).1, by simp [Json.empty, ofObject]⟩
termination_by sizeOf value
decreasing_by
  · subst_vars
    have := List.sizeOf_lt_of_mem hmem
    simp only [Json.arr.sizeOf_spec]
    omega
  · subst_vars
    have := List.sizeOf_lt_of_mem hmem
    obtain ⟨name, value⟩ := entry
    simp only [Json.obj.sizeOf_spec, Prod.mk.sizeOf_spec] at *
    omega

/-- Schemas as inference produces them: the schema of a value, or one that was merged
from such schemas. -/
inductive Inferred : Json → Prop
  | value {value schema : Json} : Distinct value → infer value = .ok schema → Inferred schema
  | merged {schemas : List Json} {schema : Json} : (∀ found ∈ schemas, Inferred found) →
      merge schemas = .ok schema → Inferred schema

theorem Inferred.tidy {schema : Json} (h : Inferred schema) : Tidy settled schema := by
  induction h with
  | @value value schema hdistinct hschema =>
      obtain ⟨found, hfound, htidy, _⟩ := @infer_tidy settled value hdistinct
      rwa [Except.ok.inj (hschema.symm.trans hfound)]
  | merged _ hmerge ih =>
      obtain ⟨found, hfound, htidy, _⟩ := merge_tidy ih
      rwa [Except.ok.inj (hmerge.symm.trans hfound)]

/-! ## Values up to the order of members -/

/-- The same value, up to the order of the members of objects at every depth. -/
inductive SameValue : Json → Json → Prop
  | refl (value : Json) : SameValue value value
  | arr {pairs : List (Json × Json)} : (∀ pair ∈ pairs, SameValue pair.1 pair.2) →
      SameValue (.arr (pairs.map Prod.fst)) (.arr (pairs.map Prod.snd))
  | obj {members others : List (String × Json)} :
      (∀ name, name ∈ Table.names members ↔ name ∈ Table.names others) →
      (∀ name value other, Table.get? members name = some value →
        Table.get? others name = some other → SameValue value other) →
      SameValue (.obj members) (.obj others)

/-- The schemas of values agree. -/
def InferAgreeing (value other : Json) : Prop :=
  ∀ schema found, infer value = .ok schema → infer other = .ok found → Agree [schema] [found]

/-- The schemas of samples merge into a settled one that says what they say
together. -/
theorem inferItems_merge {samples : List Json} (h : ∀ sample ∈ samples, Distinct sample) :
    ∃ schemas schema, inferItems samples = .ok schemas ∧ merge schemas = .ok schema ∧
      Tidy True schema ∧ Agree schemas [schema] ∧ (∀ found ∈ schemas, Tidy True found) ∧
      List.Forall₂ (fun sample found => infer sample = .ok found) samples schemas := by
  obtain ⟨schemas, hschemas, hrel⟩ :=
    inferItems_ok (R := fun sample found => infer sample = .ok found ∧ Tidy True found)
      fun sample hmem => (infer_tidy sample (h sample hmem)).imp fun _ hfacts =>
        ⟨hfacts.1, hfacts.1, hfacts.2.1⟩
  have hall : ∀ found ∈ schemas, Tidy True found := fun found hmem =>
    (exists_left_of_forall₂ hrel hmem).elim fun _ hsample => hsample.2.2
  obtain ⟨schema, hmerge, htidy, hagree⟩ := merge_tidy hall
  exact ⟨schemas, schema, hschemas, hmerge, htidy, hagree, hall,
    hrel.imp fun _ _ hfacts => hfacts.1⟩

/-- Samples whose schemas agree with each other have merged schemas that agree. -/
theorem merged_agree {samples others : List Json} (h : ∀ sample ∈ samples, Distinct sample)
    (hothers : ∀ other ∈ others, Distinct other)
    (hforth : ∀ sample ∈ samples, ∃ other ∈ others, InferAgreeing sample other)
    (hback : ∀ other ∈ others, ∃ sample ∈ samples, InferAgreeing sample other) :
    ∃ schemas schema found other, inferItems samples = .ok schemas ∧ merge schemas = .ok schema ∧
      inferItems others = .ok found ∧ merge found = .ok other ∧
      Tidy True schema ∧ Tidy True other ∧ Agree [schema] [other] := by
  obtain ⟨schemas, schema, hschemas, hmerge, htidy, hagree, hall, hrel⟩ := inferItems_merge h
  obtain ⟨found, other, hfound, hmerge', htidy', hagree', hall', hrel'⟩ := inferItems_merge hothers
  have hboth : Agree schemas found := by
    refine agree_of_partners hall hall' (fun first hfirst => ?_) fun second hsecond => ?_
    · obtain ⟨sample, hsample, hinfer⟩ := exists_left_of_forall₂ hrel hfirst
      obtain ⟨partner, hpartner, hsame⟩ := hforth sample hsample
      obtain ⟨second, hsecond, hinfer'⟩ := exists_right_of_forall₂ hrel' hpartner
      exact ⟨second, hsecond, hsame _ _ hinfer hinfer'⟩
    · obtain ⟨partner, hpartner, hinfer'⟩ := exists_left_of_forall₂ hrel' hsecond
      obtain ⟨sample, hsample, hsame⟩ := hback partner hpartner
      obtain ⟨first, hfirst, hinfer⟩ := exists_right_of_forall₂ hrel hsample
      exact ⟨first, hfirst, hsame _ _ hinfer hinfer'⟩
  exact ⟨schemas, schema, found, other, hschemas, hmerge, hfound, hmerge', htidy, htidy',
    hagree.symm.trans (hboth.trans hagree')⟩

/-- The schema of an object without repeated names. -/
theorem infer_obj_tidy {members : List (String × Json)} (h : Distinct (.obj members)) :
    ∃ properties, infer (.obj members) = .ok (ofObject properties (Table.names members)) ∧
      Table.names properties = Table.names members ∧
      (∀ name value, Table.get? members name = some value → ∃ schema,
        Table.get? properties name = some schema ∧ infer value = .ok schema) ∧
      TidyPart True "object" (ofObject properties (Table.names members)) := by
  obtain ⟨_, hmembers⟩ := h.of_obj
  obtain ⟨properties, hproperties, hrel⟩ :=
    inferMembers_ok (R := fun value schema => infer value = .ok schema) fun entry hmem =>
      (@infer_tidy True entry.2 (hmembers entry hmem)).imp fun _ hfacts => ⟨hfacts.1, hfacts.1⟩
  obtain ⟨hnames, hget?⟩ :=
    get?_of_forall₂ (R := fun value schema => infer value = .ok schema) hrel
  have hinfer : infer (.obj members) = .ok (ofObject properties (Table.names members)) := by
    rw [infer, hproperties, ok_bind]
  obtain ⟨schema, hschema, htidy, _⟩ := @infer_tidy True _ h
  rw [Except.ok.inj (hschema.symm.trans hinfer)] at htidy
  exact ⟨properties, hinfer, hnames, hget?, htidy.part rfl (by decide)⟩

/-- The same values have schemas that agree. -/
theorem SameValue.inferAgreeing {value other : Json} (h : SameValue value other)
    (hvalue : Distinct value) (hother : Distinct other) : InferAgreeing value other := by
  induction h with
  | refl value =>
      intro schema found hschema hfound
      exact Except.ok.inj (hschema.symm.trans hfound) ▸ .refl _
  | @arr pairs _ ih =>
      intro schema found hschema hfound
      have hagreeing : ∀ pair ∈ pairs, InferAgreeing pair.1 pair.2 := fun pair hmem =>
        ih pair hmem (hvalue.of_arr _ (List.mem_map_of_mem hmem))
          (hother.of_arr _ (List.mem_map_of_mem hmem))
      obtain ⟨_, first, _, second, hfirst, hmerge, hsecond, hmerge', htidy, htidy', hagree⟩ :=
        merged_agree hvalue.of_arr hother.of_arr
          (List.forall_mem_map.mpr fun pair hmem =>
            ⟨pair.2, List.mem_map_of_mem hmem, hagreeing pair hmem⟩)
          (List.forall_mem_map.mpr fun pair hmem =>
            ⟨pair.1, List.mem_map_of_mem hmem, hagreeing pair hmem⟩)
      rw [infer_arr hfirst hmerge] at hschema
      rw [infer_arr hsecond hmerge'] at hfound
      cases hschema
      cases hfound
      exact TidyPart.agree (.array htidy) (.array htidy')
        (@sameContent_array [first] [second] hagree)
  | @obj members others hnames _ ih =>
      intro schema found hschema hfound
      obtain ⟨properties, hinfer, hkeys, hget?, hpart⟩ := infer_obj_tidy hvalue
      obtain ⟨properties', hinfer', hkeys', hget?', hpart'⟩ := infer_obj_tidy hother
      rw [hinfer] at hschema
      rw [hinfer'] at hfound
      cases hschema
      cases hfound
      refine hpart.agree hpart' ((@sameContent_object_iff [⟨properties, _⟩] ⟨properties', _⟩).mpr
        ⟨fun name => ?_, fun name => ?_, fun name => ?_⟩)
      · rw [List.forall_mem_singleton]
        exact hnames name
      · simp only [List.mem_singleton, exists_eq_left, hkeys, hkeys']
        exact hnames name
      -- Under a name both objects have a value, or neither has one.
      cases hget : Table.get? members name with
      | none =>
          have hnone := Table.get?_eq_none_iff.mp hget
          have hnone' : Table.get? properties name = none :=
            Table.get?_eq_none_iff.mpr (hkeys ▸ hnone)
          have hnone'' : Table.get? properties' name = none :=
            Table.get?_eq_none_iff.mpr (hkeys' ▸ fun hname => hnone ((hnames name).mpr hname))
          simpa [column, hnone', hnone''] using Agree.refl []
      | some value =>
          obtain ⟨partner, hpartner⟩ := Table.exists_get?_of_mem_names
            ((hnames name).mp (Table.mem_names_of_get? hget))
          obtain ⟨schema, hschema, hinferred⟩ := hget? name value hget
          obtain ⟨found, hfound, hinferred'⟩ := hget?' name partner hpartner
          have hagree := ih name value partner hget hpartner
            (hvalue.of_obj.2 _ (Table.mem_of_get? hget))
            (hother.of_obj.2 _ (Table.mem_of_get? hpartner)) schema found hinferred hinferred'
          simpa [column, hschema, hfound] using hagree

/-! ## Samples in any order -/

/-- Samples in another order, or repeated, or with their members in another order
have the same schema up to order, and copies of an inferred schema merge into this
very schema. -/
theorem ofSamples_alike :
    (∀ samples others : List Json, (∀ sample ∈ samples, Distinct sample) →
      (∀ other ∈ others, Distinct other) →
      (∀ sample ∈ samples, ∃ other ∈ others, SameValue sample other) →
      (∀ other ∈ others, ∃ sample ∈ samples, SameValue sample other) →
      ∃ schema other, ofSamples samples = .ok schema ∧ ofSamples others = .ok other ∧
        Alike schema other) ∧
    ∀ schema, Inferred schema → ∀ count,
      merge (List.replicate (count + 1) schema) = .ok schema := by
  refine ⟨fun samples others h hothers hforth hback => ?_,
    fun schema h count => merge_replicate h.tidy count⟩
  have hagreeing {sample other : Json} (hsample : sample ∈ samples) (hother : other ∈ others)
      (hsame : SameValue sample other) : InferAgreeing sample other :=
    hsame.inferAgreeing (h sample hsample) (hothers other hother)
  obtain ⟨schemas, schema, found, other, hschemas, hmerge, hfound, hmerge', htidy, htidy',
    hagree⟩ := merged_agree h hothers
      (fun sample hmem => (hforth sample hmem).imp fun other hother =>
        ⟨hother.1, hagreeing hmem hother.1 hother.2⟩)
      (fun other hmem => (hback other hmem).imp fun sample hsample =>
        ⟨hsample.1, hagreeing hsample.1 hmem hsample.2⟩)
  refine ⟨schema, other, ?_, ?_, alike_of_agree htidy htidy' hagree⟩
  · rw [ofSamples, hschemas, ok_bind, hmerge]
  · rw [ofSamples, hfound, ok_bind, hmerge']

/-- Mixed samples in two orders, one of them repeated and one with its members in
another order, and copies of a schema. -/
theorem ofSamples_alike_mixed :
    (∃ schema other,
      ofSamples [.arr [.obj [("a", .int 1), ("b", .null)], .str "x"], .null,
        .obj [("b", .int 2), ("c", .int 3)]] = .ok schema ∧
      ofSamples [.obj [("c", .int 3), ("b", .int 2)],
        .arr [.obj [("a", .int 1), ("b", .null)], .str "x"], .null,
        .obj [("b", .int 2), ("c", .int 3)]] = .ok other ∧ Alike schema other) ∧
    merge (List.replicate 3 (ofType (.str "integer"))) = .ok (ofType (.str "integer")) := by
  have hswapped : SameValue (.obj [("b", .int 2), ("c", .int 3)])
      (.obj [("c", .int 3), ("b", .int 2)]) := by
    refine .obj (fun name => by simp [Table.names, or_comm]) fun name value other hget hother => ?_
    have heq : value = other := by
      simp only [Table.get?] at hget hother
      grind
    exact heq ▸ .refl value
  refine ⟨ofSamples_alike.1 _ _ (by decide) (by decide) ?_ ?_,
    ofSamples_alike.2 _ (.value (show Distinct (.int 1) by decide) rfl) 2⟩
  · exact fun sample hmem => ⟨sample, List.mem_cons_of_mem _ hmem, .refl sample⟩
  · exact List.forall_mem_cons.mpr ⟨⟨_, by simp, hswapped⟩, fun other hmem =>
      ⟨other, hmem, .refl other⟩⟩

end RequestShapes.Schema
