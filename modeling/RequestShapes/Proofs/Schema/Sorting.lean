import Mathlib.Data.List.Induction
import RequestShapes.Proofs.Schema.Positions

/-!
# Sorting schemas by type

Schemas of single types are sorted into one group for each type, in the order in
which the types first occur. A group holds the schemas of its type in their order.
So several schemas that fall apart into such schemas are merged type by type.
-/

namespace RequestShapes.Schema

/-- A schema that says nothing, or has one type. -/
inductive IsSingle : Json → Prop
  | empty : IsSingle .empty
  | typed {schema : Json} : HasSingleType schema → IsSingle schema

/-- The type of a schema of one type other than null. -/
def typeOf? (schema : Json) : Option String :=
  match schema.get? "type" with
  | some (.str type) => if type = "null" then none else some type
  | _ => none

/-- Note the type of a further schema, if it is new. -/
def noteType (types : List String) (piece : Json) : List String :=
  match typeOf? piece with
  | none => types
  | some type => if type ∈ types then types else types ++ [type]

/-- The types other than null in the order in which they first occur. -/
def typesOf (pieces : List Json) : List String :=
  pieces.foldl noteType []

theorem isOf_iff {schema : Json} {type : String} :
    isOf type schema = true ↔ schema.get? "type" = some (.str type) :=
  decide_eq_true_iff

theorem typeOf?_eq_some {schema : Json} {type : String} :
    typeOf? schema = some type ↔ isOf type schema = true ∧ type ≠ "null" := by
  rw [isOf_iff, typeOf?]
  split
  next found hfound =>
    split
    next hnull => grind
    next hnull => grind
  next hother => exact ⟨fun h => (by cases h), fun h => absurd h.1 (hother type)⟩

theorem HasSingleType.filled {schema : Json} (h : HasSingleType schema) :
    schema.isObject = true ∧ schema.isVacant = false := by
  obtain ⟨type, htype⟩ := h
  cases schema with
  | obj members =>
      cases members with
      | nil => cases htype
      | cons entry rest => exact ⟨rfl, rfl⟩
  | _ => cases htype

/-- A schema is added to the group of its type. -/
theorem addToGroup_map {types : List String} (hnodup : types.Nodup) (group : String → List Json)
    (type : String) (schema : Json) :
    addToGroup (types.map fun name => (.str name, group name)) (.str type) schema =
      if type ∈ types then
        types.map fun name =>
          (.str name, if name = type then group name ++ [schema] else group name)
      else types.map (fun name => (.str name, group name)) ++ [(.str type, [schema])] := by
  induction types with
  | nil => rfl
  | cons name rest ih =>
      obtain ⟨hfresh, hrest⟩ := List.nodup_cons.mp hnodup
      rw [List.map_cons, addToGroup, Json.sameKey_str]
      by_cases hname : name = type
      · subst hname
        have hothers : ∀ other ∈ rest, other ≠ name := fun other hmem heq => hfresh (heq ▸ hmem)
        simp only [decide_true, if_true, List.mem_cons_self, List.map_cons]
        congr 1
        exact List.map_congr_left fun other hmem => by rw [if_neg (hothers other hmem)]
      · rw [decide_eq_false hname, if_neg (by simp), ih hrest]
        simp only [List.mem_cons, Ne.symm hname, false_or, List.map_cons, hname, if_false]
        split <;> rfl

theorem mem_noteType {types : List String} {piece : Json} {type : String} :
    type ∈ noteType types piece ↔ type ∈ types ∨ typeOf? piece = some type := by
  unfold noteType
  split
  next hnone => simp [hnone]
  next found hfound =>
    split
    next hmem => grind
    next hmem => grind

theorem nodup_noteType {types : List String} (h : types.Nodup) (piece : Json) :
    (noteType types piece).Nodup := by
  unfold noteType
  split
  next => exact h
  next found _ =>
    split
    next => exact h
    next hmem =>
      refine List.nodup_append.mpr ⟨h, by simp, fun other hother new hnew => ?_⟩
      obtain rfl := List.mem_singleton.mp hnew
      exact fun heq => hmem (heq ▸ hother)

theorem typesOf_concat (pieces : List Json) (piece : Json) :
    typesOf (pieces ++ [piece]) = noteType (typesOf pieces) piece := by
  simp [typesOf, List.foldl_append]

theorem nodup_typesOf (pieces : List Json) : (typesOf pieces).Nodup := by
  induction pieces using List.reverseRecOn with
  | nil => exact List.nodup_nil
  | append_singleton pieces piece ih => exact typesOf_concat pieces piece ▸ nodup_noteType ih piece

theorem mem_typesOf {pieces : List Json} {type : String} :
    type ∈ typesOf pieces ↔ ∃ piece ∈ pieces, typeOf? piece = some type := by
  induction pieces using List.reverseRecOn with
  | nil => simp [typesOf]
  | append_singleton pieces piece ih =>
      simp [typesOf_concat, mem_noteType, ih, or_and_right, exists_or]

/-- Schemas are sorted into the groups of their types. -/
def sortedOf (pieces : List Json) : Sorted :=
  ⟨(typesOf pieces).map fun type => (.str type, pieces.filter (isOf type)),
    pieces.any (isOf "null")⟩

theorem filter_isOf_concat (pieces : List Json) {piece : Json} {type other : String}
    (h : isOf type piece = true) : (pieces ++ [piece]).filter (isOf other) =
      if other = type then pieces.filter (isOf other) ++ [piece]
      else pieces.filter (isOf other) := by
  have hother : isOf other piece = decide (other = type) := by
    rw [Bool.eq_iff_iff, isOf_iff, isOf_iff.mp h, decide_eq_true_iff]
    simp [eq_comm]
  rw [List.filter_append, List.filter_singleton, hother]
  by_cases heq : other = type <;> simp [heq]

/-- One more schema goes to the end of its group. -/
theorem sortedOf_add (pieces : List Json) {piece : Json} (h : IsSingle piece) :
    (sortedOf pieces).add piece = .ok (sortedOf (pieces ++ [piece])) := by
  cases h with
  | empty =>
      have hnone : typeOf? .empty = none := rfl
      have hfilter (type : String) : (pieces ++ [Json.empty]).filter (isOf type) =
          pieces.filter (isOf type) := by
        rw [List.filter_append, List.filter_singleton]
        simp [isOf, Json.empty, Json.get?]
      have hnull : (pieces ++ [Json.empty]).any (isOf "null") = pieces.any (isOf "null") := by
        simp [List.any_append, isOf, Json.empty, Json.get?]
      simp only [sortedOf, typesOf_concat, noteType, hnone, hfilter, hnull]
      rfl
  | typed hsingle =>
      obtain ⟨hobject, hvacant⟩ := hsingle.filled
      obtain ⟨type, htype⟩ := hsingle
      have hof : isOf type piece = true := isOf_iff.mpr htype
      by_cases hnull : type = "null"
      · subst hnull
        have hnone : typeOf? piece = none := by simp [typeOf?, htype]
        have hgroups : ∀ other ∈ typesOf pieces, (pieces ++ [piece]).filter (isOf other) =
            pieces.filter (isOf other) := by
          intro other hmem
          obtain ⟨found, _, hfound⟩ := mem_typesOf.mp hmem
          rw [filter_isOf_concat pieces hof, if_neg (typeOf?_eq_some.mp hfound).2]
        have hadd : (sortedOf pieces).add piece =
            .ok ⟨(sortedOf pieces).groups, true⟩ := by
          simp [Sorted.add, hobject, hvacant, htype]
        rw [hadd]
        simp only [sortedOf, typesOf_concat, noteType, hnone, List.any_append, List.any_cons, hof,
          Bool.true_or, Bool.or_true]
        congr 2
        exact List.map_congr_left fun other hmem => by rw [hgroups other hmem]
      · have hfound : typeOf? piece = some type := typeOf?_eq_some.mpr ⟨hof, hnull⟩
        have hnulls : isOf "null" piece = false := by
          simp [isOf, htype, hnull]
        have hadd : (sortedOf pieces).add piece = .ok ⟨addToGroup ((typesOf pieces).map fun name =>
            (.str name, pieces.filter (isOf name))) (.str type) piece,
            (sortedOf pieces).nullable⟩ := by
          simp [Sorted.add, hobject, hvacant, htype, hnull, Json.isContainer, sortedOf]
        rw [hadd, addToGroup_map (nodup_typesOf pieces)]
        simp only [sortedOf, typesOf_concat, noteType, hfound, List.any_append, List.any_cons,
          hnulls, List.any_nil, Bool.or_false]
        congr 2
        split
        next hmem =>
          refine List.map_congr_left fun other _ => ?_
          rw [filter_isOf_concat pieces hof]
        next hmem =>
          -- The type is new, so its group starts empty and stands at the end.
          have hnew : pieces.filter (isOf type) = [] := by
            rw [List.filter_eq_nil_iff]
            exact fun other hother hsame => hmem (mem_typesOf.mpr
              ⟨other, hother, typeOf?_eq_some.mpr ⟨hsame, hnull⟩⟩)
          rw [List.map_append, List.map_singleton, filter_isOf_concat pieces hof, if_pos rfl, hnew]
          congr 1
          refine List.map_congr_left fun other hother => ?_
          rw [filter_isOf_concat pieces hof, if_neg (fun heq : other = type => hmem (heq ▸ hother))]

theorem sortByType_eq {pieces : List Json} (h : ∀ piece ∈ pieces, IsSingle piece) :
    sortByType pieces = .ok (sortedOf pieces) := by
  induction pieces using List.reverseRecOn with
  | nil => rfl
  | append_singleton pieces piece ih =>
      obtain ⟨hpieces, hpiece⟩ := List.forall_mem_append.mp h
      have hsorted := ih hpieces
      rw [sortByType] at hsorted ⊢
      rw [List.foldlM_append, hsorted, ok_bind, List.foldlM_cons,
        sortedOf_add pieces (hpiece piece (List.mem_singleton_self piece)), ok_bind]
      rfl

/-! ## Merging by type -/

/-- A schema falls apart into schemas of single types. -/
structure FallsApart (schema : Json) : Prop where
  alternatives : alternatives schema = .ok (singles [schema])
  single : ∀ piece ∈ singles [schema], IsSingle piece

theorem mem_singles {schemas : List Json} {piece : Json} :
    piece ∈ singles schemas ↔ ∃ schema ∈ schemas, piece ∈ singles [schema] := by
  simp [singles]

theorem mapM_alternatives_singles {schemas : List Json}
    (h : ∀ schema ∈ schemas, FallsApart schema) :
    ∃ pieces, schemas.mapM alternatives = .ok pieces ∧ pieces.flatten = singles schemas := by
  induction schemas with
  | nil => exact ⟨[], rfl, rfl⟩
  | cons schema rest ih =>
      obtain ⟨hschema, hrest⟩ := List.forall_mem_cons.mp h
      obtain ⟨pieces, hpieces, hflatten⟩ := ih hrest
      refine ⟨singles [schema] :: pieces, ?_, ?_⟩
      · rw [List.mapM_cons, hschema.alternatives, ok_bind, hpieces, ok_bind]
        rfl
      · rw [List.flatten_cons, hflatten]
        simp [singles]

/-- Several schemas merge into what the groups of their types merge into. -/
theorem mergeWithin_several {fuel : Nat} {schemas parts : List Json} (hlength : 2 ≤ schemas.length)
    (h : ∀ schema ∈ schemas, FallsApart schema)
    (hparts : (collapseNumbers (sortedOf (singles schemas)).groups).mapM
      (fun entry => mergeGroup (mergeWithin fuel) entry.1 entry.2) = .ok parts) :
    mergeWithin (fuel + 1) schemas = .ok (combine parts ((singles schemas).any (isOf "null"))) := by
  obtain ⟨pieces, hpieces, hflatten⟩ := mapM_alternatives_singles h
  have hsorted : sortByType (singles schemas) = .ok (sortedOf (singles schemas)) := by
    refine sortByType_eq fun piece hmem => ?_
    obtain ⟨schema, hschema, hpiece⟩ := mem_singles.mp hmem
    exact (h schema hschema).single piece hpiece
  match schemas, hlength with
  | first :: second :: rest, _ =>
      rw [mergeWithin, hpieces, ok_bind, hflatten, hsorted, ok_bind]
      · exact congrArg (· >>= fun merged =>
          .ok (combine merged (sortedOf (singles (first :: second :: rest))).nullable)) hparts
      all_goals simp

/-- Schemas of a form that are nested less deeply are merged as they should be. -/
def MergesTo (Form : Json → Prop) (Merged : List Json → Json → Prop)
    (merge : List Json → Except Fault Json) (bound : Nat) : Prop :=
  ∀ schemas, (∀ schema ∈ schemas, Form schema ∧ schema.depth < bound) →
    ∃ merged, merge schemas = .ok merged ∧ Merged schemas merged

/-- Merging is right at every depth if it is right for no schema and for one, and for
several schemas whenever it is right for what is nested less deeply. -/
theorem mergeWithin_induction {Form : Json → Prop} {Merged : List Json → Json → Prop}
    (hnil : Merged [] .empty) (hone : ∀ schema, Form schema → Merged [schema] schema)
    (hfalls : ∀ schema, Form schema → FallsApart schema)
    (hseveral : ∀ merge bound, MergesTo Form Merged merge bound → ∀ schemas,
      (∀ schema ∈ schemas, Form schema ∧ schema.depth ≤ bound) →
        ∃ parts, (collapseNumbers (sortedOf (singles schemas)).groups).mapM
            (fun entry => mergeGroup merge entry.1 entry.2) = .ok parts ∧
          Merged schemas (combine parts ((singles schemas).any (isOf "null"))))
    (fuel : Nat) : MergesTo Form Merged (mergeWithin fuel) fuel := by
  induction fuel with
  | zero =>
      intro schemas h
      cases schemas with
      | nil => exact ⟨.empty, rfl, hnil⟩
      | cons schema rest => exact absurd (h schema List.mem_cons_self).2 (Nat.not_lt_zero _)
  | succ fuel ih =>
      intro schemas h
      rcases schemas with - | ⟨first, - | ⟨second, rest⟩⟩
      · exact ⟨.empty, rfl, hnil⟩
      · exact ⟨first, rfl, hone first (h first List.mem_cons_self).1⟩
      · obtain ⟨parts, hparts, hmerged⟩ := hseveral _ fuel ih (first :: second :: rest)
          fun schema hmem => ⟨(h schema hmem).1, Nat.le_of_lt_succ (h schema hmem).2⟩
        exact ⟨_, mergeWithin_several (by simp) (fun schema hmem => hfalls schema (h schema hmem).1)
          hparts, hmerged⟩

end RequestShapes.Schema
