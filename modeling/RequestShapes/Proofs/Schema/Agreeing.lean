import RequestShapes.Proofs.Schema.Tidy

/-!
# Schemas that say the same

What several schemas say together is what their merged schema should say: the
types that occur, the format that all texts have, the names that some object or
every object has, and the same again one stage further. Schemas agree with others
if they say the same in every position. Which schemas there are counts for this,
not their order or how often they occur.
-/

namespace RequestShapes.Schema

/-! ## What schemas say in one position -/

/-- A type remains when schemas are merged: it occurs, and it is not that of integers
with numbers alone beside them. -/
def Remains (type : String) (schemas : List Json) : Prop :=
  Occurs type (singles schemas) ∧ ¬ (type = "integer" ∧ OnlyNumbers (singles schemas))

/-- What schemas of one type may say beside the type. -/
inductive Trait where
  | format (value : Json)
  | required (name : String)
  | property (name : String)

/-- The type of the schemas that say it. -/
def Trait.type : Trait → String
  | format _ => "string"
  | required _ | property _ => "object"

/-- Schemas of one type say it together. -/
def Trait.Holds (pieces : List Json) : Trait → Prop
  | format value => ∀ piece ∈ pieces, piece.get? "format" = some value
  | required name => ∀ piece ∈ pieces, requires piece name = .ok true
  | property name => ∃ piece ∈ pieces, ((Stage.under name).inner? piece).isSome = true

/-- The same types remain, and schemas say the same beside them. -/
structure SaysSame (schemas others : List Json) : Prop where
  types (type : String) : Remains type schemas ↔ Remains type others
  traits (trait : Trait) :
    trait.Holds (singlesOf trait.type schemas) ↔ trait.Holds (singlesOf trait.type others)

/-- Schemas say the same in every position. -/
def Agree (schemas others : List Json) : Prop :=
  ∀ position, SaysSame (insideAlong schemas position) (insideAlong others position)

/-- Schemas of one type say the same about the values of this type. -/
structure SameContent (type : String) (pieces others : List Json) : Prop where
  traits (trait : Trait) : trait.type = type → (trait.Holds pieces ↔ trait.Holds others)
  stages (stage : Stage) : stage.type = type →
    Agree (pieces.filterMap stage.inner?) (others.filterMap stage.inner?)

variable {schemas others more : List Json}

theorem Agree.refl (schemas : List Json) : Agree schemas schemas :=
  fun _ => ⟨fun _ => Iff.rfl, fun _ => Iff.rfl⟩

theorem Agree.symm (h : Agree schemas others) : Agree others schemas :=
  fun position => ⟨fun type => ((h position).types type).symm,
    fun trait => ((h position).traits trait).symm⟩

theorem Agree.trans (h : Agree schemas others) (hmore : Agree others more) : Agree schemas more :=
  fun position => ⟨fun type => ((h position).types type).trans ((hmore position).types type),
    fun trait => ((h position).traits trait).trans ((hmore position).traits trait)⟩

theorem SameContent.refl (type : String) (pieces : List Json) : SameContent type pieces pieces :=
  ⟨fun _ _ => Iff.rfl, fun _ _ => Agree.refl _⟩

/-- Schemas agree if the same types remain and those of each type have the same
content. -/
theorem agree_iff : Agree schemas others ↔ (∀ type, Remains type schemas ↔ Remains type others) ∧
    ∀ type, SameContent type (singlesOf type schemas) (singlesOf type others) := by
  constructor
  · refine fun h => ⟨(h []).types, fun type => ⟨?_, ?_⟩⟩
    · rintro trait rfl
      exact (h []).traits trait
    · rintro stage rfl position
      exact h (stage :: position)
  · rintro ⟨htypes, hcontent⟩ (- | ⟨stage, rest⟩)
    · exact ⟨htypes, fun trait => (hcontent trait.type).traits trait rfl⟩
    · exact (hcontent stage.type).stages stage rfl rest

/-! ## Schemas taken together -/

theorem singles_append (schemas others : List Json) :
    singles (schemas ++ others) = singles schemas ++ singles others :=
  List.flatMap_append

theorem singlesOf_append (type : String) (schemas others : List Json) :
    singlesOf type (schemas ++ others) = singlesOf type schemas ++ singlesOf type others := by
  rw [singlesOf, singles_append, List.filter_append]
  rfl

theorem inside_append (schemas others : List Json) (stage : Stage) :
    inside (schemas ++ others) stage = inside schemas stage ++ inside others stage := by
  rw [inside, singlesOf_append, List.filterMap_append]
  rfl

theorem insideAlong_append (schemas others : List Json) (position : Position) :
    insideAlong (schemas ++ others) position =
      insideAlong schemas position ++ insideAlong others position := by
  induction position generalizing schemas others with
  | nil => rfl
  | cons stage rest ih => rw [insideAlong, inside_append, ih]; rfl

theorem occurs_append {type : String} (pieces others : List Json) :
    Occurs type (pieces ++ others) ↔ Occurs type pieces ∨ Occurs type others := by
  simp only [Occurs, List.mem_append, or_and_right, exists_or]

theorem Trait.holds_append_congr {trait : Trait} {pieces pieces' more more' : List Json}
    (h : trait.Holds pieces ↔ trait.Holds pieces') (hmore : trait.Holds more ↔ trait.Holds more') :
    trait.Holds (pieces ++ more) ↔ trait.Holds (pieces' ++ more') := by
  cases trait with
  | property name =>
      simp only [Holds, List.mem_append, or_and_right, exists_or] at h hmore ⊢
      rw [h, hmore]
  | _ =>
      simp only [Holds, List.forall_mem_append] at h hmore ⊢
      rw [h, hmore]

/-! ## The schemas that occur -/

theorem mem_singlesOf {type : String} {piece : Json} :
    piece ∈ singlesOf type schemas ↔ ∃ schema ∈ schemas, piece ∈ singlesOf type [schema] := by
  simp only [singlesOf, singles, List.mem_filter, List.mem_flatMap, List.mem_singleton]
  grind

theorem occurs_iff {type : String} :
    Occurs type (singles schemas) ↔ ∃ piece, piece ∈ singlesOf type schemas := by
  simp [Occurs, singlesOf]

theorem singlesOf_eq_nil {type : String} (h : ¬ Occurs type (singles schemas)) :
    singlesOf type schemas = [] :=
  List.eq_nil_iff_forall_not_mem.mpr fun piece hmem => h (occurs_iff.mpr ⟨piece, hmem⟩)

theorem remains_congr
    (h : ∀ type, Occurs type (singles schemas) ↔ Occurs type (singles others)) (type : String) :
    Remains type schemas ↔ Remains type others := by
  rw [Remains, Remains, h, onlyNumbers_congr h]

/-- Only which schemas of each type occur counts. -/
theorem agree_of_mem_iff
    (h : ∀ type piece, piece ∈ singlesOf type schemas ↔ piece ∈ singlesOf type others) :
    Agree schemas others := by
  intro position
  induction position generalizing schemas others with
  | nil =>
      have hoccurs (type : String) :
          Occurs type (singles schemas) ↔ Occurs type (singles others) := by
        simp only [occurs_iff, h]
      refine ⟨fun type => ?_, fun trait => ?_⟩
      · exact remains_congr hoccurs type
      · cases trait <;> simp only [insideAlong, Trait.Holds, Trait.type, h]
  | cons stage rest ih =>
      refine ih fun type piece => ?_
      have hinside (inner : Json) : inner ∈ inside schemas stage ↔ inner ∈ inside others stage := by
        simp only [inside, List.mem_filterMap, h]
      exact (mem_singlesOf.trans (exists_congr fun inner =>
        and_congr_left fun _ => hinside inner)).trans mem_singlesOf.symm

theorem agree_of_same (h : ∀ schema, schema ∈ schemas ↔ schema ∈ others) : Agree schemas others :=
  agree_of_mem_iff fun _ _ =>
    (mem_singlesOf.trans (exists_congr fun schema => and_congr_left fun _ => h schema)).trans
      mem_singlesOf.symm

/-- A vacant schema says nothing. -/
theorem singlesOf_vacant {schema : Json} (h : schema.isVacant = true) (type : String) :
    singlesOf type [schema] = [] := by
  cases schema with
  | obj members =>
      obtain rfl : members = [] := List.isEmpty_iff.mp h
      simp [singlesOf, singles, alternatives, Table.get?, isOf, Json.get?, Except.toOption]
  | _ => rfl

theorem agree_filled (schemas : List Json) :
    Agree schemas (schemas.filter fun schema => !schema.isVacant) := by
  refine agree_of_mem_iff fun type piece => ?_
  rw [mem_singlesOf, @mem_singlesOf (schemas.filter _)]
  refine exists_congr fun schema => ?_
  rw [List.mem_filter, and_assoc]
  refine and_congr_right fun _ => (and_iff_right_of_imp fun hpiece => ?_).symm
  cases hvacant : schema.isVacant with
  | false => rfl
  | true =>
      rw [singlesOf_vacant hvacant] at hpiece
      cases hpiece

/-- What says nothing is empty. -/
theorem Tidy.eq_empty {settled : Prop} {schema : Json} (h : Tidy settled schema)
    (hvacant : schema.isVacant = true) : schema = .empty := by
  by_contra hfilled
  obtain ⟨type, hoccurs⟩ := h.exists_occurs hfilled
  obtain ⟨piece, hpiece⟩ := occurs_iff.mp hoccurs
  exact List.not_mem_nil (singlesOf_vacant hvacant type ▸ hpiece)

end RequestShapes.Schema
