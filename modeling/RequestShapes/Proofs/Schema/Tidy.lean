import Mathlib.Data.List.Nodup
import RequestShapes.Proofs.Schema.Sorting

/-!
# Tidy schemas

Merging builds schemas of a few forms, in which each type occurs at most once.
Such a schema falls into its alternatives, and is settled if it is what they are
put together to.
-/

namespace RequestShapes.Schema

/-! ## Types that occur -/

/-- A type occurs among schemas of single types. -/
def Occurs (type : String) (pieces : List Json) : Prop :=
  ∃ piece ∈ pieces, isOf type piece = true

/-- Integers and numbers occur, and nothing else but null. -/
structure OnlyNumbers (pieces : List Json) : Prop where
  integer : Occurs "integer" pieces
  number : Occurs "number" pieces
  others : ∀ type, Occurs type pieces → type ∈ ["integer", "number", "null"]

theorem onlyNumbers_congr {pieces others : List Json}
    (h : ∀ type, Occurs type pieces ↔ Occurs type others) :
    OnlyNumbers pieces ↔ OnlyNumbers others := by
  constructor
  · exact fun honly => ⟨(h _).mp honly.integer, (h _).mp honly.number,
      fun type htype => honly.others type ((h type).mpr htype)⟩
  · exact fun honly => ⟨(h _).mpr honly.integer, (h _).mpr honly.number,
      fun type htype => honly.others type ((h type).mp htype)⟩

/-- Schemas of distinct types, none of them null. -/
structure Apart (parts : List Json) : Prop where
  typed : ∀ part ∈ parts, IsTyped part
  nodup : (parts.map fun part => part.get? "type").Nodup

/-- The schema of null as a further alternative. -/
def nulls (nullable : Bool) : List Json :=
  if nullable then [nullType] else []

/-! ## Forms -/

/-- A schema in which no type occurs twice, with nested schemas that are so too.
A settled one is put together as merging does it: null beside a scalar type joins
its type, and integers do not stand beside numbers alone. -/
inductive Tidy (settled : Prop) : Json → Prop
  | scalar {type : String} {rest : List (String × Json)} : Scalar type rest →
      Tidy settled (.obj (("type", .str type) :: rest))
  | object {properties : List (String × Json)} {required : List String} :
      (Table.names properties).Nodup → required.Sublist (Table.names properties) →
      (∀ entry ∈ properties, entry.2 ≠ .empty) → (∀ entry ∈ properties, Tidy settled entry.2) →
      Tidy settled (ofObject properties required)
  | array {items : Json} : Tidy settled items → Tidy settled (ofArray items)
  | combined {parts : List Json} (nullable : Bool) : (∀ part ∈ parts, Tidy settled part) →
      Apart parts → ¬ OnlyNumbers parts → Tidy settled (combine parts nullable)
  | anyOf {parts : List Json} {nullable : Bool} : ¬ settled →
      (∀ part ∈ parts, Tidy settled part) → Apart parts → 2 ≤ (parts ++ nulls nullable).length →
      Tidy settled (anyOf (parts ++ nulls nullable))

variable {settled : Prop} {schema : Json}

/-- What a tidy schema of one type is. -/
inductive TidyPart (settled : Prop) : String → Json → Prop
  | scalar {type : String} {rest : List (String × Json)} : Scalar type rest →
      TidyPart settled type (.obj (("type", .str type) :: rest))
  | object {properties : List (String × Json)} {required : List String} :
      (Table.names properties).Nodup → required.Sublist (Table.names properties) →
      (∀ entry ∈ properties, entry.2 ≠ .empty) → (∀ entry ∈ properties, Tidy settled entry.2) →
      TidyPart settled "object" (ofObject properties required)
  | array {items : Json} : Tidy settled items → TidyPart settled "array" (ofArray items)

theorem TidyPart.get?_type {type : String} (h : TidyPart settled type schema) :
    schema.get? "type" = some (.str type) := by
  cases h <;> rfl

theorem TidyPart.ne_null {type : String} (h : TidyPart settled type schema) : type ≠ "null" := by
  cases h with
  | scalar hscalar => exact hscalar.ne_null
  | object => decide
  | array => decide

theorem TidyPart.typeOf?_eq {type : String} (h : TidyPart settled type schema) :
    typeOf? schema = some type :=
  typeOf?_eq_some.mpr ⟨isOf_iff.mpr h.get?_type, h.ne_null⟩

theorem TidyPart.alternatives_eq {type : String} (h : TidyPart settled type schema) :
    alternatives schema = .ok [schema] := by
  cases h with
  | scalar hscalar => cases hscalar <;> rfl
  | object => rfl
  | array => rfl

/-- Null joins a scalar type and stands beside objects and arrays. -/
theorem combine_nullable {part : Json} {type : String} (h : TidyPart settled type part) :
    combine [part] true = anyOf [part, nullType] ∨ ∃ rest, Scalar type rest ∧
      part = .obj (("type", .str type) :: rest) ∧
      combine [part] true = .obj (("type", .arr [.str type, .str "null"]) :: rest) := by
  cases h with
  | @scalar _ rest hscalar =>
      refine .inr ⟨rest, hscalar, rfl, ?_⟩
      have hobject : type ≠ "object" := fun heq => absurd hscalar.mem (heq ▸ by decide)
      have harray : type ≠ "array" := fun heq => absurd hscalar.mem (heq ▸ by decide)
      simp [combine, Json.get?, Table.get?, Json.set, Table.set, hobject, harray]
  | object => exact .inl rfl
  | array => exact .inl rfl

/-- Schemas of a single type are left when what says nothing and null are taken
off. -/
structure Splits (pieces parts : List Json) (nullable : Bool) : Prop where
  single : ∀ piece ∈ pieces, IsSingle piece
  typed : (pieces.filter fun piece => (typeOf? piece).isSome) = parts
  null : pieces.any (isOf "null") = nullable

theorem splits_append {parts : List Json}
    (h : ∀ part ∈ parts, ∃ type, TidyPart settled type part) (nullable : Bool) :
    Splits (parts ++ nulls nullable) parts nullable := by
  have hnulls : (nulls nullable).filter (fun piece => (typeOf? piece).isSome) = [] := by
    cases nullable <;> rfl
  have hparts : ∀ part ∈ parts, isOf "null" part = false := by
    intro part hmem
    obtain ⟨type, htype⟩ := h part hmem
    simpa [isOf, htype.get?_type] using htype.ne_null
  refine ⟨List.forall_mem_append.mpr ⟨fun part hmem => ?_, fun part hmem => ?_⟩, ?_, ?_⟩
  · obtain ⟨type, htype⟩ := h part hmem
    exact .typed ⟨type, htype.get?_type⟩
  · cases nullable with
    | false => cases hmem
    | true =>
        obtain rfl := List.mem_singleton.mp hmem
        exact .typed ⟨"null", rfl⟩
  · rw [List.filter_append, hnulls, List.append_nil, List.filter_eq_self]
    intro part hmem
    obtain ⟨type, htype⟩ := h part hmem
    rw [htype.typeOf?_eq, Option.isSome_some]
  · rw [List.any_append, List.any_eq_false.mpr fun part hmem => by simp [hparts part hmem],
      Bool.false_or]
    cases nullable <;> rfl

/-- What is put together falls into its parts again. -/
theorem splits_combine {parts : List Json}
    (h : ∀ part ∈ parts, ∃ type, TidyPart settled type part) (nullable : Bool) :
    ∃ pieces, alternatives (combine parts nullable) = .ok pieces ∧
      Splits pieces parts nullable := by
  have happend := splits_append h nullable
  match parts, h, happend with
  | [], _, happend =>
      cases nullable with
      | false => exact ⟨[.empty], rfl, by simpa using IsSingle.empty, rfl, rfl⟩
      | true => exact ⟨_, rfl, happend⟩
  | [part], h, happend =>
      obtain ⟨type, hpart⟩ := h part List.mem_cons_self
      cases nullable with
      | false => exact ⟨_, hpart.alternatives_eq, happend⟩
      | true =>
          rcases combine_nullable hpart with hany | ⟨rest, hscalar, rfl, hjoined⟩
          · exact ⟨_, by rw [hany]; rfl, happend⟩
          · refine ⟨[.obj (("type", .str type) :: rest), .obj (("type", .str "null") :: rest)], ?_,
              ?_, ?_, by simp [isOf, Json.get?, Table.get?]⟩
            · rw [hjoined]
              cases hscalar <;> rfl
            · exact List.forall_mem_cons.mpr ⟨.typed ⟨type, rfl⟩,
                List.forall_mem_singleton.mpr (.typed ⟨"null", rfl⟩)⟩
            · have hnone : typeOf? (.obj (("type", .str "null") :: rest)) = none := by
                simp [typeOf?, Json.get?, Table.get?]
              simp [hpart.typeOf?_eq, hnone]
  | first :: second :: rest, _, happend =>
      exact ⟨_, rfl, happend⟩

/-- A tidy schema of one type is a part. -/
theorem Tidy.part {type : String} (h : Tidy settled schema)
    (htype : schema.get? "type" = some (.str type)) (hnull : type ≠ "null") :
    TidyPart settled type schema := by
  induction h generalizing type with
  | @scalar found rest hscalar =>
      obtain rfl : found = type := by simpa [Json.get?, Table.get?] using htype
      exact .scalar hscalar
  | object hnodup hsub hfilled hinner =>
      obtain rfl : "object" = type := by simpa [ofObject, Json.get?, Table.get?] using htype
      exact .object hnodup hsub hfilled hinner
  | array hitems =>
      obtain rfl : "array" = type := by simpa [ofArray, Json.get?, Table.get?] using htype
      exact .array hitems
  | @combined parts nullable _ hapart _ ih =>
      rcases parts with - | ⟨part, - | ⟨second, rest⟩⟩
      · cases nullable with
        | false => cases htype
        | true =>
            simp only [combine, nullType, ofType, Json.get?, Table.get?, if_true,
              Option.some.injEq, Json.str.injEq] at htype
            exact absurd htype.symm hnull
      · cases nullable with
        | false => exact ih part List.mem_cons_self htype hnull
        | true =>
            obtain ⟨found, hfound, hne⟩ := hapart.typed part List.mem_cons_self
            rcases combine_nullable (ih part List.mem_cons_self hfound hne) with
              hany | ⟨rest, _, _, hjoined⟩
            · rw [hany] at htype
              cases htype
            · rw [hjoined] at htype
              simp [Json.get?, Table.get?] at htype
      · cases htype
  | anyOf => cases htype

theorem TidyPart.tidy {type : String} (h : TidyPart settled type schema) : Tidy settled schema := by
  cases h with
  | scalar hscalar => exact .scalar hscalar
  | object hnodup hsub hfilled hinner => exact .object hnodup hsub hfilled hinner
  | array hitems => exact .array hitems

theorem TidyPart.apart {type : String} (h : TidyPart settled type schema) : Apart [schema] :=
  ⟨List.forall_mem_singleton.mpr ⟨type, h.get?_type, h.ne_null⟩, by simp⟩

theorem TidyPart.not_onlyNumbers {type : String} (h : TidyPart settled type schema) :
    ¬ OnlyNumbers [schema] := by
  intro honly
  obtain ⟨_, hmem, hinteger⟩ := honly.integer
  obtain ⟨_, hmem', hnumber⟩ := honly.number
  obtain rfl := List.mem_singleton.mp hmem
  obtain rfl := List.mem_singleton.mp hmem'
  rw [isOf_iff] at hinteger hnumber
  simp [hinteger] at hnumber

theorem Apart.parts {parts : List Json} (h : Apart parts)
    (htidy : ∀ part ∈ parts, Tidy settled part) :
    ∀ part ∈ parts, ∃ type, TidyPart settled type part := by
  intro part hmem
  obtain ⟨type, htype, hne⟩ := h.typed part hmem
  exact ⟨type, (htidy part hmem).part htype hne⟩

theorem depth_le_combine {parts : List Json}
    (h : ∀ part ∈ parts, ∃ type, TidyPart settled type part) (nullable : Bool) :
    ∀ part ∈ parts, part.depth ≤ (combine parts nullable).depth := by
  have hanyOf {part : Json} {pieces : List Json} (hmem : part ∈ pieces) :
      part.depth ≤ (anyOf pieces).depth := by
    have hle := depth_le_depthItems hmem
    simp only [Schema.anyOf, Json.depth, Json.depthMembers]
    omega
  rcases parts with - | ⟨part, - | ⟨second, rest⟩⟩
  · exact List.forall_mem_nil _
  · refine List.forall_mem_singleton.mpr ?_
    cases nullable with
    | false => exact Nat.le_refl _
    | true =>
        obtain ⟨type, hpart⟩ := h part List.mem_cons_self
        rcases combine_nullable hpart with hany | ⟨rest, _, rfl, hjoined⟩
        · exact hany ▸ hanyOf List.mem_cons_self
        · rw [hjoined]
          simp only [Json.depth, Json.depthMembers, Json.depthItems]
          omega
  · exact fun part hmem => hanyOf (List.mem_append_left _ hmem)

/-- What a tidy schema falls into. -/
structure FallsInto (settled : Prop) (schema : Json) (parts : List Json) (nullable : Bool) :
    Prop where
  tidy : ∀ part ∈ parts, ∃ type, TidyPart settled type part
  depth : ∀ part ∈ parts, part.depth ≤ schema.depth
  apart : Apart parts
  filled : schema ≠ .empty → parts ≠ [] ∨ nullable = true
  alternatives : alternatives schema = .ok (singles [schema])
  splits : Splits (singles [schema]) parts nullable
  combined : settled → schema = combine parts nullable ∧ ¬ OnlyNumbers parts

theorem TidyPart.fallsInto {type : String} (h : TidyPart settled type schema) :
    FallsInto settled schema [schema] false := by
  have hsingles := singles_singleton h.alternatives_eq
  have hparts : ∀ part ∈ [schema], ∃ type, TidyPart settled type part :=
    List.forall_mem_singleton.mpr ⟨type, h⟩
  exact ⟨hparts, List.forall_mem_singleton.mpr (Nat.le_refl _), h.apart, fun _ => .inl (by simp),
    by rw [hsingles, h.alternatives_eq], by rw [hsingles]; exact splits_append hparts false,
    fun _ => ⟨rfl, h.not_onlyNumbers⟩⟩

theorem fallsInto_combine {parts : List Json}
    (hparts : ∀ part ∈ parts, ∃ type, TidyPart settled type part) (hapart : Apart parts)
    (honly : ¬ OnlyNumbers parts) (nullable : Bool) :
    FallsInto settled (combine parts nullable) parts nullable := by
  obtain ⟨pieces, hpieces, hsplits⟩ := splits_combine hparts nullable
  have hsingles := singles_singleton hpieces
  refine ⟨hparts, depth_le_combine hparts nullable, hapart, fun hfilled => ?_,
    by rw [hsingles, hpieces], by rwa [hsingles], fun _ => ⟨rfl, honly⟩⟩
  rcases parts with - | ⟨part, rest⟩
  · cases nullable with
    | false => exact absurd rfl hfilled
    | true => exact .inr rfl
  · exact .inl (List.cons_ne_nil _ _)

theorem Tidy.fallsInto (h : Tidy settled schema) :
    ∃ parts nullable, FallsInto settled schema parts nullable := by
  cases h with
  | scalar hscalar => exact ⟨_, _, (TidyPart.scalar hscalar).fallsInto⟩
  | object hnodup hsub hfilled hinner =>
      exact ⟨_, _, (TidyPart.object hnodup hsub hfilled hinner).fallsInto⟩
  | array hitems => exact ⟨_, _, (TidyPart.array hitems).fallsInto⟩
  | @combined parts nullable htidy hapart honly =>
      exact ⟨parts, nullable, fallsInto_combine (hapart.parts htidy) hapart honly nullable⟩
  | @anyOf parts nullable hsettled htidy hapart hlength =>
      have hparts := hapart.parts htidy
      have hsingles : singles [Schema.anyOf (parts ++ nulls nullable)] = parts ++ nulls nullable :=
        singles_singleton rfl
      refine ⟨parts, nullable, hparts, fun part hmem => ?_, hapart, fun _ => ?_,
        by rw [hsingles]; rfl, by rw [hsingles]; exact splits_append hparts nullable,
        fun h => absurd h hsettled⟩
      · have hle := depth_le_depthItems (List.mem_append_left (nulls nullable) hmem)
        simp only [Schema.anyOf, Json.depth, Json.depthMembers]
        omega
      · rcases parts with - | ⟨part, rest⟩
        · cases nullable with
          | false => exact absurd hlength (by decide)
          | true => exact .inr rfl
        · exact .inl (List.cons_ne_nil _ _)

/-- The types of parts. -/
theorem map_get?_type {types : List String} {parts : List Json}
    (h : List.Forall₂ (fun type part => part.get? "type" = some (.str type)) types parts) :
    (parts.map fun part => part.get? "type") = types.map fun type => some (.str type) := by
  induction h with
  | nil => rfl
  | cons hpart _ ih => rw [List.map_cons, List.map_cons, ih, hpart]

theorem some_str_injective : Function.Injective fun type => some (Json.str type) :=
  fun _ _ heq => Json.str.inj (Option.some.inj heq)

theorem apart_of_forall₂ {types : List String} {parts : List Json}
    (h : List.Forall₂ (fun type part => part.get? "type" = some (.str type)) types parts)
    (hnodup : types.Nodup) (hne : ∀ type ∈ types, type ≠ "null") : Apart parts := by
  refine ⟨fun part hmem => ?_, map_get?_type h ▸ hnodup.map some_str_injective⟩
  obtain ⟨type, htype, hpart⟩ := exists_left_of_forall₂ h hmem
  exact ⟨type, hpart, hne type htype⟩

namespace FallsInto

variable {parts : List Json} {nullable : Bool} {type : String}

theorem singlesOf_eq (h : FallsInto settled schema parts nullable) (hne : type ≠ "null") :
    singlesOf type [schema] = parts.filter (isOf type) := by
  rw [← h.splits.typed, List.filter_filter]
  refine List.filter_congr fun piece _ => ?_
  cases hof : isOf type piece with
  | false => rfl
  | true => rw [typeOf?_eq_some.mpr ⟨hof, hne⟩]; rfl

theorem occurs_iff (h : FallsInto settled schema parts nullable) :
    Occurs type (singles [schema]) ↔ Occurs type parts ∨ type = "null" ∧ nullable = true := by
  by_cases hnull : type = "null"
  · subst hnull
    have hparts : ¬ Occurs "null" parts := by
      rintro ⟨part, hmem, hof⟩
      obtain ⟨type, hpart⟩ := h.tidy part hmem
      exact hpart.ne_null (by simpa [isOf, hpart.get?_type] using hof)
    rw [or_iff_right hparts, and_iff_right rfl, ← h.splits.null, List.any_eq_true]
    exact Iff.rfl
  · rw [or_iff_left fun hboth => hnull hboth.1]
    have hmem (piece : Json) : piece ∈ singles [schema] ∧ isOf type piece = true ↔
        piece ∈ parts ∧ isOf type piece = true := by
      rw [← List.mem_filter, ← List.mem_filter, ← h.singlesOf_eq hnull, singlesOf]
    exact exists_congr hmem

theorem onlyNumbers_iff (h : FallsInto settled schema parts nullable) :
    OnlyNumbers (singles [schema]) ↔ OnlyNumbers parts := by
  have hoccurs {type : String} (hne : type ≠ "null") :
      Occurs type (singles [schema]) ↔ Occurs type parts := by
    rw [h.occurs_iff, or_iff_left fun hboth => hne hboth.1]
  constructor
  · exact fun honly => ⟨(hoccurs (by decide)).mp honly.integer,
      (hoccurs (by decide)).mp honly.number,
      fun type htype => honly.others type (h.occurs_iff.mpr (.inl htype))⟩
  · refine fun honly => ⟨(hoccurs (by decide)).mpr honly.integer,
      (hoccurs (by decide)).mpr honly.number, fun type htype => ?_⟩
    rcases h.occurs_iff.mp htype with hpart | ⟨rfl, _⟩
    · exact honly.others type hpart
    · decide

/-- A part is the only one of its type. -/
theorem singlesOf_part (h : FallsInto settled schema parts nullable) {part : Json}
    (hmem : part ∈ parts) (hpart : TidyPart settled type part) :
    singlesOf type [schema] = [part] := by
  have hone := filter_key_eq h.apart.nodup hmem
  rw [hpart.get?_type] at hone
  rw [h.singlesOf_eq hpart.ne_null]
  exact hone

end FallsInto

theorem Tidy.fallsApart (h : Tidy settled schema) : FallsApart schema := by
  obtain ⟨parts, nullable, hfalls⟩ := h.fallsInto
  exact ⟨hfalls.alternatives, hfalls.splits.single⟩

/-- A tidy schema has one alternative of a type at most. -/
theorem Tidy.singlesOf_eq_singleton {type : String} {piece : Json} (h : Tidy settled schema)
    (hne : type ≠ "null") (hmem : piece ∈ singlesOf type [schema]) :
    TidyPart settled type piece ∧ singlesOf type [schema] = [piece] := by
  obtain ⟨parts, nullable, hfalls⟩ := h.fallsInto
  obtain ⟨hpart, hof⟩ := List.mem_filter.mp (hfalls.singlesOf_eq hne ▸ hmem)
  obtain ⟨found, hfound⟩ := hfalls.tidy piece hpart
  obtain rfl : found = type := by simpa [hfound.get?_type] using isOf_iff.mp hof
  exact ⟨hfound, hfalls.singlesOf_part hpart hfound⟩

/-- What says something has a type. -/
theorem Tidy.exists_occurs (h : Tidy settled schema) (hfilled : schema ≠ .empty) :
    ∃ type, Occurs type (singles [schema]) := by
  obtain ⟨parts, nullable, hfalls⟩ := h.fallsInto
  rcases hfalls.filled hfilled with hparts | rfl
  · obtain ⟨part, hmem⟩ := List.exists_mem_of_ne_nil _ hparts
    obtain ⟨type, hpart⟩ := hfalls.tidy part hmem
    exact ⟨type, hfalls.occurs_iff.mpr (.inl ⟨part, hmem, isOf_iff.mpr hpart.get?_type⟩)⟩
  · exact ⟨"null", hfalls.occurs_iff.mpr (.inr ⟨rfl, rfl⟩)⟩

/-- Schemas of a type other than null are parts of a tidy schema. -/
theorem tidyPart_of_mem_singlesOf {schemas : List Json} {bound : Nat} {type : String}
    (hne : type ≠ "null") (h : ∀ schema ∈ schemas, Tidy settled schema ∧ schema.depth ≤ bound) :
    ∀ piece ∈ singlesOf type schemas, TidyPart settled type piece ∧ piece.depth ≤ bound := by
  intro piece hmem
  obtain ⟨hsingle, hof⟩ := List.mem_filter.mp hmem
  obtain ⟨schema, hschema, hpiece⟩ := mem_singles.mp hsingle
  obtain ⟨htidy, hdepth⟩ := h schema hschema
  obtain ⟨parts, nullable, hfalls⟩ := htidy.fallsInto
  have hpart : piece ∈ parts := by
    have hthere : piece ∈ parts.filter (isOf type) :=
      hfalls.singlesOf_eq hne ▸ List.mem_filter.mpr ⟨hpiece, hof⟩
    exact List.mem_of_mem_filter hthere
  obtain ⟨found, hfound⟩ := hfalls.tidy piece hpart
  obtain rfl : found = type := by
    simpa [hfound.get?_type] using isOf_iff.mp hof
  exact ⟨hfound, Nat.le_trans (hfalls.depth piece hpart) hdepth⟩

end RequestShapes.Schema
