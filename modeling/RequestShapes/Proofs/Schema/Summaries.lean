import RequestShapes.Proofs.Schema.Forms

/-!
# Inferred schemas summarize what was observed

An inferred schema says no more than was observed in its position. Each of its
types occurs, the properties of an object schema are the names that occur, the
required ones those that every object has, and only where no item was observed
do the items have the empty schema. Merging schemas summarizes what each of them
summarizes.
-/

namespace RequestShapes.Schema

/-! ## Observed values -/

/-- The values observed in one position. -/
abbrev Observed := Json → Prop

/-- What is observed under a name. -/
def Observed.under (observed : Observed) (name : String) : Observed :=
  fun value => ∃ members, observed (.obj members) ∧ Table.get? members name = some value

/-- What is observed among the items of arrays. -/
def Observed.elements (observed : Observed) : Observed :=
  fun value => ∃ items, observed (.arr items) ∧ value ∈ items

/-- A schema with the values it is made of. -/
abbrev Summary := Observed × Json

/-- What any of several summaries is made of. -/
def joined (parts : List Summary) : Observed :=
  fun value => ∃ part ∈ parts, part.1 value

/-- The summary of null, if there is one. -/
def nullParts (nullable : Bool) : List Summary :=
  if nullable then [((· = .null), nullType)] else []

theorem joined_cons (part : Summary) (parts : List Summary) (value : Json) :
    joined (part :: parts) value ↔ part.1 value ∨ joined parts value :=
  List.exists_mem_cons_iff _ _ _

theorem joined_append (parts others : List Summary) (value : Json) :
    joined (parts ++ others) value ↔ joined parts value ∨ joined others value := by
  simp only [joined, List.mem_append, or_and_right, exists_or]

theorem joined_nullParts (nullable : Bool) (value : Json) :
    joined (nullParts nullable) value ↔ nullable = true ∧ value = .null := by
  cases nullable <;> simp [nullParts, joined]

theorem map_nullParts (nullable : Bool) :
    (nullParts nullable).map Prod.snd = if nullable then [nullType] else [] := by
  cases nullable <;> rfl

/-! ## Summaries -/

/-- A schema has one type, which is not null. -/
def IsTyped (schema : Json) : Prop :=
  ∃ type, schema.get? "type" = some (.str type) ∧ type ≠ "null"

/-- A schema summarizes observed values. -/
inductive Summarizes : Observed → Json → Prop
  | empty {observed : Observed} : (∀ value, ¬ observed value) → Summarizes observed .empty
  | null {observed : Observed} : (∀ value, observed value ↔ value = .null) →
      Summarizes observed nullType
  | scalar {observed : Observed} {type : String} {rest : List (String × Json)} :
      Scalar type rest → (∃ value, observed value) →
      (∀ value, observed value → Fits (.obj (("type", .str type) :: rest)) value) →
      Summarizes observed (.obj (("type", .str type) :: rest))
  | nullable {observed others : Observed} {type : String} {rest : List (String × Json)} :
      Scalar type rest → Summarizes others (.obj (("type", .str type) :: rest)) →
      (∀ value, observed value ↔ others value ∨ value = .null) →
      Summarizes observed (.obj (("type", .arr [.str type, .str "null"]) :: rest))
  | object {observed : Observed} {properties : List (String × Json)} {required : List String} :
      (∃ value, observed value) → (∀ value, observed value → ∃ members, value = .obj members) →
      (Table.names properties).Nodup → required.Sublist (Table.names properties) →
      (∀ name, name ∈ Table.names properties ↔
        ∃ members, observed (.obj members) ∧ name ∈ Table.names members) →
      (∀ name, name ∈ required ↔ ∀ members, observed (.obj members) → name ∈ Table.names members) →
      (∀ entry ∈ properties, Summarizes (observed.under entry.1) entry.2) →
      Summarizes observed (ofObject properties required)
  | array {observed : Observed} {schema : Json} :
      (∃ value, observed value) → (∀ value, observed value → ∃ items, value = .arr items) →
      Summarizes observed.elements schema → Summarizes observed (ofArray schema)
  | anyOf {observed : Observed} {parts : List Summary} {nullable : Bool} :
      2 ≤ (parts ++ nullParts nullable).length → (∀ part ∈ parts, Summarizes part.1 part.2) →
      (∀ part ∈ parts, IsTyped part.2) → (parts.map fun part => part.2.get? "type").Nodup →
      (∀ value, observed value ↔ joined (parts ++ nullParts nullable) value) →
      Summarizes observed (anyOf ((parts ++ nullParts nullable).map Prod.snd))

namespace Summarizes

variable {observed others : Observed} {schema : Json}

theorem congr (h : Summarizes observed schema) (hsame : ∀ value, others value ↔ observed value) :
    Summarizes others schema := by
  have heq : others = observed := funext fun value => propext (hsame value)
  rwa [heq]

theorem normal (h : Summarizes observed schema) : Normal schema := by
  induction h with
  | empty => exact .empty
  | null => exact .null
  | scalar hscalar => exact .scalar hscalar
  | nullable hscalar => exact .nullable hscalar
  | object _ _ hnodup _ _ _ _ ih => exact .object hnodup ih
  | array _ _ _ ih => exact .array ih
  | @anyOf _ parts nullable _ _ htyped _ _ ih =>
      have hall : ∀ schema ∈ (parts ++ nullParts nullable).map Prod.snd,
          Normal schema ∧ HasSingleType schema := by
        intro schema hmem
        obtain ⟨part, hpart, rfl⟩ := List.mem_map.mp hmem
        rcases List.mem_append.mp hpart with hpart | hpart
        · exact ⟨ih part hpart, (htyped part hpart).imp fun _ htype => htype.1⟩
        · cases nullable with
          | false => cases hpart
          | true =>
              obtain rfl := List.mem_singleton.mp hpart
              exact ⟨.null, "null", rfl⟩
      exact .anyOf (fun schema hmem => (hall schema hmem).1) fun schema hmem => (hall schema hmem).2

/-- What was observed is described. -/
theorem fits (h : Summarizes observed schema) : ∀ value, observed value → Fits schema value := by
  induction h with
  | empty hnone => exact fun value hvalue => absurd hvalue (hnone value)
  | null hnull =>
      intro value hvalue
      rw [(hnull value).mp hvalue]
      exact .null
  | scalar _ _ hfits => exact hfits
  | nullable hscalar _ hsame ih =>
      intro value hvalue
      rcases (hsame value).mp hvalue with hvalue | rfl
      · exact .nullable hscalar (ih value hvalue)
      · exact .absent hscalar
  | object _ hobjects _ _ hnames hrequired _ ih =>
      intro value hvalue
      obtain ⟨members, rfl⟩ := hobjects value hvalue
      refine .object (fun name hname => (hrequired name).mp hname members hvalue)
        (fun name hname => (hnames name).mpr ⟨members, hvalue, hname⟩) ?_
      intro name inner property hget hproperty
      exact ih (name, property) (Table.mem_of_get? hproperty) inner ⟨members, hvalue, hget⟩
  | array _ harrays _ ih =>
      intro value hvalue
      obtain ⟨items, rfl⟩ := harrays value hvalue
      exact .array fun item hmem => ih item ⟨items, hvalue, hmem⟩
  | @anyOf _ parts nullable _ _ _ _ hsame ih =>
      intro value hvalue
      obtain ⟨part, hpart, hvalue⟩ := (hsame value).mp hvalue
      refine .anyOf (List.mem_map_of_mem hpart) ?_
      rcases List.mem_append.mp hpart with hpart | hpart
      · exact ih part hpart value hvalue
      · cases nullable with
        | false => cases hpart
        | true =>
            obtain rfl := List.mem_singleton.mp hpart
            cases hvalue
            exact .null

theorem exists_of_ne_empty (h : Summarizes observed schema) (hne : schema ≠ .empty) :
    ∃ value, observed value := by
  induction h with
  | empty => exact absurd rfl hne
  | null hnull => exact ⟨.null, (hnull .null).mpr rfl⟩
  | scalar _ hsome | object hsome | array hsome => exact hsome
  | nullable _ _ hsame => exact ⟨.null, (hsame .null).mpr (.inr rfl)⟩
  | @anyOf _ parts nullable hlength _ htyped _ hsame ih =>
      cases parts with
      | nil => cases nullable <;> simp [nullParts] at hlength
      | cons part rest =>
          obtain ⟨type, htype, _⟩ := htyped part List.mem_cons_self
          obtain ⟨value, hvalue⟩ := ih part List.mem_cons_self (by
            rintro heq
            rw [heq] at htype
            cases htype)
          exact ⟨value, (hsame value).mpr ⟨part, List.mem_append_left _ List.mem_cons_self, hvalue⟩⟩

theorem exists_of_type (h : Summarizes observed schema) {type : String}
    (htype : schema.get? "type" = some (.str type)) : ∃ value, observed value :=
  h.exists_of_ne_empty (by
    rintro rfl
    cases htype)

/-- Nothing was observed where the schema is empty. -/
theorem not_observed (h : Summarizes observed .empty) (value : Json) : ¬ observed value :=
  fun hvalue => not_fits_empty value (h.fits value hvalue)

end Summarizes

/-! ## Taking summaries apart -/

/-- A summary that is sorted: of nothing, of null, or of one other type. -/
inductive IsPiece : Summary → Prop
  | empty {observed : Observed} : (∀ value, ¬ observed value) → IsPiece (observed, .empty)
  | null {observed : Observed} {schema : Json} : (∀ value, observed value ↔ value = .null) →
      schema.isObject = true → schema.isVacant = false →
      schema.get? "type" = some (.str "null") → IsPiece (observed, schema)
  | typed {observed : Observed} {schema : Json} : Summarizes observed schema → IsTyped schema →
      IsPiece (observed, schema)

theorem isPiece_of_mem_nullParts {nullable : Bool} {part : Summary}
    (h : part ∈ nullParts nullable) : IsPiece part := by
  cases nullable with
  | false => cases h
  | true =>
      obtain rfl := List.mem_singleton.mp h
      exact .null (fun _ => Iff.rfl) rfl rfl rfl

/-- A summary falls into pieces that together are made of the same values. -/
theorem Summarizes.alternatives {observed : Observed} {schema : Json}
    (h : Summarizes observed schema) :
    ∃ pieces, alternatives schema = .ok (pieces.map Prod.snd) ∧
      (∀ piece ∈ pieces, IsPiece piece ∧ piece.2.depth ≤ schema.depth) ∧
      ∀ value, observed value ↔ joined pieces value := by
  have hsame (value : Json) : observed value ↔ joined [(observed, schema)] value := by
    simp [joined]
  have hwhole (hone : Schema.alternatives schema = .ok [schema]) (hpiece : IsPiece (observed, schema)) :
      ∃ pieces, Schema.alternatives schema = .ok (pieces.map Prod.snd) ∧
        (∀ piece ∈ pieces, IsPiece piece ∧ piece.2.depth ≤ schema.depth) ∧
        ∀ value, observed value ↔ joined pieces value :=
    ⟨[(observed, schema)], hone, List.forall_mem_singleton.mpr ⟨hpiece, Nat.le_refl _⟩, hsame⟩
  cases h with
  | empty hnone => exact hwhole rfl (.empty hnone)
  | null hnull => exact hwhole rfl (.null hnull rfl rfl rfl)
  | @scalar _ type rest hscalar hsome hfits =>
      refine hwhole ?_ (.typed (.scalar hscalar hsome hfits) ⟨type, rfl, hscalar.ne_null⟩)
      cases hscalar <;> rfl
  | @nullable _ others type rest hscalar hothers hsplit =>
      have hdepth (name : String) : Json.depth (.obj (("type", .str name) :: rest)) ≤
          Json.depth (.obj (("type", .arr [.str type, .str "null"]) :: rest)) := by
        simp only [Json.depth, Json.depthMembers, Json.depthItems]
        omega
      refine ⟨[(others, .obj (("type", .str type) :: rest)),
        ((· = .null), .obj (("type", .str "null") :: rest))], ?_, ?_, fun value => ?_⟩
      · cases hscalar <;> rfl
      · refine List.forall_mem_cons.mpr ⟨⟨?_, hdepth type⟩,
          List.forall_mem_singleton.mpr ⟨?_, hdepth "null"⟩⟩
        · exact .typed hothers ⟨type, rfl, hscalar.ne_null⟩
        · exact .null (fun _ => Iff.rfl) rfl rfl rfl
      · rw [hsplit]
        simp [joined]
  | object hsome hobjects hnodup hsub hnames hrequired hinner =>
      exact hwhole rfl (.typed (.object hsome hobjects hnodup hsub hnames hrequired hinner)
        ⟨"object", rfl, by decide⟩)
  | array hsome harrays hinner =>
      exact hwhole rfl (.typed (.array hsome harrays hinner) ⟨"array", rfl, by decide⟩)
  | @anyOf _ parts nullable _ hparts htyped _ hjoined =>
      refine ⟨parts ++ nullParts nullable, rfl, fun piece hmem => ⟨?_, ?_⟩, hjoined⟩
      · rcases List.mem_append.mp hmem with hpart | hnull
        · exact .typed (hparts piece hpart) (htyped piece hpart)
        · exact isPiece_of_mem_nullParts hnull
      · have hle := depth_le_depthItems (List.mem_map_of_mem (f := Prod.snd) hmem)
        simp only [Schema.anyOf, Json.depth, Json.depthMembers]
        omega

/-! ## Sorting summaries by type -/

/-- The summaries of one type. -/
abbrev Group := String × List Summary

/-- The schemas of a group under its type. -/
def Group.entry (group : Group) : Json × List Json :=
  (.str group.1, group.2.map Prod.snd)

/-- What the summaries of groups are made of. -/
def gathered (groups : List Group) : Observed :=
  fun value => ∃ group ∈ groups, joined group.2 value

theorem gathered_cons (group : Group) (groups : List Group) (value : Json) :
    gathered (group :: groups) value ↔ joined group.2 value ∨ gathered groups value :=
  List.exists_mem_cons_iff _ _ _

/-- A group holds summaries of its type, nested at most so deeply. -/
structure Group.Holds (bound : Nat) (group : Group) : Prop where
  ne_null : group.1 ≠ "null"
  nonempty : group.2 ≠ []
  summarizes : ∀ part ∈ group.2, Summarizes part.1 part.2
  type : ∀ part ∈ group.2, part.2.get? "type" = some (.str group.1)
  depth : ∀ part ∈ group.2, part.2.depth ≤ bound

theorem addToGroup_summary {bound : Nat} {groups : List Group} {part : Summary} {type : String}
    (h : ∀ group ∈ groups, group.Holds bound) (hpart : Summarizes part.1 part.2)
    (htype : part.2.get? "type" = some (.str type)) (hne : type ≠ "null")
    (hdepth : part.2.depth ≤ bound) (hnodup : (groups.map Prod.fst).Nodup) :
    ∃ later : List Group,
      addToGroup (groups.map Group.entry) (.str type) part.2 = later.map Group.entry ∧
      (∀ group ∈ later, group.Holds bound) ∧ (later.map Prod.fst).Nodup ∧
      (∀ name ∈ later.map Prod.fst, name ∈ groups.map Prod.fst ∨ name = type) ∧
      ∀ value, gathered later value ↔ gathered groups value ∨ part.1 value := by
  induction groups with
  | nil =>
      refine ⟨[(type, [part])], rfl, List.forall_mem_singleton.mpr ?_, by simp, by simp,
        fun value => by simp only [gathered_cons, joined_cons]; simp [gathered, joined]⟩
      exact ⟨hne, by simp, List.forall_mem_singleton.mpr hpart, List.forall_mem_singleton.mpr htype,
        List.forall_mem_singleton.mpr hdepth⟩
  | cons first rest ih =>
      obtain ⟨hfirst, hrest⟩ := List.forall_mem_cons.mp h
      obtain ⟨hfresh, hrestNodup⟩ := List.nodup_cons.mp hnodup
      obtain ⟨name, parts⟩ := first
      by_cases hsame : name = type
      · subst hsame
        refine ⟨(name, parts ++ [part]) :: rest, ?_, List.forall_mem_cons.mpr ⟨?_, hrest⟩,
          List.nodup_cons.mpr ⟨hfresh, hrestNodup⟩, fun other hmem => .inl hmem, fun value => ?_⟩
        · simp [addToGroup, Group.entry]
        · exact ⟨hne, by simp,
            List.forall_mem_append.mpr ⟨hfirst.summarizes, List.forall_mem_singleton.mpr hpart⟩,
            List.forall_mem_append.mpr ⟨hfirst.type, List.forall_mem_singleton.mpr htype⟩,
            List.forall_mem_append.mpr ⟨hfirst.depth, List.forall_mem_singleton.mpr hdepth⟩⟩
        · rw [gathered_cons, gathered_cons, joined_append, joined_cons]
          simp only [joined, List.not_mem_nil, false_and, exists_false, or_false]
          exact or_right_comm
      · obtain ⟨later, hlater, hholds, hlaterNodup, hnames, hgathered⟩ := ih hrest hrestNodup
        refine ⟨(name, parts) :: later, ?_, List.forall_mem_cons.mpr ⟨hfirst, hholds⟩,
          List.nodup_cons.mpr ⟨fun hmem => ?_, hlaterNodup⟩, fun other hmem => ?_, fun value => ?_⟩
        · simp [addToGroup, Group.entry, hsame, ← hlater]
        · exact (hnames name hmem).elim hfresh hsame
        · rcases List.mem_cons.mp hmem with rfl | hmem
          · exact .inl List.mem_cons_self
          · exact (hnames other hmem).imp_left (List.mem_cons_of_mem _)
        · rw [gathered_cons, gathered_cons, hgathered]
          tauto

/-- Summaries have been sorted. -/
structure Sorts (bound : Nat) (sorted : Sorted) (observed : Observed) (groups : List Group) :
    Prop where
  entries : sorted.groups = groups.map Group.entry
  holds : ∀ group ∈ groups, group.Holds bound
  nodup : (groups.map Prod.fst).Nodup
  observed : ∀ value, observed value ↔ gathered groups value ∨ sorted.nullable = true ∧ value = .null

/-- One more piece is sorted. -/
theorem Sorts.add {bound : Nat} {sorted : Sorted} {observed : Observed} {groups : List Group}
    (h : Sorts bound sorted observed groups) {piece : Summary} (hpiece : IsPiece piece)
    (hdepth : piece.2.depth ≤ bound) :
    ∃ next later, sorted.add piece.2 = .ok next ∧
      Sorts bound next (fun value => observed value ∨ piece.1 value) later := by
  cases hpiece with
  | empty hnone =>
      refine ⟨sorted, groups, rfl, h.entries, h.holds, h.nodup, fun value => ?_⟩
      rw [← h.observed]
      exact or_iff_left (hnone value)
  | @null other _ hnull hobject hvacant htype =>
      refine ⟨{ sorted with nullable := true }, groups, ?_, h.entries, h.holds, h.nodup,
        fun value => ?_⟩
      · simp [Sorted.add, hobject, hvacant, htype]
      · change observed value ∨ other value ↔ gathered groups value ∨ true = true ∧ value = .null
        rw [h.observed, hnull, or_assoc, or_iff_right_of_imp And.right, eq_self, true_and]
  | @typed _ schema hsummarizes htyped =>
      obtain ⟨type, htype, hne⟩ := htyped
      obtain ⟨later, hlater, hholds, hnodup, _, hgathered⟩ := @addToGroup_summary bound groups
        (_, schema) type h.holds hsummarizes htype hne hdepth h.nodup
      have hvacant : schema.isVacant = false := by
        cases hempty : schema.isVacant with
        | false => rfl
        | true =>
            rw [hsummarizes.normal.eq_empty hempty] at htype
            cases htype
      refine ⟨{ sorted with groups := later.map Group.entry }, later, ?_, rfl, hholds, hnodup,
        fun value => ?_⟩
      · simp [Sorted.add, hsummarizes.normal.isObject, hvacant, htype, hne, Json.isContainer,
          h.entries, ← hlater]
      · rw [h.observed, hgathered]
        exact or_right_comm

/-- Pieces are sorted one after the other. -/
theorem sortByType_summaries {bound : Nat} {pieces : List Summary}
    (h : ∀ piece ∈ pieces, IsPiece piece ∧ piece.2.depth ≤ bound) :
    ∃ sorted groups, sortByType (pieces.map Prod.snd) = .ok sorted ∧
      Sorts bound sorted (joined pieces) groups := by
  have hrun : ∀ (pieces : List Summary) (sorted : Sorted) (observed : Observed)
      (groups : List Group), (∀ piece ∈ pieces, IsPiece piece ∧ piece.2.depth ≤ bound) →
      Sorts bound sorted observed groups → ∃ last later,
        (pieces.map Prod.snd).foldlM Sorted.add sorted = .ok last ∧
        Sorts bound last (fun value => observed value ∨ joined pieces value) later := by
    intro pieces
    induction pieces with
    | nil =>
        intro sorted observed groups _ hsorts
        exact ⟨sorted, groups, rfl, by simpa [joined] using hsorts⟩
    | cons piece rest ih =>
        intro sorted observed groups hpieces hsorts
        obtain ⟨⟨hpiece, hdepth⟩, hrest⟩ := List.forall_mem_cons.mp hpieces
        obtain ⟨next, middle, hnext, hsorts⟩ := hsorts.add hpiece hdepth
        obtain ⟨last, later, hlast, hsorts⟩ := ih next _ middle hrest hsorts
        refine ⟨last, later, ?_, ?_⟩
        · rw [List.map_cons, List.foldlM_cons, hnext]
          exact hlast
        · simpa only [joined_cons, or_assoc] using hsorts
  obtain ⟨sorted, groups, hsorted, hsorts⟩ := hrun pieces ⟨[], false⟩ (fun _ => False) [] h
    ⟨rfl, fun _ hmem => (nomatch hmem), List.nodup_nil, by simp [gathered]⟩
  exact ⟨sorted, groups, hsorted, by simpa using hsorts⟩

end RequestShapes.Schema
