import RequestShapes.Proofs.Schema.Inferring

/-!
# Positions in samples and schemas

A position is a way into nested values, by names and to the elements of arrays.
A schema is followed on the same way through its properties and its items, and
among alternatives through the object or the array. The objects observed in a
position are summarized by exactly one object schema: its properties are the
names of any of them, and it requires the names of all of them.
-/

namespace RequestShapes.Schema

/-! ## Ways into values and schemas -/

/-- One step of a way into a value: to what stands under a name of an object, or
to the elements of an array. -/
inductive Stage where
  | under (name : String)
  | elements
deriving DecidableEq

/-- A way into a value. -/
abbrev Position := List Stage

/-- The type of the values that have an inside at a stage. -/
def Stage.type : Stage → String
  | under _ => "object"
  | elements => "array"

/-- What a schema of the type says of the inside. -/
def Stage.inner? : Stage → Json → Option Json
  | under name, schema => (schema.get? "properties").bind fun properties => properties.get? name
  | elements, schema => schema.get? "items"

/-- What is observed one stage further. -/
def Observed.step (observed : Observed) : Stage → Observed
  | .under name => observed.under name
  | .elements => observed.elements

/-- What is observed in a position. -/
def Observed.along (observed : Observed) : Position → Observed
  | [] => observed
  | stage :: rest => (observed.step stage).along rest

/-- The schemas of single types that schemas are made of. -/
def singles (schemas : List Json) : List Json :=
  schemas.flatMap fun schema => (alternatives schema).toOption.getD []

/-- Whether a schema is of a type alone. -/
def isOf (type : String) (schema : Json) : Bool :=
  schema.get? "type" = some (.str type)

/-- Those of one type. -/
def singlesOf (type : String) (schemas : List Json) : List Json :=
  (singles schemas).filter (isOf type)

/-- The schemas one stage further. -/
def inside (schemas : List Json) (stage : Stage) : List Json :=
  (singlesOf stage.type schemas).filterMap stage.inner?

/-- The schemas in a position. -/
def insideAlong (schemas : List Json) : Position → List Json
  | [] => schemas
  | stage :: rest => insideAlong (inside schemas stage) rest

theorem singles_singleton {schema : Json} {pieces : List Json}
    (h : alternatives schema = .ok pieces) : singles [schema] = pieces := by
  simp [singles, h, Except.toOption]

/-- A member is the only one that has its key. -/
theorem filter_key_eq {α β : Type} [DecidableEq β] {key : α → β} {items : List α} {item : α}
    (hnodup : (items.map key).Nodup) (hmem : item ∈ items) :
    (items.filter fun other => key other = key item) = [item] := by
  induction items with
  | nil => cases hmem
  | cons first rest ih =>
      obtain ⟨hfresh, hrest⟩ := List.nodup_cons.mp hnodup
      rcases List.mem_cons.mp hmem with rfl | hmem
      · rw [List.filter_cons_of_pos (by simp), List.filter_eq_nil_iff.mpr]
        intro other hother
        simpa using fun heq : key other = key item => hfresh (heq ▸ List.mem_map_of_mem hother)
      · have hne : key first ≠ key item := fun heq => hfresh (heq ▸ List.mem_map_of_mem hmem)
        rw [List.filter_cons_of_neg (by simpa using hne), ih hrest hmem]

/-! ## Objects and arrays among alternatives -/

/-- The types of the values that have an inside. -/
def IsContainerType (type : String) : Prop :=
  type = "object" ∨ type = "array"

theorem IsContainerType.not_scalar {type : String} {rest : List (String × Json)}
    (h : IsContainerType type) : ¬ Scalar type rest := by
  intro hscalar
  rcases h with rfl | rfl <;> exact absurd hscalar.mem (by decide)

theorem HasType.eq_of_container {value : Json} {type other : String} (h : HasType value type)
    (htype : IsContainerType type) (hother : HasType value other) : other = type := by
  cases h with
  | arr | obj =>
      cases hother
      rfl
  | _ => simp [IsContainerType] at htype

theorem not_hasType_null {type : String} (h : IsContainerType type) : ¬ HasType .null type := by
  intro hnull
  cases hnull
  simp [IsContainerType] at h

/-- The alternative of objects, or of arrays, summarizes those that were observed. -/
theorem Summarizes.single {observed : Observed} {schema value : Json} {type : String}
    (h : Summarizes observed schema) (hcontainer : IsContainerType type)
    (hvalue : observed value) (htype : HasType value type) :
    ∃ piece others, singlesOf type [schema] = [piece] ∧ Summarizes others piece ∧
      ∀ found, others found ↔ observed found ∧ HasType found type := by
  -- A schema that is no choice is its own and only alternative.
  have hwhole (halone : Schema.alternatives schema = .ok [schema]) {found : String}
      (hget : schema.get? "type" = some (.str found)) (hsummarizes : Summarizes observed schema) :
      ∃ piece others, singlesOf type [schema] = [piece] ∧ Summarizes others piece ∧
        ∀ found, others found ↔ observed found ∧ HasType found type := by
    obtain rfl := htype.eq_of_container hcontainer ((hsummarizes.fits value hvalue).hasType hget)
    refine ⟨schema, observed, ?_, hsummarizes, fun other => ?_⟩
    · rw [singlesOf, singles_singleton halone]
      simp [isOf, hget]
    · exact (and_iff_left_of_imp fun hother => (hsummarizes.fits other hother).hasType hget).symm
  have hnotNull : value ≠ .null := by
    rintro rfl
    exact not_hasType_null hcontainer htype
  cases h with
  | empty hnone => exact absurd hvalue (hnone value)
  | null hnull => exact absurd ((hnull value).mp hvalue) hnotNull
  | @scalar _ found rest hscalar hsome hfits =>
      obtain rfl := htype.eq_of_container hcontainer ((hfits value hvalue).hasType rfl)
      exact absurd hscalar hcontainer.not_scalar
  | @nullable _ others found rest hscalar hothers hsame =>
      have hfits := hothers.fits value (((hsame value).mp hvalue).resolve_right hnotNull)
      obtain rfl := htype.eq_of_container hcontainer (hfits.hasType rfl)
      exact absurd hscalar hcontainer.not_scalar
  | object hsome hobjects hnodup hsub hnames hrequired hinner =>
      exact hwhole rfl rfl (.object hsome hobjects hnodup hsub hnames hrequired hinner)
  | array hsome harrays hinner => exact hwhole rfl rfl (.array hsome harrays hinner)
  | @anyOf _ parts nullable _ hparts htyped hnodup hjoined =>
      -- A container has one type only, so every alternative that observed one is of this type.
      have hmatch {part : Summary} {found : Json} (hpart : part ∈ parts) (hfound : part.1 found)
          (hhas : HasType found type) : part.2.get? "type" = some (.str type) := by
        obtain ⟨other, hother, _⟩ := htyped part hpart
        obtain rfl := hhas.eq_of_container hcontainer
          (((hparts part hpart).fits found hfound).hasType hother)
        exact hother
      have hin {found : Json} (hfound : observed found) (hhas : HasType found type) :
          ∃ part ∈ parts, part.1 found := by
        rcases (joined_append parts _ found).mp ((hjoined found).mp hfound) with hpart | hnull
        · exact hpart
        · obtain ⟨-, rfl⟩ := (joined_nullParts nullable found).mp hnull
          exact absurd hhas (not_hasType_null hcontainer)
      obtain ⟨part, hpart, hthere⟩ := hin hvalue htype
      have hget := hmatch hpart hthere htype
      refine ⟨part.2, part.1, ?_, hparts part hpart, fun found => ⟨fun hfound => ?_, ?_⟩⟩
      · have hnulls : ((nullParts nullable).map Prod.snd).filter (isOf type) = [] := by
          rw [map_nullParts]
          rcases hcontainer with rfl | rfl <;> cases nullable <;> rfl
        have hone := filter_key_eq hnodup hpart
        rw [hget] at hone
        rw [singlesOf, @singles_singleton _ ((parts ++ nullParts nullable).map Prod.snd) rfl,
          List.map_append, List.filter_append, hnulls, List.append_nil, List.filter_map]
        exact congrArg (List.map Prod.snd) hone
      · exact ⟨(hjoined found).mpr ((joined_append _ _ found).mpr (.inl ⟨part, hpart, hfound⟩)),
          ((hparts part hpart).fits found hfound).hasType hget⟩
      · rintro ⟨hfound, hhas⟩
        obtain ⟨other, hother, hin⟩ := hin hfound hhas
        have heq : other = part := by
          have hboth := filter_key_eq hnodup hpart
          rw [hget] at hboth
          exact List.mem_singleton.mp (hboth ▸ List.mem_filter.mpr
            ⟨hother, by simpa using hmatch hother hin hhas⟩)
        exact heq ▸ hin

/-- The objects observed in a position are summarized by one object schema. -/
theorem Summarizes.single_object {observed : Observed} {schema : Json}
    {members : List (String × Json)} (h : Summarizes observed schema)
    (hmembers : observed (.obj members)) :
    ∃ properties required others, singlesOf "object" [schema] = [ofObject properties required] ∧
      SummarizesObject others properties required ∧
      ∀ found, others (.obj found) ↔ observed (.obj found) := by
  obtain ⟨piece, others, hpiece, hsummarizes, hsame⟩ := h.single (.inl rfl) hmembers (.obj members)
  have htype : piece.get? "type" = some (.str "object") := by
    have hmem : piece ∈ singlesOf "object" [schema] := hpiece ▸ List.mem_singleton_self piece
    simpa [isOf] using (List.mem_filter.mp hmem).2
  obtain ⟨properties, required, rfl, hobject⟩ := hsummarizes.of_object htype
  refine ⟨properties, required, others, hpiece, hobject, fun found => ?_⟩
  rw [hsame]
  exact and_iff_left (.obj found)

/-- What is observed one stage further is summarized by one schema. -/
theorem Summarizes.inside {observed : Observed} {schema value : Json} {stage : Stage}
    (h : Summarizes observed schema) (hvalue : observed.step stage value) :
    ∃ found, inside [schema] stage = [found] ∧ Summarizes (observed.step stage) found := by
  cases stage with
  | under name =>
      obtain ⟨members, hmembers, hget⟩ := hvalue
      obtain ⟨properties, required, others, hsingle, hobject, hsame⟩ := h.single_object hmembers
      obtain ⟨found, hfound⟩ := Table.exists_get?_of_mem_names ((hobject.names name).mpr
        ⟨members, (hsame members).mpr hmembers, Table.mem_names_of_get? hget⟩)
      refine ⟨found, ?_, (hobject.inner _ (Table.mem_of_get? hfound)).congr fun inner => ?_⟩
      · rw [Schema.inside, show singlesOf (Stage.under name).type [schema] = _ from hsingle,
          List.filterMap_cons_some (show (Stage.under name).inner? (ofObject properties required) =
            some found from hfound), List.filterMap_nil]
      · exact exists_congr fun members => and_congr_left fun _ => (hsame members).symm
  | elements =>
      obtain ⟨items, hitems, _⟩ := hvalue
      obtain ⟨piece, others, hpiece, hsummarizes, hsame⟩ := h.single (.inr rfl) hitems (.arr items)
      have htype : piece.get? "type" = some (.str "array") := by
        have hmem : piece ∈ singlesOf "array" [schema] := hpiece ▸ List.mem_singleton_self piece
        simpa [isOf] using (List.mem_filter.mp hmem).2
      obtain ⟨found, rfl, _, _, hinner⟩ := hsummarizes.of_array htype
      refine ⟨found, ?_, hinner.congr fun inner => ?_⟩
      · rw [Schema.inside, show singlesOf Stage.elements.type [schema] = _ from hpiece]
        rfl
      · refine exists_congr fun items => and_congr_left fun _ => ?_
        rw [hsame]
        exact (and_iff_left (.arr items)).symm

theorem Observed.exists_of_along {observed : Observed} {position : Position} {value : Json}
    (h : observed.along position value) : ∃ found, observed found := by
  induction position generalizing observed with
  | nil => exact ⟨value, h⟩
  | cons stage rest ih =>
      obtain ⟨inner, hinner⟩ := ih h
      cases stage with
      | under name => exact hinner.imp' _ fun _ hmembers => hmembers.1
      | elements => exact hinner.imp' _ fun _ hitems => hitems.1

/-- What is observed in a position is summarized by one schema. -/
theorem Summarizes.insideAlong {observed : Observed} {schema value : Json} {position : Position}
    (h : Summarizes observed schema) (hvalue : observed.along position value) :
    ∃ found, insideAlong [schema] position = [found] ∧
      Summarizes (observed.along position) found := by
  induction position generalizing observed schema with
  | nil => exact ⟨schema, rfl, h⟩
  | cons stage rest ih =>
      obtain ⟨inner, hinner⟩ :=
        Observed.exists_of_along (show (observed.step stage).along rest value from hvalue)
      obtain ⟨next, hnext, hsummarizes⟩ := h.inside hinner
      obtain ⟨found, hfound, hlast⟩ := ih hsummarizes hvalue
      exact ⟨found, by rw [Schema.insideAlong, hnext, hfound], hlast⟩

/-- Where objects are observed in a position, the schema of the samples has one
schema there, with one alternative for objects. Its properties are the names that
any of the objects has, and it requires the names that all of them have. -/
theorem ofSamples_exact {samples : List Json} (h : ∀ sample ∈ samples, Distinct sample) :
    ∃ schema, ofSamples samples = .ok schema ∧
      ∀ position members, Observed.along (· ∈ samples) position (.obj members) →
        ∃ found properties required, insideAlong [schema] position = [found] ∧
          singlesOf "object" [found] = [ofObject properties required] ∧
          (Table.names properties).Nodup ∧ required.Nodup ∧
          (∀ name, name ∈ Table.names properties ↔ ∃ others,
            Observed.along (· ∈ samples) position (.obj others) ∧ name ∈ Table.names others) ∧
          ∀ name, name ∈ required ↔ ∀ others,
            Observed.along (· ∈ samples) position (.obj others) → name ∈ Table.names others := by
  obtain ⟨schema, hschema, hsummarizes⟩ := ofSamples_summarizes h
  refine ⟨schema, hschema, fun position members hmembers => ?_⟩
  obtain ⟨found, hfound, hthere⟩ := hsummarizes.insideAlong hmembers
  obtain ⟨properties, required, others, hsingle, hobject, hsame⟩ := hthere.single_object hmembers
  refine ⟨found, properties, required, hfound, hsingle, hobject.nodup,
    hobject.nodup.sublist hobject.sublist, fun name => ?_, fun name => ?_⟩
  · simp only [hobject.names, hsame]
  · simp only [hobject.required, hsame]

/-- Objects from two arrays, with a null and an empty array beside them. -/
theorem ofSamples_exact_mixed :
    ∃ schema, ofSamples [.arr [.obj [("x", .int 1), ("y", .int 2)], .null], .arr [],
        .arr [.obj [("x", .str "z")]]] = .ok schema ∧
      ∃ found properties required, insideAlong [schema] [.elements] = [found] ∧
        singlesOf "object" [found] = [ofObject properties required] ∧
        "y" ∈ Table.names properties ∧ "x" ∈ required ∧ "y" ∉ required := by
  obtain ⟨schema, hschema, hexact⟩ := @ofSamples_exact [.arr [.obj [("x", .int 1), ("y", .int 2)],
    .null], .arr [], .arr [.obj [("x", .str "z")]]] (by decide)
  have hfirst : Observed.along (· ∈ [.arr [.obj [("x", .int 1), ("y", .int 2)], .null], .arr [],
      .arr [.obj [("x", .str "z")]]]) [.elements] (.obj [("x", .int 1), ("y", .int 2)]) :=
    ⟨[.obj [("x", .int 1), ("y", .int 2)], .null], by decide, by decide⟩
  obtain ⟨found, properties, required, hfound, hsingle, _, _, hnames, hrequired⟩ :=
    hexact [.elements] _ hfirst
  refine ⟨schema, hschema, found, properties, required, hfound, hsingle,
    (hnames "y").mpr ⟨_, hfirst, by decide⟩, (hrequired "x").mpr ?_, fun hmem => ?_⟩
  · rintro others ⟨items, hitems, hothers⟩
    simp only [List.mem_cons, List.not_mem_nil, or_false, Json.arr.injEq] at hitems
    rcases hitems with rfl | rfl | rfl <;>
      simp only [List.mem_cons, List.not_mem_nil, or_false, Json.obj.injEq, reduceCtorEq]
        at hothers <;>
      subst hothers <;> decide
  · exact absurd ((hrequired "y").mp hmem [("x", .str "z")]
      ⟨[.obj [("x", .str "z")]], by decide, by decide⟩) (by decide)

end RequestShapes.Schema
