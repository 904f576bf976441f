import RequestShapes.Proofs.Schema.Blending

/-!
# Schemas that are equal up to order

Settled schemas agree exactly if they are equal up to the order of properties, of
required names and of alternatives, at every depth.
-/

namespace RequestShapes.Schema

/-- Equal up to the order of properties, of required names and of alternatives, at
every depth. -/
inductive Alike : Json → Json → Prop
  | refl (schema : Json) : Alike schema schema
  | object {properties others : List (String × Json)} {required needed : List String}
      {pairs : List (String × Json × Json)} :
      properties.Perm (pairs.map fun pair => (pair.1, pair.2.1)) →
      others.Perm (pairs.map fun pair => (pair.1, pair.2.2)) → required.Perm needed →
      (∀ pair ∈ pairs, Alike pair.2.1 pair.2.2) →
      Alike (ofObject properties required) (ofObject others needed)
  | array {items others : Json} : Alike items others → Alike (ofArray items) (ofArray others)
  | anyOf {alternatives others : List Json} {pairs : List (Json × Json)} :
      alternatives.Perm (pairs.map Prod.fst) → others.Perm (pairs.map Prod.snd) →
      (∀ pair ∈ pairs, Alike pair.1 pair.2) → Alike (anyOf alternatives) (anyOf others)

variable {settled : Prop} {schema other : Json}

/-! ## Single parts -/

theorem TidyPart.remains_iff {type found : String} (h : TidyPart settled type schema) :
    Remains found [schema] ↔ found = type := by
  have hfalls := h.fallsInto
  rw [Remains, hfalls.onlyNumbers_iff, hfalls.occurs_iff]
  simp [h.not_onlyNumbers, Occurs, isOf, h.get?_type, eq_comm]

/-- Parts of one type agree if they have the same content. -/
theorem TidyPart.agree {type : String} (h : TidyPart settled type schema)
    (hother : TidyPart settled type other) (hcontent : SameContent type [schema] [other]) :
    Agree [schema] [other] := by
  refine agree_iff.mpr ⟨fun found => by rw [h.remains_iff, hother.remains_iff], fun found => ?_⟩
  by_cases hnull : found = "null"
  · subst hnull
    exact sameContent_of_other (by decide) (by decide) (by decide) _ _
  rw [h.fallsInto.singlesOf_eq hnull, hother.fallsInto.singlesOf_eq hnull]
  by_cases htype : found = type
  · subst htype
    simpa [isOf, h.get?_type, hother.get?_type] using hcontent
  · simpa [isOf, h.get?_type, hother.get?_type, Ne.symm htype] using SameContent.refl found []

/-- Parts of a scalar type are equal if they have the same format. -/
theorem Scalar.eq_of_sameContent {type : String} {rest others : List (String × Json)}
    (h : Scalar type rest) (hother : Scalar type others)
    (hcontent : SameContent type [.obj (("type", .str type) :: rest)]
      [.obj (("type", .str type) :: others)]) : rest = others := by
  have hformat {value : Json} (hstring : "string" = type) :=
    hcontent.traits (.format value) hstring
  simp only [Trait.Holds, List.forall_mem_singleton, Json.get?, Table.get?, String.reduceEq,
    if_false] at hformat
  cases h with
  | plain =>
      cases hother with
      | plain => rfl
      | format format => simpa [Table.get?] using @hformat (.str format.name) rfl
  | format format =>
      cases hother with
      | plain => simpa [Table.get?] using @hformat (.str format.name) rfl
      | format found =>
          have hsame := (@hformat (.str format.name) rfl).mp rfl
          simpa [Table.get?, eq_comm] using hsame

/-! ## Parts that belong together -/

theorem Remains.iff_occurs_of_settled {parts : List Json} {nullable : Bool} {type : String}
    (h : FallsInto settled schema parts nullable) (hsettled : settled) :
    Remains type [schema] ↔ Occurs type parts ∨ type = "null" ∧ nullable = true := by
  rw [Remains, h.onlyNumbers_iff, h.occurs_iff]
  exact and_iff_left fun hboth => (h.combined hsettled).2 hboth.2

theorem Apart.eq_of_isOf {parts : List Json} {type : String} (h : Apart parts)
    (hschema : schema ∈ parts) (hother : other ∈ parts) (hof : isOf type schema = true)
    (hof' : isOf type other = true) : schema = other :=
  List.inj_on_of_nodup_map h.nodup hschema hother (by rw [isOf_iff.mp hof, isOf_iff.mp hof'])

/-- The parts of settled schemas that agree belong together in pairs of one type. -/
theorem Agree.exists_pairs {parts others : List Json} {nullable optional : Bool}
    (h : Agree [schema] [other]) (hsettled : settled)
    (hparts : FallsInto settled schema parts nullable)
    (hothers : FallsInto settled other others optional) :
    optional = nullable ∧ ∃ pairs : List (Json × Json), parts = pairs.map Prod.fst ∧
      others.Perm (pairs.map Prod.snd) ∧ ∀ pair ∈ pairs, ∃ type, TidyPart settled type pair.1 ∧
        TidyPart settled type pair.2 ∧ SameContent type [pair.1] [pair.2] := by
  obtain ⟨htypes, hcontent⟩ := agree_iff.mp h
  have hremains {type : String} : (Occurs type parts ∨ type = "null" ∧ nullable = true) ↔
      (Occurs type others ∨ type = "null" ∧ optional = true) := by
    rw [← Remains.iff_occurs_of_settled hparts hsettled,
      ← Remains.iff_occurs_of_settled hothers hsettled]
    exact htypes type
  have hnull {found : Json} {pieces : List Json} {null : Bool}
      (hfalls : FallsInto settled found pieces null) : ¬ Occurs "null" pieces := by
    rintro ⟨piece, hmem, hof⟩
    obtain ⟨type, hpart⟩ := hfalls.tidy piece hmem
    exact hpart.ne_null (by simpa [isOf, hpart.get?_type] using hof)
  have hoccurs {type : String} (hne : type ≠ "null") : Occurs type parts ↔ Occurs type others := by
    have hboth := @hremains type
    simpa only [hne, false_and, or_false] using hboth
  have hnullable : optional = nullable := by
    have hboth := @hremains "null"
    simp only [hnull hparts, hnull hothers, false_or, true_and] at hboth
    exact Bool.eq_iff_iff.mpr hboth.symm
  have hpartner : ∀ part ∈ parts, ∃ pair : Json × Json, part = pair.1 ∧ pair.2 ∈ others ∧
      ∃ type, TidyPart settled type pair.1 ∧ TidyPart settled type pair.2 ∧
        SameContent type [pair.1] [pair.2] := by
    intro part hmem
    obtain ⟨type, hpart⟩ := hparts.tidy part hmem
    obtain ⟨partner, hpartner, hof⟩ :=
      (hoccurs hpart.ne_null).mp ⟨part, hmem, isOf_iff.mpr hpart.get?_type⟩
    obtain ⟨found, hfound⟩ := hothers.tidy partner hpartner
    obtain rfl : found = type := by simpa [hfound.get?_type] using isOf_iff.mp hof
    have hsame := hcontent found
    rw [hparts.singlesOf_part hmem hpart, hothers.singlesOf_part hpartner hfound] at hsame
    exact ⟨(part, partner), rfl, hpartner, found, hpart, hfound, hsame⟩
  obtain ⟨pairs, hpairs, hmatch⟩ := exists_map_of_forall hpartner
  have hkeys : (pairs.map Prod.snd).map (fun part => part.get? "type") =
      parts.map fun part => part.get? "type" := by
    rw [hpairs, List.map_map, List.map_map]
    refine List.map_congr_left fun pair hmem => ?_
    obtain ⟨_, type, hfirst, hsecond, _⟩ := hmatch pair hmem
    exact hsecond.get?_type.trans hfirst.get?_type.symm
  have hnodup : (pairs.map Prod.snd).Nodup := .of_map _ (hkeys ▸ hparts.apart.nodup)
  refine ⟨hnullable, pairs, hpairs, ?_, fun pair hmem => (hmatch pair hmem).2⟩
  rw [List.perm_ext_iff_of_nodup (.of_map _ hothers.apart.nodup) hnodup]
  refine fun found => ⟨fun hmem => ?_, fun hmem => ?_⟩
  · obtain ⟨type, hfound⟩ := hothers.tidy found hmem
    have hof := isOf_iff.mpr hfound.get?_type
    obtain ⟨part, hpart, hof'⟩ := (hoccurs hfound.ne_null).mpr ⟨found, hmem, hof⟩
    obtain ⟨pair, hpair, rfl⟩ := List.mem_map.mp (hpairs ▸ hpart)
    obtain ⟨hthere, type', hfirst, hsecond, _⟩ := hmatch pair hpair
    obtain rfl : type' = type := by simpa [hfirst.get?_type] using isOf_iff.mp hof'
    rw [hothers.apart.eq_of_isOf hmem hthere hof (isOf_iff.mpr hsecond.get?_type)]
    exact List.mem_map_of_mem hpair
  · obtain ⟨pair, hpair, rfl⟩ := List.mem_map.mp hmem
    exact (hmatch pair hpair).1

/-! ## Schemas that agree are alike -/

theorem combine_container {part : Json} {type : String} (h : TidyPart settled type part)
    (hcontainer : IsContainerType type) : combine [part] true = anyOf [part, nullType] := by
  rcases combine_nullable h with hany | ⟨rest, hscalar, _⟩
  · exact hany
  · exact absurd hscalar hcontainer.not_scalar

theorem TidyPart.of_scalar {part : Json} {type : String} (h : TidyPart settled type part)
    (hscalar : ¬ IsContainerType type) :
    ∃ rest, Scalar type rest ∧ part = .obj (("type", .str type) :: rest) :=
  h.of_other (fun heq => hscalar (.inl heq)) fun heq => hscalar (.inr heq)

/-- What is put together of parts that are alike is alike. -/
theorem alike_combine {others : List Json} {pairs : List (Json × Json)}
    (h : ∀ pair ∈ pairs, ∃ type, TidyPart settled type pair.1 ∧ TidyPart settled type pair.2 ∧
      SameContent type [pair.1] [pair.2])
    (halike : ∀ pair ∈ pairs, Alike pair.1 pair.2) (hothers : others.Perm (pairs.map Prod.snd))
    (nullable : Bool) :
    Alike (combine (pairs.map Prod.fst) nullable) (combine others nullable) := by
  match pairs, h, halike, hothers with
  | [], _, _, hothers => exact List.perm_nil.mp hothers ▸ .refl _
  | [pair], h, halike, hothers =>
      obtain rfl := List.perm_singleton.mp hothers
      have hpair := halike pair List.mem_cons_self
      cases nullable with
      | false => exact hpair
      | true =>
          obtain ⟨type, hfirst, hsecond, hcontent⟩ := h pair List.mem_cons_self
          by_cases hcontainer : IsContainerType type
          · rw [List.map_singleton, combine_container hfirst hcontainer,
              combine_container hsecond hcontainer]
            exact @Alike.anyOf _ _ [pair, (nullType, nullType)] (.refl _) (.refl _)
              (List.forall_mem_cons.mpr ⟨hpair, List.forall_mem_singleton.mpr (.refl _)⟩)
          · obtain ⟨rest, hrest, hform⟩ := hfirst.of_scalar hcontainer
            obtain ⟨rest', hrest', hform'⟩ := hsecond.of_scalar hcontainer
            rw [hform, hform'] at hcontent
            obtain rfl := hrest.eq_of_sameContent hrest' hcontent
            rw [List.map_singleton, hform, hform']
            exact .refl _
  | first :: second :: rest, _, halike, hothers =>
      match others, hothers.length_eq, hothers with
      | other :: another :: more, _, hothers =>
          refine @Alike.anyOf _ _
            (first :: second :: rest ++ (nulls nullable).map fun last => (last, last)) ?_ ?_
            (List.forall_mem_append.mpr ⟨halike, List.forall_mem_map.mpr fun last _ => .refl last⟩)
          · rw [List.map_append, List.map_map]
            exact (List.Perm.refl _).append (by cases nullable <;> exact .refl _)
          · rw [List.map_append, List.map_map]
            exact hothers.append (by cases nullable <;> exact .refl _)

/-- Tidy object schemas with the same content are alike, if their properties are. -/
theorem alike_of_shape {shape found : Shape} (h : TidyShape settled shape)
    (hfound : TidyShape settled found)
    (hcontent : SameContent "object" [shape.schema] [found.schema])
    (halike : ∀ entry ∈ shape.properties, ∀ schema, Tidy settled schema →
      Agree [entry.2] [schema] → Alike entry.2 schema) : Alike shape.schema found.schema := by
  obtain ⟨hrequired, hnames, hunder⟩ := (@sameContent_object_iff [shape] found).mp hcontent
  simp only [List.mem_singleton, forall_eq, exists_eq_left] at hrequired hnames
  have hpartner : ∀ entry ∈ shape.properties, ∃ pair : String × Json × Json,
      entry = (pair.1, pair.2.1) ∧ (pair.1, pair.2.2) ∈ found.properties ∧
        Alike pair.2.1 pair.2.2 := by
    intro entry hentry
    obtain ⟨partner, hget⟩ := Table.exists_get?_of_mem_names
      ((hnames entry.1).mp (List.mem_map_of_mem hentry))
    have hagree : Agree [entry.2] [partner] := by
      simpa [column, Table.get?_of_mem h.nodup hentry, hget] using hunder entry.1
    have hpartner := Table.mem_of_get? hget
    exact ⟨(entry.1, entry.2, partner), rfl, hpartner,
      halike entry hentry partner (hfound.inner _ hpartner) hagree⟩
  obtain ⟨pairs, hpairs, hmatch⟩ := exists_map_of_forall hpartner
  have hkeys : Table.names (pairs.map fun pair => (pair.1, pair.2.2)) =
      Table.names shape.properties := by
    rw [hpairs, Table.names, Table.names, List.map_map, List.map_map]
    rfl
  have hnodup : (Table.names (pairs.map fun pair => (pair.1, pair.2.2))).Nodup := hkeys ▸ h.nodup
  refine @Alike.object _ _ _ _ pairs (hpairs ▸ .refl _) ?_ ?_ fun pair hmem => (hmatch pair hmem).2
  · rw [List.perm_ext_iff_of_nodup (.of_map _ hfound.nodup) (.of_map Prod.fst hnodup)]
    refine fun entry => ⟨fun hmem => ?_, fun hmem => ?_⟩
    · have hname : entry.1 ∈ Table.names (pairs.map fun pair => (pair.1, pair.2.2)) :=
        hkeys ▸ (hnames entry.1).mpr (List.mem_map_of_mem hmem)
      obtain ⟨other, hother, hsame⟩ := List.mem_map.mp hname
      obtain ⟨pair, hpair, rfl⟩ := List.mem_map.mp hother
      rwa [List.inj_on_of_nodup_map hfound.nodup hmem (hmatch pair hpair).1 hsame.symm]
    · obtain ⟨pair, hpair, rfl⟩ := List.mem_map.mp hmem
      exact (hmatch pair hpair).1
  · rw [List.perm_ext_iff_of_nodup (h.nodup.sublist h.sublist)
      (hfound.nodup.sublist hfound.sublist)]
    exact hrequired

/-- Settled schemas that agree are alike. -/
theorem alike_of_agree (h : Tidy True schema) (hother : Tidy True other)
    (hagree : Agree [schema] [other]) : Alike schema other := by
  -- A part alone agrees with a part of its type alone.
  have halone {part found : Json} {type : String} (hpart : TidyPart True type part)
      (hfound : Tidy True found) (hsame : Agree [part] [found]) :
      TidyPart True type found ∧ SameContent type [part] [found] := by
    obtain ⟨others, optional, hothers⟩ := hfound.fallsInto
    obtain ⟨rfl, pairs, hpairs, hperm, hmatch⟩ := hsame.exists_pairs trivial hpart.fallsInto hothers
    obtain ⟨pair, rfl, rfl⟩ := List.map_eq_singleton_iff.mp hpairs.symm
    obtain rfl := List.perm_singleton.mp hperm
    obtain ⟨type', hfirst, hsecond, hcontent⟩ := hmatch pair List.mem_cons_self
    obtain rfl : type' = type := by simpa [hfirst.get?_type] using hpart.get?_type
    rw [(hothers.combined trivial).1]
    exact ⟨hsecond, hcontent⟩
  induction h generalizing other with
  | @scalar type rest hscalar =>
      obtain ⟨hpart, hcontent⟩ := halone (.scalar hscalar) hother hagree
      obtain ⟨others, hothers, rfl⟩ :=
        hpart.of_scalar fun hcontainer => hcontainer.not_scalar hscalar
      exact hscalar.eq_of_sameContent hothers hcontent ▸ .refl _
  | @object properties required hnodup hsub hfilled hinner ih =>
      obtain ⟨hpart, hcontent⟩ := halone (.object hnodup hsub hfilled hinner) hother hagree
      obtain ⟨found, rfl, hfound⟩ := hpart.of_object
      exact @alike_of_shape True ⟨properties, required⟩ found ⟨hnodup, hsub, hfilled, hinner⟩ hfound
        hcontent fun entry hentry schema hschema hsame => ih entry hentry hschema hsame
  | array hitems ih =>
      obtain ⟨hpart, hcontent⟩ := halone (.array hitems) hother hagree
      obtain ⟨found, rfl, hfound⟩ := hpart.of_array
      exact .array (ih hfound (hcontent.stages .elements rfl))
  | @combined parts nullable hparts hapart honly ih =>
      obtain ⟨others, optional, hothers⟩ := hother.fallsInto
      obtain ⟨rfl, pairs, rfl, hperm, hmatch⟩ := hagree.exists_pairs trivial
        (fallsInto_combine (hapart.parts hparts) hapart honly nullable) hothers
      rw [(hothers.combined trivial).1]
      refine alike_combine hmatch (fun pair hmem => ?_) hperm optional
      obtain ⟨type, hfirst, hsecond, hcontent⟩ := hmatch pair hmem
      exact ih pair.1 (List.mem_map_of_mem hmem) hsecond.tidy (hfirst.agree hsecond hcontent)
  | anyOf hsettled => exact absurd trivial hsettled

/-! ## Schemas that are alike agree -/

theorem Alike.get?_type (h : Alike schema other) : schema.get? "type" = other.get? "type" := by
  cases h <;> rfl

/-- Object schemas with alike properties have the same content. -/
theorem sameContent_of_pairs {shape found : Shape} {pairs : List (String × Json × Json)}
    (hnodup : (Table.names found.properties).Nodup)
    (hpairs : shape.properties.Perm (pairs.map fun pair => (pair.1, pair.2.1)))
    (hothers : found.properties.Perm (pairs.map fun pair => (pair.1, pair.2.2)))
    (hrequired : shape.required.Perm found.required)
    (hagree : ∀ pair ∈ pairs, Agree [pair.2.1] [pair.2.2]) :
    SameContent "object" [shape.schema] [found.schema] := by
  have hnames (name : String) :
      name ∈ Table.names shape.properties ↔ name ∈ Table.names found.properties := by
    rw [Table.names, Table.names, (hpairs.map Prod.fst).mem_iff, (hothers.map Prod.fst).mem_iff,
      List.map_map, List.map_map]
    rfl
  refine (@sameContent_object_iff [shape] found).mpr ⟨fun name => by simpa using hrequired.mem_iff,
    fun name => by simpa using hnames name, fun name => ?_⟩
  cases hget : Table.get? shape.properties name with
  | none =>
      have hnone := Table.get?_eq_none_iff.mpr
        fun hname => Table.get?_eq_none_iff.mp hget ((hnames name).mpr hname)
      simpa [column, hget, hnone] using Agree.refl []
  | some schema =>
      obtain ⟨pair, hpair, heq⟩ := List.mem_map.mp (hpairs.mem_iff.mp (Table.mem_of_get? hget))
      obtain ⟨rfl, rfl⟩ := Prod.mk.inj heq
      have hother := Table.get?_of_mem hnodup
        (hothers.mem_iff.mpr (List.mem_map.mpr ⟨pair, hpair, rfl⟩))
      simpa [column, hget, hother] using hagree pair hpair

theorem Tidy.shape {properties : List (String × Json)} {required : List String}
    (h : Tidy settled (ofObject properties required)) :
    TidyShape settled ⟨properties, required⟩ := by
  obtain ⟨⟨found, names⟩, heq, hshape⟩ := (h.part rfl (by decide)).of_object
  obtain ⟨rfl, rfl⟩ := ofObject_inj heq
  exact hshape

theorem Tidy.items {items : Json} (h : Tidy settled (ofArray items)) : Tidy settled items := by
  obtain ⟨found, heq, hitems⟩ := (h.part rfl (by decide)).of_array
  simp only [ofArray, Json.obj.injEq, List.cons.injEq, Prod.mk.injEq] at heq
  exact heq.2.1.2 ▸ hitems

/-- Tidy schemas that are alike agree. -/
theorem agree_of_alike (halike : Alike schema other) (h : Tidy settled schema)
    (hother : Tidy settled other) : Agree [schema] [other] := by
  induction halike with
  | refl schema => exact .refl _
  | @object properties others required needed pairs hpairs hothers hrequired _ ih =>
      have hshape := h.shape
      have hfound := hother.shape
      have hcontent := @sameContent_of_pairs ⟨properties, required⟩ ⟨others, needed⟩ pairs
        hfound.nodup hpairs hothers hrequired fun pair hmem => ih pair hmem
          (hshape.inner _ (hpairs.mem_iff.mpr (List.mem_map.mpr ⟨pair, hmem, rfl⟩)))
          (hfound.inner _ (hothers.mem_iff.mpr (List.mem_map.mpr ⟨pair, hmem, rfl⟩)))
      exact (h.part rfl (by decide)).agree (hother.part rfl (by decide)) hcontent
  | @array items others _ ih =>
      exact (h.part rfl (by decide)).agree (hother.part rfl (by decide))
        (@sameContent_array [items] [others] (ih h.items hother.items))
  | @anyOf pieces others pairs hpairs hothers halike ih =>
      have hsingles (pieces : List Json) : singles [Schema.anyOf pieces] = pieces :=
        singles_singleton rfl
      -- Alternatives in a pair have one type, so a type of the one choice is found in the other.
      have hpartner {type : String} {piece : Json}
          (hmem : piece ∈ singlesOf type [Schema.anyOf pieces]) :
          ∃ pair ∈ pairs, pair.1 = piece ∧ pair.2 ∈ singlesOf type [Schema.anyOf others] := by
        obtain ⟨hpiece, hof⟩ := List.mem_filter.mp hmem
        rw [hsingles, hpairs.mem_iff] at hpiece
        obtain ⟨pair, hpair, rfl⟩ := List.mem_map.mp hpiece
        refine ⟨pair, hpair, rfl, List.mem_filter.mpr ⟨?_, ?_⟩⟩
        · rw [hsingles, hothers.mem_iff]
          exact List.mem_map_of_mem hpair
        · rwa [isOf_iff, ← (halike pair hpair).get?_type, ← isOf_iff]
      have hoccurs (type : String) : Occurs type (singles [Schema.anyOf pieces]) ↔
          Occurs type (singles [Schema.anyOf others]) := by
        simp only [Occurs, hsingles, hpairs.mem_iff, hothers.mem_iff, List.mem_map,
          exists_exists_and_eq_and]
        refine exists_congr fun pair => and_congr_right fun hpair => ?_
        rw [isOf_iff, isOf_iff, (halike pair hpair).get?_type]
      refine agree_iff.mpr ⟨remains_congr hoccurs, fun type => ?_⟩
      by_cases hnull : type = "null"
      · subst hnull
        exact sameContent_of_other (by decide) (by decide) (by decide) _ _
      by_cases hthere : Occurs type (singles [Schema.anyOf pieces])
      · obtain ⟨piece, hpiece⟩ := occurs_iff.mp hthere
        obtain ⟨pair, hpair, rfl, hsecond⟩ := hpartner hpiece
        obtain ⟨hpart, hone⟩ := h.singlesOf_eq_singleton hnull hpiece
        obtain ⟨hpart', hone'⟩ := hother.singlesOf_eq_singleton hnull hsecond
        have hcontent := (agree_iff.mp (ih pair hpair hpart.tidy hpart'.tidy)).2 type
        rw [hpart.fallsInto.singlesOf_part List.mem_cons_self hpart,
          hpart'.fallsInto.singlesOf_part List.mem_cons_self hpart'] at hcontent
        rwa [hone, hone']
      · rw [singlesOf_eq_nil hthere,
          singlesOf_eq_nil fun hother => hthere ((hoccurs type).mpr hother)]
        exact .refl _ _

/-- Settled schemas agree exactly if they are equal up to order. -/
theorem alike_iff_agree (h : Tidy True schema) (hother : Tidy True other) :
    Alike schema other ↔ Agree [schema] [other] :=
  ⟨fun halike => agree_of_alike halike h hother, alike_of_agree h hother⟩

/-! ## Positions in a settled schema -/

theorem Tidy.inside (h : Tidy settled schema) {stage : Stage} {found : Json}
    (hfound : found ∈ inside [schema] stage) :
    inside [schema] stage = [found] ∧ Tidy settled found := by
  obtain ⟨piece, hpiece, hinner⟩ := List.mem_filterMap.mp hfound
  have hne : stage.type ≠ "null" := by
    cases stage <;> simp [Stage.type]
  obtain ⟨hpart, hone⟩ := h.singlesOf_eq_singleton hne hpiece
  refine ⟨by rw [Schema.inside, hone, List.filterMap_cons_some hinner, List.filterMap_nil], ?_⟩
  cases stage with
  | under name =>
      obtain ⟨shape, rfl, hshape⟩ := hpart.of_object
      have hget : Table.get? shape.properties name = some found := hinner
      exact hshape.inner _ (Table.mem_of_get? hget)
  | elements =>
      obtain ⟨items, rfl, hitems⟩ := hpart.of_array
      exact Option.some.inj hinner ▸ hitems

theorem insideAlong_nil (position : Position) : insideAlong [] position = [] := by
  induction position with
  | nil => rfl
  | cons stage rest ih => exact ih

theorem Tidy.insideAlong (h : Tidy settled schema) (position : Position) :
    insideAlong [schema] position = [] ∨
      ∃ found, insideAlong [schema] position = [found] ∧ Tidy settled found := by
  induction position generalizing schema with
  | nil => exact .inr ⟨schema, rfl, h⟩
  | cons stage rest ih =>
      rw [Schema.insideAlong]
      cases hinside : Schema.inside [schema] stage with
      | nil => exact .inl (insideAlong_nil rest)
      | cons found more =>
          obtain ⟨hone, hfound⟩ := h.inside (hinside ▸ List.mem_cons_self)
          rw [← hinside, hone]
          exact ih hfound

theorem Tidy.remains_iff (h : Tidy True schema) (position : Position) (type : String) :
    Remains type (Schema.insideAlong [schema] position) ↔
      Occurs type (singles (Schema.insideAlong [schema] position)) := by
  refine and_iff_left fun hboth => ?_
  rcases h.insideAlong position with hnone | ⟨found, hone, hfound⟩
  · exact not_onlyNumbers_nil (by simpa [hnone, singles] using hboth.2)
  · obtain ⟨parts, nullable, hfalls⟩ := hfound.fallsInto
    rw [hone, hfalls.onlyNumbers_iff] at hboth
    exact (hfalls.combined trivial).2 hboth.2

/-! ## Lists of settled schemas -/

/-- Schemas that agree one by one agree together. -/
theorem agree_of_pairs {pairs : List (Json × Json)}
    (h : ∀ pair ∈ pairs, Tidy True pair.1 ∧ Tidy True pair.2 ∧ Agree [pair.1] [pair.2]) :
    Agree (pairs.map Prod.fst) (pairs.map Prod.snd) := by
  intro position
  -- Which types remain of a list does not follow from its parts, but which types occur does.
  suffices hsame : (∀ type, Occurs type (singles (insideAlong (pairs.map Prod.fst) position)) ↔
      Occurs type (singles (insideAlong (pairs.map Prod.snd) position))) ∧ ∀ trait : Trait,
      trait.Holds (singlesOf trait.type (insideAlong (pairs.map Prod.fst) position)) ↔
        trait.Holds (singlesOf trait.type (insideAlong (pairs.map Prod.snd) position)) from
    ⟨remains_congr hsame.1, hsame.2⟩
  induction pairs with
  | nil => exact ⟨fun _ => Iff.rfl, fun _ => Iff.rfl⟩
  | cons pair rest ih =>
      obtain ⟨⟨hfirst, hsecond, hagree⟩, hrest⟩ := List.forall_mem_cons.mp h
      obtain ⟨htypes, htraits⟩ := ih hrest
      have hcons (item : Json) (items : List Json) :
          insideAlong (item :: items) position =
            insideAlong [item] position ++ insideAlong items position :=
        insideAlong_append [item] items position
      rw [List.map_cons, List.map_cons, hcons, hcons pair.2]
      refine ⟨fun type => ?_, fun trait => ?_⟩
      · rw [singles_append, singles_append, occurs_append, occurs_append, htypes,
          ← hfirst.remains_iff, ← hsecond.remains_iff, (hagree position).types]
      · rw [singlesOf_append, singlesOf_append]
        exact Trait.holds_append_congr ((hagree position).traits trait) (htraits trait)

/-- Lists agree if each schema of the one agrees with some schema of the other. -/
theorem agree_of_partners {schemas others : List Json} (h : ∀ schema ∈ schemas, Tidy True schema)
    (hothers : ∀ other ∈ others, Tidy True other)
    (hforth : ∀ schema ∈ schemas, ∃ other ∈ others, Agree [schema] [other])
    (hback : ∀ other ∈ others, ∃ schema ∈ schemas, Agree [schema] [other]) :
    Agree schemas others := by
  have hpair {schema other : Json} (hschema : schema ∈ schemas) (hother : other ∈ others)
      (hagree : Agree [schema] [other]) : Tidy True schema ∧ Tidy True other ∧
        Agree [schema] [other] := ⟨h schema hschema, hothers other hother, hagree⟩
  obtain ⟨pairs, hpairs, hmatch⟩ := @exists_map_of_forall _ (Json × Json) Prod.fst
    (fun pair => pair.2 ∈ others ∧ Agree [pair.1] [pair.2]) schemas fun schema hmem =>
      (hforth schema hmem).elim fun other hother => ⟨(schema, other), rfl, hother⟩
  obtain ⟨more, hmore, hmatch'⟩ := @exists_map_of_forall _ (Json × Json) Prod.snd
    (fun pair => pair.1 ∈ schemas ∧ Agree [pair.1] [pair.2]) others fun other hmem =>
      (hback other hmem).elim fun schema hschema => ⟨(schema, other), rfl, hschema⟩
  have hfirst (schema : Json) : schema ∈ schemas ↔ schema ∈ (pairs ++ more).map Prod.fst := by
    rw [List.map_append, List.mem_append, ← hpairs]
    refine (or_iff_left_of_imp fun hmem => ?_).symm
    obtain ⟨pair, hpair, rfl⟩ := List.mem_map.mp hmem
    exact (hmatch' pair hpair).1
  have hsecond (other : Json) : other ∈ others ↔ other ∈ (pairs ++ more).map Prod.snd := by
    rw [List.map_append, List.mem_append, ← hmore]
    refine (or_iff_right_of_imp fun hmem => ?_).symm
    obtain ⟨pair, hpair, rfl⟩ := List.mem_map.mp hmem
    exact (hmatch pair hpair).1
  refine (agree_of_same hfirst).trans ((agree_of_pairs fun pair hmem => ?_).trans
    (agree_of_same hsecond).symm)
  rcases List.mem_append.mp hmem with hmem | hmem
  · exact hpair (hpairs ▸ List.mem_map_of_mem hmem) (hmatch pair hmem).1 (hmatch pair hmem).2
  · exact hpair (hmatch' pair hmem).1 (hmore ▸ List.mem_map_of_mem hmem) (hmatch' pair hmem).2

end RequestShapes.Schema
