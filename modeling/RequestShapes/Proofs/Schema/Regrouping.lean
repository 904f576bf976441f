import RequestShapes.Proofs.Schema.Reordering

/-!
# Merging in groups

Schemas that are merged in two groups, and then what these merge to, give the same
as all of them merged at once, with one exception. Where one group has nothing but
integers and numbers in a position they are numbers from then on, even if the other
group has a further type there; merged at once, integers stay beside numbers there.
-/

namespace RequestShapes.Schema

/-- A type occurs that is neither of numbers nor null. -/
def Further (pieces : List Json) : Prop :=
  ∃ type, Occurs type pieces ∧ type ∉ ["integer", "number", "null"]

/-- One group has integers and numbers alone, the other one a further type but no
integers: what the first merges to has lost the integers that stand beside a further
type. -/
structure Overlooked (schemas others : List Json) : Prop where
  onlyNumbers : OnlyNumbers (singles schemas)
  noInteger : ¬ Occurs "integer" (singles others)
  further : Further (singles others)

/-- Integers of one of two groups are overlooked in a position. -/
def OverlookedAt (schemas others : List Json) (position : Position) : Prop :=
  Overlooked (insideAlong schemas position) (insideAlong others position) ∨
    Overlooked (insideAlong others position) (insideAlong schemas position)

variable {schemas others merged united : List Json}

/-! ## One position -/

theorem onlyNumbers_iff {pieces : List Json} : OnlyNumbers pieces ↔
    Occurs "integer" pieces ∧ Occurs "number" pieces ∧ ¬ Further pieces := by
  constructor
  · exact fun h => ⟨h.integer, h.number, fun ⟨type, htype, hnot⟩ => hnot (h.others type htype)⟩
  · exact fun ⟨hinteger, hnumber, hnone⟩ => ⟨hinteger, hnumber,
      fun type htype => by_contra fun hnot => hnone ⟨type, htype, hnot⟩⟩

theorem overlooked_iff : Overlooked schemas others ↔ OnlyNumbers (singles schemas) ∧
    ¬ Occurs "integer" (singles others) ∧ Further (singles others) :=
  ⟨fun h => ⟨h.onlyNumbers, h.noInteger, h.further⟩, fun h => ⟨h.1, h.2.1, h.2.2⟩⟩

theorem further_append (pieces others : List Json) :
    Further (pieces ++ others) ↔ Further pieces ∨ Further others := by
  simp only [Further, occurs_append, or_and_right, exists_or]

theorem remains_iff_occurs {type : String} (hne : type ≠ "integer") :
    Remains type schemas ↔ Occurs type (singles schemas) :=
  and_iff_left fun hboth => hne hboth.1

/-- Integers stand in the merged schema unless there are but numbers beside them. -/
theorem remains_integer_iff : Remains "integer" schemas ↔ Occurs "integer" (singles schemas) ∧
    (Occurs "number" (singles schemas) → Further (singles schemas)) := by
  rw [Remains, onlyNumbers_iff]
  tauto

/-- Of what two groups merge to every type stands but overlooked integers. -/
theorem remains_append_iff (hmerged : ∀ type, Remains type schemas ↔ Occurs type (singles merged))
    (hunited : ∀ type, Remains type others ↔ Occurs type (singles united)) (type : String) :
    Remains type (merged ++ united) ↔ Remains type (schemas ++ others) ∧
      ¬ (type = "integer" ∧ (Overlooked schemas others ∨ Overlooked others schemas)) := by
  by_cases hinteger : type = "integer"
  · subst hinteger
    -- Merging a group can take away its integers but no other type, so every other type is
    -- read off the group itself.
    have hnumber {group found : List Json}
        (hfound : ∀ type, Remains type group ↔ Occurs type (singles found)) :
        Occurs "number" (singles found) ↔ Occurs "number" (singles group) := by
      rw [← hfound, remains_iff_occurs (by decide)]
    have hfurther {group found : List Json}
        (hfound : ∀ type, Remains type group ↔ Occurs type (singles found)) :
        Further (singles found) ↔ Further (singles group) := by
      refine exists_congr fun type => and_congr_left fun hnot => ?_
      rw [← hfound, remains_iff_occurs (by rintro rfl; exact hnot (by decide))]
    rw [remains_integer_iff, remains_integer_iff, singles_append, singles_append, occurs_append,
      occurs_append, occurs_append, occurs_append, further_append, further_append, ← hmerged,
      ← hunited, hnumber hmerged, hnumber hunited, hfurther hmerged, hfurther hunited,
      remains_integer_iff, remains_integer_iff, overlooked_iff, overlooked_iff, onlyNumbers_iff,
      onlyNumbers_iff]
    tauto
  · rw [remains_iff_occurs hinteger, remains_iff_occurs hinteger, singles_append, singles_append,
      occurs_append, occurs_append, ← hmerged, ← hunited, remains_iff_occurs hinteger,
      remains_iff_occurs hinteger]
    exact (and_iff_left fun hboth => hinteger hboth.1).symm

/-! ## Two groups -/

theorem Alike.length_eq {alternatives others : List Json}
    (h : Alike (Schema.anyOf alternatives) (Schema.anyOf others)) :
    alternatives.length = others.length := by
  generalize hfirst : Schema.anyOf alternatives = schema at h
  generalize hsecond : Schema.anyOf others = other at h
  cases h with
  | refl =>
      rw [← hsecond] at hfirst
      simp only [Schema.anyOf, Json.obj.injEq, List.cons.injEq, Prod.mk.injEq, Json.arr.injEq]
        at hfirst
      rw [hfirst.1.2]
  | anyOf hpairs hothers =>
      simp only [Schema.anyOf, Json.obj.injEq, List.cons.injEq, Prod.mk.injEq, Json.arr.injEq]
        at hfirst hsecond
      rw [hfirst.1.2, hsecond.1.2, hpairs.length_eq, hothers.length_eq, List.length_map,
        List.length_map]
  | object | array => simp [Schema.anyOf, ofObject, ofArray] at hfirst

section Groups

variable {first second : Json} (hfirst : Tidy True first) (hsecond : Tidy True second)
  (hschemas : Agree schemas [first]) (hothers : Agree others [second])

include hfirst hsecond hschemas hothers

theorem remains_groups_iff (position : Position) (type : String) :
    Remains type (insideAlong [first, second] position) ↔
      Remains type (insideAlong (schemas ++ others) position) ∧
        ¬ (type = "integer" ∧ OverlookedAt schemas others position) := by
  rw [show [first, second] = [first] ++ [second] from rfl, insideAlong_append, insideAlong_append]
  exact remains_append_iff
    (fun type => ((hschemas position).types type).trans (hfirst.remains_iff position type))
    (fun type => ((hothers position).types type).trans (hsecond.remains_iff position type)) type

/-- What two groups merge to agrees with all of their schemas, unless integers are
overlooked somewhere. -/
theorem agree_groups_iff : Agree (schemas ++ others) [first, second] ↔
    ∀ position, ¬ OverlookedAt schemas others position := by
  have hremains := remains_groups_iff hfirst hsecond hschemas hothers
  constructor
  · intro hagree position hoverlooked
    have hinteger : Remains "integer" (insideAlong (schemas ++ others) position) := by
      rw [insideAlong_append, remains_integer_iff, singles_append, occurs_append, further_append]
      rcases hoverlooked with h | h
      · exact ⟨.inl h.onlyNumbers.integer, fun _ => .inr h.further⟩
      · exact ⟨.inr h.onlyNumbers.integer, fun _ => .inl h.further⟩
    exact ((hremains position _).mp (((hagree position).types _).mp hinteger)).2 ⟨rfl, hoverlooked⟩
  · refine fun hnone position => ⟨fun type => ?_, fun trait => ?_⟩
    · rw [hremains, and_iff_left fun hinteger => hnone position hinteger.2]
    · rw [show [first, second] = [first] ++ [second] from rfl, insideAlong_append,
        insideAlong_append, singlesOf_append, singlesOf_append]
      exact Trait.holds_append_congr ((hschemas position).traits trait)
        ((hothers position).traits trait)

end Groups

/-- Inferred schemas merge, at once and in two groups. The results are equal up to
order exactly if no integers are overlooked in any position; what was merged in groups
lacks the overlooked integers and no other type. What was merged at once has every type
of the schemas in every position, but for integers where only numbers and null stand
beside them. -/
theorem merge_append_alike_iff (h : ∀ schema ∈ schemas ++ others, Inferred schema) :
    ∃ first second whole regrouped, merge schemas = .ok first ∧ merge others = .ok second ∧
      merge (schemas ++ others) = .ok whole ∧ merge [first, second] = .ok regrouped ∧
      (Alike whole regrouped ↔ ∀ position, ¬ OverlookedAt schemas others position) ∧
      ∀ position type,
        (Occurs type (singles (insideAlong [regrouped] position)) ↔
          Occurs type (singles (insideAlong [whole] position)) ∧
            ¬ (type = "integer" ∧ OverlookedAt schemas others position)) ∧
        (Occurs type (singles (insideAlong [whole] position)) ↔
          Occurs type (singles (insideAlong (schemas ++ others) position)) ∧ ¬ (type = "integer" ∧
            OnlyNumbers (singles (insideAlong (schemas ++ others) position)))) := by
  have htidy : ∀ schema ∈ schemas ++ others, Tidy True schema :=
    fun schema hmem => (h schema hmem).tidy
  obtain ⟨hschemas, hothers⟩ := List.forall_mem_append.mp htidy
  obtain ⟨first, hfirst, htidyFirst, hagreeFirst⟩ := merge_tidy hschemas
  obtain ⟨second, hsecond, htidySecond, hagreeSecond⟩ := merge_tidy hothers
  obtain ⟨whole, hwhole, htidyWhole, hagreeWhole⟩ := merge_tidy htidy
  obtain ⟨regrouped, hregrouped, htidyRegrouped, hagreeRegrouped⟩ :=
    @merge_tidy True [first, second] (List.forall_mem_cons.mpr
      ⟨htidyFirst, List.forall_mem_singleton.mpr htidySecond⟩)
  refine ⟨first, second, whole, regrouped, hfirst, hsecond, hwhole, hregrouped, ?_,
    fun position type => ?_⟩
  · rw [alike_iff_agree htidyWhole htidyRegrouped,
      ← agree_groups_iff htidyFirst htidySecond hagreeFirst hagreeSecond]
    exact ⟨fun hagree => hagreeWhole.trans (hagree.trans hagreeRegrouped.symm),
      fun hagree => hagreeWhole.symm.trans (hagree.trans hagreeRegrouped)⟩
  · have hgroups := remains_groups_iff htidyFirst htidySecond hagreeFirst hagreeSecond position type
    rw [(hagreeRegrouped position).types, (hagreeWhole position).types, htidyRegrouped.remains_iff,
      htidyWhole.remains_iff] at hgroups
    exact ⟨hgroups, (htidyWhole.remains_iff position type).symm.trans
      ((hagreeWhole position).types type).symm⟩

/-! ## Numbers beside texts -/

theorem inferred_integer : Inferred (ofType (.str "integer")) :=
  .value (show Distinct (.int 1) by decide) rfl

theorem inferred_number : Inferred (ofType (.str "number")) :=
  .value (show Distinct (.float ⟨0x3ff8000000000000⟩) by decide) rfl

theorem inferred_string : Inferred (ofType (.str "string")) :=
  .value (show Distinct (.str "a") by decide) rfl

/-- Where both groups have integers, nothing is overlooked. -/
theorem merge_append_alike_integers :
    ∃ first second whole regrouped,
      merge [ofType (.str "integer"), ofType (.str "number")] = .ok first ∧
      merge [ofType (.str "integer"), ofType (.str "string")] = .ok second ∧
      merge [ofType (.str "integer"), ofType (.str "number"), ofType (.str "integer"),
        ofType (.str "string")] = .ok whole ∧
      merge [first, second] = .ok regrouped ∧ Alike whole regrouped := by
  obtain ⟨first, second, whole, regrouped, hfirst, hsecond, hwhole, hregrouped, halike, _⟩ :=
    @merge_append_alike_iff [ofType (.str "integer"), ofType (.str "number")]
      [ofType (.str "integer"), ofType (.str "string")]
      (by simp [inferred_integer, inferred_number, inferred_string])
  refine ⟨first, second, whole, regrouped, hfirst, hsecond, hwhole, hregrouped, halike.mpr ?_⟩
  have hinteger {others : List Json} :
      Occurs "integer" (singles (ofType (.str "integer") :: others)) :=
    ⟨ofType (.str "integer"),
      by simp [singles, alternatives, ofType, Table.get?, Except.toOption], rfl⟩
  rintro (- | ⟨stage, rest⟩) (h | h)
  · exact h.noInteger hinteger
  · exact h.noInteger hinteger
  all_goals
    have hnone := h.onlyNumbers
    rw [insideAlong, show inside _ stage = [] by cases stage <;> rfl, insideAlong_nil] at hnone
    exact not_onlyNumbers_nil hnone

/-- An integer and a number, and then a text: merged at once the integer stands beside
the number, merged in groups it does not. -/
theorem merge_append_not_alike :
    (∀ schema ∈ [ofType (.str "integer"), ofType (.str "number"), ofType (.str "string")],
      Inferred schema) ∧
    merge [ofType (.str "integer"), ofType (.str "number")] = .ok (ofType (.str "number")) ∧
    merge [ofType (.str "string")] = .ok (ofType (.str "string")) ∧
    merge [ofType (.str "integer"), ofType (.str "number"), ofType (.str "string")] =
      .ok (anyOf [ofType (.str "integer"), ofType (.str "number"), ofType (.str "string")]) ∧
    merge [ofType (.str "number"), ofType (.str "string")] =
      .ok (anyOf [ofType (.str "number"), ofType (.str "string")]) ∧
    ¬ Alike (anyOf [ofType (.str "integer"), ofType (.str "number"), ofType (.str "string")])
      (anyOf [ofType (.str "number"), ofType (.str "string")]) := by
  refine ⟨by simp [inferred_integer, inferred_number, inferred_string], rfl, rfl, rfl, rfl,
    fun halike => ?_⟩
  exact absurd halike.length_eq (by decide)

end RequestShapes.Schema
