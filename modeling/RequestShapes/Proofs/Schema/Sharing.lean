import RequestShapes.Proofs.Schema.FreshName
import RequestShapes.Proofs.Schema.Layers

/-!
# Sharing shapes keeps what a schema accepts

Moving the object shapes of an inferred schema into definitions builds a table
in layers, and the node that is left accepts what the schema describes. Unless
nothing was added the newest definition is one that this node refers to.
-/

namespace RequestShapes.Schema

/-! ## One shape -/

/-- A shape is registered under the first attempt that is free or holds it. -/
theorem register_firstNumbered (definitions : Table Json) (shape : Json) (name : String) :
    ∃ accepts : String → Bool,
      (∀ candidate, accepts candidate = true ↔
        ∀ present, Table.get? definitions candidate = some present →
          sameShape present shape = true) ∧
      register definitions shape name =
        let final := firstNumbered accepts name definitions.length 1
        if Table.has definitions final then (final, definitions)
        else (final, Table.set definitions final (shape.set "title" (.str final))) := by
  refine ⟨_, fun candidate => ?_, rfl⟩
  cases Table.get? definitions candidate <;> simp

/-- A shape gets a new name, or the name of a definition with the same
properties. -/
theorem register_ok {definitions : Table Json} (h : Layered definitions)
    {properties : List (String × Json)} (hshape : IsShape definitions properties)
    (required : List String) (title name : String) :
    ∃ final later, register definitions (closedObject properties (.arr (required.map .str)) title)
        name = (final, later) ∧
      ((final ∉ Table.names definitions ∧ later = Table.set definitions final
        (closedObject properties (.arr (required.map .str)) final)) ∨
      (later = definitions ∧ ∃ others other, Table.get? definitions final =
          some (closedObject others (.arr (required.map .str)) other) ∧
        IsShape definitions others ∧
        ∀ name, Table.get? others name = Table.get? properties name)) := by
  have hlength : definitions.length = (Table.names definitions).length := by simp [Table.names]
  obtain ⟨accepts, haccepts, hregister⟩ := register_firstNumbered definitions
    (closedObject properties (.arr (required.map .str)) title) name
  have hrefused : ∀ candidate, accepts candidate = false →
      candidate ∈ Table.names definitions := by
    intro candidate hfalse
    by_contra hnot
    have htrue := (haccepts candidate).mpr fun present hget => by
      rw [Table.get?_eq_none_iff.mpr hnot] at hget
      cases hget
    rw [hfalse] at htrue
    cases htrue
  have haccepted := firstNumbered_accepted hrefused name
  rw [hregister, hlength]
  dsimp only
  generalize firstNumbered accepts name (Table.names definitions).length 1 = final at haccepted ⊢
  cases hget : Table.get? definitions final with
  | none =>
      have hfresh := Table.get?_eq_none_iff.mp hget
      have hhas : Table.has definitions final = false := by rw [Table.has, hget]; rfl
      rw [hhas]
      exact ⟨final, _, rfl, .inl ⟨hfresh, rfl⟩⟩
  | some present =>
      have hhas : Table.has definitions final = true := by rw [Table.has, hget]; rfl
      rw [hhas]
      obtain ⟨others, needed, other, rfl, hothers⟩ := h.isShape hget
      have hsame := (haccepts final).mp haccepted _ hget
      obtain ⟨rfl, hfound⟩ := of_sameShape hothers.nodup hothers.drafted hshape.drafted hsame
      exact ⟨final, definitions, rfl, .inr ⟨rfl, others, other, hget, hothers, hfound⟩⟩

/-! ## What sharing achieves -/

/-- If definitions were added, the newest one is among those referred to. -/
def Newest (definitions later : Table Json) (targets : List String) : Prop :=
  later = definitions ∨ ∃ name ∈ targets, (Table.names later).getLast? = some name

/-- A node stands for a schema whose shapes were moved into definitions. -/
structure Shares (definitions : Table Json) (schema node : Json) (later : Table Json) : Prop where
  layered : Layered later
  grows : Extends definitions later
  drafted : Drafted node
  resolves : ∀ target ∈ targets node, target ∈ Table.names later
  accepts : ∀ value, Fits schema value → Accepts (unfolding later node) value
  newest : Newest definitions later (targets node)

/-- Nodes stand for schemas whose shapes were moved one after the other. -/
structure SharesAll (definitions : Table Json) (pairs : List (Json × Json)) (later : Table Json) :
    Prop where
  layered : Layered later
  grows : Extends definitions later
  drafted : ∀ pair ∈ pairs, Drafted pair.2
  resolves : ∀ pair ∈ pairs, ∀ target ∈ targets pair.2, target ∈ Table.names later
  accepts : ∀ pair ∈ pairs, ∀ value, Fits pair.1 value → Accepts (unfolding later pair.2) value
  newest : Newest definitions later (pairs.flatMap fun pair => targets pair.2)

theorem SharesAll.nil {definitions : Table Json} (h : Layered definitions) :
    SharesAll definitions [] definitions :=
  ⟨h, .refl _, fun _ hmem => (nomatch hmem), fun _ hmem => (nomatch hmem),
    fun _ hmem => (nomatch hmem), .inl rfl⟩

/-- What a node accepts it still accepts when more definitions have come. -/
theorem Shares.later_accepts {definitions middle later : Table Json} {schema node : Json}
    (h : Shares definitions schema node middle) (hgrows : Extends middle later) {value : Json}
    (hfits : Fits schema value) : Accepts (unfolding later node) value := by
  rw [unfolding_extends hgrows (fun _ _ hget _ htarget => h.layered.resolves hget htarget)
    h.resolves]
  exact h.accepts value hfits

theorem SharesAll.cons {definitions middle later : Table Json} {schema node : Json}
    {pairs : List (Json × Json)} (h : Shares definitions schema node middle)
    (hrest : SharesAll middle pairs later) :
    SharesAll definitions ((schema, node) :: pairs) later where
  layered := hrest.layered
  grows := h.grows.trans hrest.grows
  drafted := List.forall_mem_cons.mpr ⟨h.drafted, hrest.drafted⟩
  resolves := List.forall_mem_cons.mpr
    ⟨fun target hmem => hrest.grows.names_subset (h.resolves target hmem), hrest.resolves⟩
  accepts := List.forall_mem_cons.mpr
    ⟨fun _ hfits => h.later_accepts hrest.grows hfits, hrest.accepts⟩
  newest := by
    rcases hrest.newest with rfl | ⟨name, hmem, hlast⟩
    · rcases h.newest with rfl | ⟨name, hmem, hlast⟩
      · exact .inl rfl
      · exact .inr ⟨name, List.mem_append_left _ hmem, hlast⟩
    · exact .inr ⟨name, List.mem_append_right _ hmem, hlast⟩

/-! ## Steps of sharing -/

section Steps

variable (definitions : Table Json) (name : String)

theorem share_plain {schema : Json} (hany : schema.get? "anyOf" = none)
    (harray : schema.get? "type" ≠ some (.str "array"))
    (hobject : schema.get? "type" ≠ some (.str "object")) :
    share definitions schema name = (schema, definitions) := by
  rw [share]
  split
  next heq =>
    rw [hany] at heq
    cases heq
  next => rw [if_neg harray, if_neg hobject]

theorem share_ofArray (schema : Json) :
    share definitions (ofArray schema) name =
      (ofArray (share definitions schema name).1, (share definitions schema name).2) := by
  have htype : (ofArray schema).get? "type" = some (.str "array") := rfl
  have hitems : (ofArray schema).get? "items" = some schema := rfl
  rw [share]
  split
  next heq => cases heq
  next =>
    rw [if_pos htype]
    split
    next items heq =>
      obtain rfl := Option.some.inj (hitems.symm.trans heq)
      rfl
    next heq =>
      rw [hitems] at heq
      cases heq

theorem share_anyOf (alternatives : List Json) :
    share definitions (anyOf alternatives) name =
      (anyOf (shareItems definitions alternatives name).1,
        (shareItems definitions alternatives name).2) := by
  have hget : (anyOf alternatives).get? "anyOf" = some (.arr alternatives) := rfl
  rw [share]
  split
  next members heq =>
    obtain rfl := Json.arr.inj (Option.some.inj (hget.symm.trans heq))
    rfl
  next hnot => exact absurd hget (hnot alternatives)

theorem share_ofObject (properties : List (String × Json)) (required : List String) :
    share definitions (ofObject properties required) name =
      let shared := shareMembers definitions properties
      let registered := register shared.2
        (closedObject shared.1 (.arr (required.map .str)) name) name
      (refTo registered.1, registered.2) := by
  have htype : (ofObject properties required).get? "type" = some (.str "object") := rfl
  have hget : (ofObject properties required).get? "properties" = some (.obj properties) := rfl
  rw [share]
  split
  next heq => cases heq
  next =>
    rw [if_neg (by simp [htype]), if_pos htype]
    split
    next members heq =>
      obtain rfl := Json.obj.inj (Option.some.inj (hget.symm.trans heq))
      rfl
    next hnot => exact absurd hget (hnot properties)

end Steps

/-! ## Sharing a schema -/

/-- Sharing does with a schema what it should, whatever is defined already. -/
def Shareable (schema : Json) : Prop :=
  ∀ definitions name, Layered definitions →
    Shares definitions schema (share definitions schema name).1 (share definitions schema name).2

theorem shareItems_ok {schemas : List Json} (h : ∀ schema ∈ schemas, Shareable schema)
    (definitions : Table Json) (name : String) (hlayered : Layered definitions) :
    ∃ pairs, schemas = pairs.map Prod.fst ∧
      (shareItems definitions schemas name).1 = pairs.map Prod.snd ∧
      SharesAll definitions pairs (shareItems definitions schemas name).2 := by
  induction schemas generalizing definitions with
  | nil =>
      rw [shareItems]
      exact ⟨[], rfl, rfl, .nil hlayered⟩
  | cons schema rest ih =>
      obtain ⟨hschema, hrest⟩ := List.forall_mem_cons.mp h
      have hfirst := hschema definitions name hlayered
      obtain ⟨pairs, hschemas, hnodes, hall⟩ := ih hrest _ hfirst.layered
      rw [shareItems]
      exact ⟨(schema, (share definitions schema name).1) :: pairs, by rw [hschemas]; rfl,
        by simp only [hnodes, List.map_cons], .cons hfirst hall⟩

theorem shareMembers_ok {members : List (String × Json)}
    (h : ∀ entry ∈ members, Shareable entry.2) (definitions : Table Json)
    (hlayered : Layered definitions) :
    ∃ entries : Table (Json × Json), members = entries.map (fun entry => (entry.1, entry.2.1)) ∧
      (shareMembers definitions members).1 = entries.map (fun entry => (entry.1, entry.2.2)) ∧
      SharesAll definitions (entries.map Prod.snd) (shareMembers definitions members).2 := by
  induction members generalizing definitions with
  | nil =>
      rw [shareMembers]
      exact ⟨[], rfl, rfl, .nil hlayered⟩
  | cons entry rest ih =>
      obtain ⟨property, schema⟩ := entry
      obtain ⟨hschema, hrest⟩ := List.forall_mem_cons.mp h
      have hfirst := hschema definitions (propertyShapeName property) hlayered
      obtain ⟨entries, hmembers, hnodes, hall⟩ := ih hrest _ hfirst.layered
      rw [shareMembers]
      exact ⟨(property, schema, (share definitions schema (propertyShapeName property)).1) ::
        entries, by rw [hmembers]; rfl, by simp only [hnodes, List.map_cons], .cons hfirst hall⟩

/-- Schemas without inner schemas stay as they are. -/
theorem share_leaf {members : List (String × Json)} (h : Leaf members)
    (definitions : Table Json) (name : String) :
    share definitions (.obj members) name = (.obj members, definitions) := by
  apply share_plain <;> cases h with
  | empty => simp [Json.get?]
  | typed hflat | format _ hflat => cases hflat <;> simp_all [Json.get?, Table.get?]

theorem shareable_leaf {members : List (String × Json)} (hleaf : Leaf members)
    (haccepts : ∀ definitions value, Fits (.obj members) value →
      Accepts (unfolding definitions (.obj members)) value) : Shareable (.obj members) := by
  intro definitions name hlayered
  have htargets : targets (.obj members) = [] := by
    cases hleaf with
    | empty => rfl
    | typed hflat | format _ hflat =>
        cases hflat <;> simp [targets, memberTargets, itemTargets, target?, Json.get?, Table.get?]
  rw [share_leaf hleaf]
  exact ⟨hlayered, .refl _, .leaf hleaf, by simp [htargets], haccepts definitions, .inl rfl⟩

theorem Scalar.leaf {type : String} {rest : List (String × Json)} (h : Scalar type rest)
    {shown : Json} (hflat : Flat shown) : Leaf (("type", shown) :: rest) := by
  cases h with
  | plain => exact .typed hflat
  | format format => exact .format format hflat

theorem Scalar.flat {type : String} {rest : List (String × Json)} (h : Scalar type rest) :
    Flat (.str type) := by
  refine .one ?_ ?_ <;>
    · rintro rfl
      exact absurd h.mem (by decide)

theorem accepts_flat {type : String} {rest : List (String × Json)} (hscalar : Scalar type rest)
    {shown value : Json} (hflat : Flat shown) (definitions : Table Json)
    (htype : (∃ type, shown = .str type ∧ HasType value type) ∨
      ∃ types type, shown = .arr types ∧ Json.str type ∈ types ∧ HasType value type)
    (hformat : ∀ format text, rest = [("format", .str (Format.name format))] →
      value = .str text → ∃ found, Format.name format = Format.name found ∧
        Format.detect? text = some found) :
    Accepts (unfolding definitions (.obj (("type", shown) :: rest))) value := by
  have harray : isArray (.obj (("type", shown) :: rest)) = false := by
    cases hflat <;> simp_all [isArray, Json.get?, Table.get?]
  refine accepts_leaf (fun name hname => ?_) harray (fun inner hget => ?_)
    fun inner text hget heq => ?_
  · cases hscalar <;> simp only [List.mem_cons, List.not_mem_nil, or_false] at hname <;>
      rcases hname with rfl | rfl | rfl | rfl | rfl | rfl <;> rfl
  · obtain rfl : shown = inner := by simpa [Table.get?] using hget
    exact htype
  · cases hscalar with
    | plain => simp [Table.get?] at hget
    | format format =>
        obtain rfl : Json.str format.name = inner := by simpa [Table.get?] using hget
        obtain ⟨found, hname, hdetect⟩ := hformat format text rfl heq
        exact ⟨found, by rw [hname], hdetect⟩

theorem Fits.of_format {type : String} {rest : List (String × Json)} {value : Json}
    (hscalar : Scalar type rest) (h : Fits (.obj (("type", .str type) :: rest)) value) :
    ∀ format text, rest = [("format", .str (Format.name format))] → value = .str text →
      ∃ found, Format.name format = Format.name found ∧ Format.detect? text = some found := by
  intro format text hrest hvalue
  obtain ⟨found, hdetect, hname⟩ :=
    Option.map_eq_some_iff.mp ((h.of_scalar hscalar).2 format text hrest hvalue)
  exact ⟨found, hname.symm, hdetect⟩

section Leaves

variable {type : String} {rest : List (String × Json)} {value : Json}

theorem Fits.accepts_scalar (hscalar : Scalar type rest)
    (h : Fits (.obj (("type", .str type) :: rest)) value) (definitions : Table Json) :
    Accepts (unfolding definitions (.obj (("type", .str type) :: rest))) value :=
  accepts_flat hscalar hscalar.flat definitions (.inl ⟨type, rfl, (h.of_scalar hscalar).1⟩)
    (h.of_format hscalar)

theorem Fits.accepts_nullable (hscalar : Scalar type rest)
    (h : Fits (.obj (("type", .arr [.str type, .str "null"]) :: rest)) value)
    (definitions : Table Json) :
    Accepts (unfolding definitions (.obj (("type", .arr [.str type, .str "null"]) :: rest)))
      value := by
  rcases h.of_nullable with rfl | hfits
  · exact accepts_flat hscalar (.nullable type) definitions
      (.inr ⟨_, "null", rfl, by simp, .null⟩) (fun _ _ _ heq => (nomatch heq))
  · exact accepts_flat hscalar (.nullable type) definitions
      (.inr ⟨_, type, rfl, by simp, (hfits.of_scalar hscalar).1⟩) (hfits.of_format hscalar)

theorem Fits.accepts_null (h : Fits nullType value) (definitions : Table Json) :
    Accepts (unfolding definitions nullType) value := by
  have htype := h.hasType rfl
  refine accepts_leaf (fun name hname => ?_) rfl (fun inner hget => ?_) fun _ _ hget => ?_
  · simp only [List.mem_cons, List.not_mem_nil, or_false] at hname
    rcases hname with rfl | rfl | rfl | rfl | rfl | rfl <;> rfl
  · cases hget
    exact .inl ⟨"null", rfl, htype⟩
  · cases hget

theorem shareable_scalar (h : Scalar type rest) : Shareable (.obj (("type", .str type) :: rest)) :=
  shareable_leaf (h.leaf h.flat) fun definitions _ hfits => hfits.accepts_scalar h definitions

theorem shareable_nullable (h : Scalar type rest) :
    Shareable (.obj (("type", .arr [.str type, .str "null"]) :: rest)) :=
  shareable_leaf (h.leaf (.nullable type)) fun definitions _ hfits =>
    hfits.accepts_nullable h definitions

theorem shareable_null : Shareable nullType :=
  shareable_leaf (.typed (.one (by decide) (by decide))) fun definitions _ hfits =>
    hfits.accepts_null definitions

end Leaves

/-- The properties that stand for those of a schema, with what they stand for. -/
theorem SharesAll.isShape {definitions later : Table Json} {entries : Table (Json × Json)}
    (h : SharesAll definitions (entries.map Prod.snd) later)
    (hnodup : (Table.names entries).Nodup) :
    IsShape later (entries.map fun entry => (entry.1, entry.2.2)) := by
  refine ⟨by simpa [Table.names, Function.comp_def] using hnodup, fun node hmem => ?_, fun target hmem => ?_⟩
  · obtain ⟨entry, hentry, rfl⟩ := List.mem_map.mp hmem
    exact h.drafted entry.2 (List.mem_map_of_mem hentry)
  · obtain ⟨node, hnode, htarget⟩ := mem_memberTargets.mp hmem
    obtain ⟨entry, hentry, rfl⟩ := List.mem_map.mp hnode
    exact h.resolves entry.2 (List.mem_map_of_mem hentry) target htarget

/-- A definition with these properties accepts what the schema describes. -/
theorem SharesAll.accepts_object {definitions middle later : Table Json}
    {entries : Table (Json × Json)} (h : SharesAll definitions (entries.map Prod.snd) middle)
    (hgrows : Extends middle later) {required : List String} {value : Json}
    (hfits : Fits (ofObject (entries.map fun entry => (entry.1, entry.2.1)) required) value)
    {others : List (String × Json)} {title : String} (hothers : ∀ entry ∈ others, Drafted entry.2)
    (hsame : ∀ name, Table.get? others name =
      Table.get? (entries.map fun entry => (entry.1, entry.2.2)) name) :
    Accepts (unfolding later (closedObject others (.arr (required.map .str)) title)) value := by
  obtain ⟨members, rfl, hrequired, hknown, hinner⟩ := hfits.of_object
  refine accepts_closedObject hrequired (fun name inner hget => ?_) (target?_properties hothers)
    (isArray_properties hothers)
  obtain ⟨schema, hschema⟩ :=
    Table.exists_get?_of_mem_names (hknown name (Table.mem_names_of_get? hget))
  have hfirst := Table.get?_mapValues entries (fun _ pair => pair.1) name
  obtain ⟨pair, hpair, rfl⟩ := Option.map_eq_some_iff.mp (hfirst.symm.trans hschema)
  have hmem : pair ∈ entries.map Prod.snd :=
    List.mem_map.mpr ⟨(name, pair), Table.mem_of_get? hpair, rfl⟩
  refine ⟨pair.2, ?_, ?_⟩
  · rw [hsame, Table.get?_mapValues entries (fun _ pair => pair.2) name, hpair, Option.map_some]
  · rw [unfolding_extends hgrows (fun _ _ hget _ htarget => h.layered.resolves hget htarget)
      (h.resolves pair hmem)]
    exact h.accepts pair hmem inner (hinner name inner pair.1 hget hschema)

/-- A shape becomes a reference to the definition of its properties. -/
theorem shareable_object {properties : List (String × Json)} {required : List String}
    (hnodup : (Table.names properties).Nodup)
    (hproperties : ∀ entry ∈ properties, Shareable entry.2) :
    Shareable (ofObject properties required) := by
  intro definitions name hlayered
  obtain ⟨entries, rfl, hnodes, hall⟩ := shareMembers_ok hproperties definitions hlayered
  rw [share_ofObject]
  generalize shareMembers definitions _ = shared at hnodes hall ⊢
  obtain ⟨nodes, middle⟩ := shared
  obtain rfl : nodes = _ := hnodes
  have hshape := hall.isShape (by simpa [Table.names, Function.comp_def] using hnodup)
  obtain ⟨final, later, hregister, hcases⟩ := register_ok hall.layered hshape required name name
  simp only [hregister]
  rcases hcases with ⟨hfresh, rfl⟩ | ⟨rfl, others, title, hget, hothers, hsame⟩
  · have hgrows := Extends.set hfresh
      (closedObject (entries.map fun entry => (entry.1, entry.2.2)) (.arr (required.map .str)) final)
    refine ⟨.add hall.layered hfresh hshape, hall.grows.trans hgrows, .refTo final, ?_, ?_, ?_⟩
    · simp [Table.mem_names_set]
    · intro value hfits
      exact accepts_of_designates ⟨final, target?_refTo final, Table.get?_set_self _ _ _⟩
        (hall.accepts_object hgrows hfits hshape.drafted fun _ => rfl)
    · exact .inr ⟨final, by simp, by simp [Table.names_set_of_not_mem hfresh]⟩
  · refine ⟨hall.layered, hall.grows, .refTo final, ?_, ?_, ?_⟩
    · simpa using Table.mem_names_of_get? hget
    · intro value hfits
      exact accepts_of_designates ⟨final, target?_refTo final, hget⟩
        (hall.accepts_object (.refl _) hfits hothers.drafted hsame)
    · rcases hall.newest with heq | ⟨newest, hmem, hlast⟩
      · exact .inl heq
      · -- the definition that is there already would refer to the newest one
        obtain ⟨pair, hpair, htarget⟩ := List.mem_flatMap.mp hmem
        obtain ⟨entry, hentry, rfl⟩ := List.mem_map.mp hpair
        have hnode : Table.get? others entry.1 = some entry.2.2 := by
          rw [hsame]
          exact Table.get?_of_mem hshape.nodup (List.mem_map.mpr ⟨entry, hentry, rfl⟩)
        refine absurd hlast (hall.layered.ne_newest hget ?_)
        rw [targets_closedObject hothers.drafted]
        exact mem_memberTargets.mpr ⟨_, Table.mem_of_get? hnode, htarget⟩

theorem shareable_array {schema : Json} (h : Shareable schema) : Shareable (ofArray schema) := by
  intro definitions name hlayered
  rw [share_ofArray]
  have hinner := h definitions name hlayered
  generalize (share definitions schema name).1 = node, (share definitions schema name).2 = later
    at hinner ⊢
  have htargets : targets (ofArray node) = targets node := by
    simp [ofArray, targets, memberTargets, target?, Json.get?, Table.get?]
  refine ⟨hinner.layered, hinner.grows, .array hinner.drafted, ?_, fun value hfits => ?_, ?_⟩
  · rw [htargets]
    exact hinner.resolves
  · obtain ⟨items, rfl, hitems⟩ := hfits.of_array
    exact accepts_ofArray hinner.drafted.isObject fun item hmem =>
      hinner.accepts item (hitems item hmem)
  · rw [htargets]
    exact hinner.newest

theorem shareable_anyOf {alternatives : List Json}
    (h : ∀ schema ∈ alternatives, Shareable schema) : Shareable (anyOf alternatives) := by
  intro definitions name hlayered
  rw [share_anyOf]
  obtain ⟨pairs, rfl, hnodes, hall⟩ := shareItems_ok h definitions name hlayered
  generalize (shareItems definitions _ name).1 = nodes, (shareItems definitions _ name).2 = later
    at hnodes hall ⊢
  subst hnodes
  have htargets : targets (anyOf (pairs.map Prod.snd)) =
      pairs.flatMap fun pair => targets pair.2 := by
    have hitems : itemTargets (pairs.map Prod.snd) = pairs.flatMap fun pair => targets pair.2 := by
      clear hall h
      induction pairs with
      | nil => rfl
      | cons pair rest ih => rw [List.map_cons, itemTargets, ih, List.flatMap_cons]
    simp [anyOf, targets, memberTargets, target?, Json.get?, Table.get?, hitems]
  refine ⟨hall.layered, hall.grows, .anyOf ?_, ?_, fun value hfits => ?_, ?_⟩
  · intro node hmem
    obtain ⟨pair, hpair, rfl⟩ := List.mem_map.mp hmem
    exact hall.drafted pair hpair
  · rw [htargets]
    intro target hmem
    obtain ⟨pair, hpair, htarget⟩ := List.mem_flatMap.mp hmem
    exact hall.resolves pair hpair target htarget
  · obtain ⟨schema, hmem, hfits⟩ := hfits.of_anyOf
    obtain ⟨pair, hpair, rfl⟩ := List.mem_map.mp hmem
    exact accepts_anyOf (List.mem_map_of_mem hpair) (hall.accepts pair hpair value hfits)
  · rw [htargets]
    exact hall.newest

/-- Every inferred schema can be shared. -/
theorem Normal.shareable {schema : Json} (h : Normal schema) : Shareable schema := by
  induction h with
  | empty => exact shareable_leaf .empty fun _ value hfits => absurd hfits (not_fits_empty value)
  | null => exact shareable_null
  | scalar hscalar => exact shareable_scalar hscalar
  | nullable hscalar => exact shareable_nullable hscalar
  | object hnodup _ ih => exact shareable_object hnodup ih
  | array _ ih => exact shareable_array ih
  | anyOf _ _ ih => exact shareable_anyOf ih

end RequestShapes.Schema
