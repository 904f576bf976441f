import RequestShapes.Proofs.Schema.Sample

/-!
# Where the nodes of a draft come from

Every node of an inferred draft can be traced back to what is found in the sample
after some hops to keys and elements. Where it accepts everything arrays are
found, and none of them has an item.
-/

namespace RequestShapes.Schema

/-! ## Finding values in a sample -/

/-- A hop from a value to one directly inside of it. -/
inductive Hop where
  | key (name : String)
  | element
deriving DecidableEq, Repr

/-- What is observed one hop further. -/
def Observed.after (observed : Observed) : Hop → Observed
  | .key name => observed.under name
  | .element => observed.elements

/-- What is found in a sample after some hops. -/
def foundAt (sample : Json) (hops : List Hop) : Observed :=
  hops.foldl Observed.after (· = sample)

theorem foundAt_concat (sample : Json) (hops : List Hop) (hop : Hop) :
    foundAt sample (hops ++ [hop]) = (foundAt sample hops).after hop := by
  simp [foundAt]

/-- Arrays are found after some hops, and none of them has an item. -/
def EmptyArraysAt (sample : Json) (hops : List Hop) : Prop :=
  (∃ items, foundAt sample hops (.arr items)) ∧
    ∀ items, foundAt sample hops (.arr items) → items = []

/-! ## Traced nodes -/

/-- A schema that nests none and does not accept everything. -/
inductive Plain : Json → Prop
  | null : Plain nullType
  | scalar {type : String} {rest : List (String × Json)} : Scalar type rest →
      Plain (.obj (("type", .str type) :: rest))
  | nullable {type : String} {rest : List (String × Json)} : Scalar type rest →
      Plain (.obj (("type", .arr [.str type, .str "null"]) :: rest))

theorem Plain.exists_leaf {node : Json} (h : Plain node) :
    ∃ members, node = .obj members ∧ Leaf members := by
  cases h with
  | null => exact ⟨_, rfl, .typed (.one (by decide) (by decide))⟩
  | scalar hscalar => exact ⟨_, rfl, hscalar.leaf hscalar.flat⟩
  | nullable hscalar => exact ⟨_, rfl, hscalar.leaf (.nullable _)⟩

/-- The node that refers to some definition and says nothing else. -/
def IsReference (node : Json) : Prop := ∃ name, node = refTo name

/-- A node comes from what is found in the sample after some hops. Some nodes
stand for others that are traced on their own. -/
inductive Traced (Stands : Json → Prop) (sample : Json) : List Hop → Json → Prop
  | empty {hops : List Hop} : EmptyArraysAt sample hops →
      Traced Stands sample (hops ++ [.element]) .empty
  | plain {hops : List Hop} {node : Json} : Plain node → Traced Stands sample hops node
  | stands {hops : List Hop} {node : Json} : Stands node → Traced Stands sample hops node
  | array {hops : List Hop} {items : Json} : Traced Stands sample (hops ++ [.element]) items →
      Traced Stands sample hops (ofArray items)
  | anyOf {hops : List Hop} {alternatives : List Json} : 2 ≤ alternatives.length →
      (∀ node ∈ alternatives, Traced Stands sample hops node) →
      Traced Stands sample hops (anyOf alternatives)
  | object {hops : List Hop} {properties : List (String × Json)} {required : List String}
      {title : String} :
      (∀ entry ∈ properties, Traced Stands sample (hops ++ [.key entry.1]) entry.2) →
      Traced Stands sample hops (closedObject properties (.arr (required.map .str)) title)

/-- Every definition of a table is traced. -/
def TracedTable (Stands : Json → Prop) (sample : Json) (definitions : Table Json) : Prop :=
  ∀ entry ∈ definitions, ∃ hops, Traced Stands sample hops entry.2

theorem TracedTable.set {Stands : Json → Prop} {sample : Json} {definitions : Table Json}
    (h : TracedTable Stands sample definitions) {hops : List Hop} {node : Json}
    (hnode : Traced Stands sample hops node) (name : String) :
    TracedTable Stands sample (Table.set definitions name node) := by
  intro entry hmem
  rcases Table.mem_set hmem with rfl | hmem
  · exact ⟨hops, hnode⟩
  · exact h entry hmem

/-! ## Summaries of what is found -/

/-- Arrays and objects have one type. -/
theorem HasType.unique {value : Json} (hcontainer : value.isContainer = true)
    {type other : String} (h : HasType value type) (hother : HasType value other) :
    type = other := by
  cases h <;> cases hother <;> first | rfl | cases hcontainer

/-- The containers that a schema of a type observes are all those found of this
type. -/
def ObservesAll (sample : Json) (hops : List Hop) (observed : Observed) (schema : Json) : Prop :=
  ∀ value, value.isContainer = true →
    (∀ type, schema.get? "type" = some (.str type) → HasType value type) →
    (observed value ↔ foundAt sample hops value)

theorem observesAll_of_eq {sample : Json} {hops : List Hop} {observed : Observed}
    (h : ∀ value, observed value ↔ foundAt sample hops value) (schema : Json) :
    ObservesAll sample hops observed schema :=
  fun value _ _ => h value

/-- Alternatives of distinct types share what is found among them by type. -/
theorem observesAll_alternative {sample : Json} {hops : List Hop} {parts : List Summary}
    {nullable : Bool} (hsummarizes : ∀ part ∈ parts, Summarizes part.1 part.2)
    (htyped : ∀ part ∈ parts, IsTyped part.2)
    (hnodup : (parts.map fun part => part.2.get? "type").Nodup)
    (h : ∀ value, value.isContainer = true →
      (joined (parts ++ nullParts nullable) value ↔ foundAt sample hops value))
    {part : Summary} (hpart : part ∈ parts) : ObservesAll sample hops part.1 part.2 := by
  intro value hcontainer htype
  rw [← h value hcontainer, joined_append, joined_nullParts]
  constructor
  · exact fun hvalue => .inl ⟨part, hpart, hvalue⟩
  · rintro (⟨other, hother, hvalue⟩ | ⟨_, rfl⟩)
    · obtain ⟨type, hget, _⟩ := htyped part hpart
      obtain ⟨type', hget', _⟩ := htyped other hother
      have hhas := ((hsummarizes other hother).fits value hvalue).hasType hget'
      have heq := (htype type hget).unique hcontainer hhas
      obtain rfl : part = other :=
        List.inj_on_of_nodup_map hnodup hpart hother (by rw [hget, hget', heq])
      exact hvalue
    · cases hcontainer

/-! ## Sharing -/

/-- A shape gets a definition of its own, or one that is there serves. -/
theorem register_eq (definitions : Table Json) (properties : List (String × Json))
    (required : Json) (title name : String) :
    ∃ final later, register definitions (closedObject properties required title) name =
        (final, later) ∧
      (later = definitions ∨
        later = Table.set definitions final (closedObject properties required final)) := by
  unfold register
  simp only
  split
  · exact ⟨_, _, rfl, .inl rfl⟩
  · exact ⟨_, _, rfl, .inr rfl⟩

/-- Sharing leaves a node that is traced, and so are the definitions. -/
def SharesTraced (sample : Json) (hops : List Hop) (schema : Json) : Prop :=
  ∀ definitions name, TracedTable IsReference sample definitions →
    Traced IsReference sample hops (share definitions schema name).1 ∧
      TracedTable IsReference sample (share definitions schema name).2

theorem shareItems_traced {sample : Json} {hops : List Hop} {schemas : List Json}
    (h : ∀ schema ∈ schemas, SharesTraced sample hops schema) (definitions : Table Json)
    (name : String) (hdefinitions : TracedTable IsReference sample definitions) :
    (shareItems definitions schemas name).1.length = schemas.length ∧
      (∀ node ∈ (shareItems definitions schemas name).1, Traced IsReference sample hops node) ∧
      TracedTable IsReference sample (shareItems definitions schemas name).2 := by
  induction schemas generalizing definitions with
  | nil =>
      rw [shareItems]
      exact ⟨rfl, fun _ hmem => (nomatch hmem), hdefinitions⟩
  | cons schema rest ih =>
      obtain ⟨hschema, hrest⟩ := List.forall_mem_cons.mp h
      obtain ⟨hnode, hmiddle⟩ := hschema definitions name hdefinitions
      obtain ⟨hlength, hnodes, hlater⟩ := ih hrest _ hmiddle
      rw [shareItems]
      exact ⟨congrArg (· + 1) hlength, List.forall_mem_cons.mpr ⟨hnode, hnodes⟩, hlater⟩

theorem shareMembers_traced {sample : Json} {hops : List Hop} {members : List (String × Json)}
    (h : ∀ entry ∈ members, SharesTraced sample (hops ++ [.key entry.1]) entry.2)
    (definitions : Table Json) (hdefinitions : TracedTable IsReference sample definitions) :
    (∀ entry ∈ (shareMembers definitions members).1,
        Traced IsReference sample (hops ++ [.key entry.1]) entry.2) ∧
      TracedTable IsReference sample (shareMembers definitions members).2 := by
  induction members generalizing definitions with
  | nil =>
      rw [shareMembers]
      exact ⟨fun _ hmem => (nomatch hmem), hdefinitions⟩
  | cons entry rest ih =>
      obtain ⟨property, schema⟩ := entry
      obtain ⟨hschema, hrest⟩ := List.forall_mem_cons.mp h
      obtain ⟨hnode, hmiddle⟩ := hschema definitions (propertyShapeName property) hdefinitions
      obtain ⟨hnodes, hlater⟩ := ih hrest _ hmiddle
      rw [shareMembers]
      exact ⟨List.forall_mem_cons.mpr ⟨hnode, hnodes⟩, hlater⟩

theorem sharesTraced_plain {sample : Json} (hops : List Hop) {schema : Json} (h : Plain schema) :
    SharesTraced sample hops schema := by
  intro definitions name hdefinitions
  obtain ⟨members, rfl, hleaf⟩ := h.exists_leaf
  rw [share_leaf hleaf]
  exact ⟨.plain h, hdefinitions⟩

theorem nullType_sharesTraced {sample : Json} {hops : List Hop} {nullable : Bool} {part : Summary}
    (h : part ∈ nullParts nullable) : SharesTraced sample hops part.2 := by
  cases nullable with
  | false => cases h
  | true =>
      obtain rfl := List.mem_singleton.mp h
      exact sharesTraced_plain hops .null

/-- What summarizes the values found after some hops is traced back to them. The
schema of items is empty only if the arrays are. -/
theorem Summarizes.sharesTraced {sample : Json} {observed : Observed} {schema : Json}
    (h : Summarizes observed schema) (hops : List Hop)
    (hall : ObservesAll sample hops observed schema)
    (hempty : schema = .empty → ∃ outer, hops = outer ++ [.element] ∧ EmptyArraysAt sample outer) :
    SharesTraced sample hops schema := by
  induction h generalizing hops with
  | empty =>
      intro definitions name hdefinitions
      obtain ⟨outer, rfl, harrays⟩ := hempty rfl
      rw [Json.empty, share_leaf .empty]
      exact ⟨.empty harrays, hdefinitions⟩
  | null => exact sharesTraced_plain hops .null
  | scalar hscalar => exact sharesTraced_plain hops (.scalar hscalar)
  | nullable hscalar => exact sharesTraced_plain hops (.nullable hscalar)
  | @object observed properties required _ _ _ _ hnames _ hinner ih =>
      have hobjects (members : List (String × Json)) :
          observed (.obj members) ↔ foundAt sample hops (.obj members) :=
        hall _ rfl fun type htype => by
          obtain rfl : "object" = type := by simpa [ofObject, Json.get?, Table.get?] using htype
          exact .obj members
      have hproperties : ∀ entry ∈ properties,
          SharesTraced sample (hops ++ [.key entry.1]) entry.2 := by
        intro entry hmem
        refine ih entry hmem _ (observesAll_of_eq (fun value => ?_) _) fun heq => ?_
        · rw [foundAt_concat]
          exact exists_congr fun members => and_congr_left fun _ => hobjects members
        · -- a name among the properties occurs in some object
          obtain ⟨members, hmembers, hname⟩ := (hnames entry.1).mp (List.mem_map_of_mem hmem)
          obtain ⟨value, hvalue⟩ := Table.exists_get?_of_mem_names hname
          have hnone := hinner entry hmem
          rw [heq] at hnone
          exact absurd ⟨members, hmembers, hvalue⟩ (hnone.not_observed value)
      intro definitions name hdefinitions
      obtain ⟨hnodes, hmiddle⟩ := shareMembers_traced hproperties definitions hdefinitions
      rw [share_ofObject]
      obtain ⟨final, later, hregister, hlater⟩ := register_eq
        (shareMembers definitions properties).2 (shareMembers definitions properties).1
        (.arr (required.map .str)) name name
      simp only [hregister]
      refine ⟨.stands ⟨final, rfl⟩, ?_⟩
      rcases hlater with rfl | rfl
      · exact hmiddle
      · exact hmiddle.set (.object hnodes) final
  | @array observed schema hsome harrays hinner ih =>
      have hfound (items : List Json) : observed (.arr items) ↔ foundAt sample hops (.arr items) :=
        hall _ rfl fun type htype => by
          obtain rfl : "array" = type := by simpa [ofArray, Json.get?, Table.get?] using htype
          exact .arr items
      have hitems : SharesTraced sample (hops ++ [.element]) schema := by
        refine ih _ (observesAll_of_eq (fun value => ?_) _) fun heq => ⟨hops, rfl, ?_, ?_⟩
        · rw [foundAt_concat]
          exact exists_congr fun items => and_congr_left fun _ => hfound items
        · obtain ⟨value, hvalue⟩ := hsome
          obtain ⟨items, rfl⟩ := harrays value hvalue
          exact ⟨items, (hfound items).mp hvalue⟩
        · intro items hitems
          rw [heq] at hinner
          exact List.eq_nil_iff_forall_not_mem.mpr fun item hmem =>
            hinner.not_observed item ⟨items, (hfound items).mpr hitems, hmem⟩
      intro definitions name hdefinitions
      obtain ⟨hnode, hlater⟩ := hitems definitions name hdefinitions
      rw [share_ofArray]
      exact ⟨.array hnode, hlater⟩
  | @anyOf observed parts nullable hlength hparts htyped hnodup hjoined ih =>
      have hcontainers (value : Json) (hcontainer : value.isContainer = true) :
          joined (parts ++ nullParts nullable) value ↔ foundAt sample hops value := by
        rw [← hjoined]
        exact hall value hcontainer fun type htype => by
          simp [Schema.anyOf, Json.get?, Table.get?] at htype
      have halternatives : ∀ schema ∈ (parts ++ nullParts nullable).map Prod.snd,
          SharesTraced sample hops schema := by
        intro schema hmem
        obtain ⟨part, hpart, rfl⟩ := List.mem_map.mp hmem
        rcases List.mem_append.mp hpart with hpart | hnull
        · refine ih part hpart hops
            (observesAll_alternative hparts htyped hnodup hcontainers hpart) fun heq => ?_
          obtain ⟨type, htype, _⟩ := htyped part hpart
          rw [heq] at htype
          cases htype
        · exact nullType_sharesTraced hnull
      intro definitions name hdefinitions
      obtain ⟨hcount, hnodes, hlater⟩ := shareItems_traced halternatives definitions name hdefinitions
      rw [share_anyOf]
      exact ⟨.anyOf (by rw [hcount, List.length_map]; exact hlength) hnodes, hlater⟩

end RequestShapes.Schema
