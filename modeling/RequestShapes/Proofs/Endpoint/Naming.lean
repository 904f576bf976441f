import RequestShapes.Proofs.Endpoint.Resolving
import RequestShapes.Proofs.Generation
import RequestShapes.Proofs.Request.Reading
import RequestShapes.Proofs.Schema.FreshName
import RequestShapes.Proofs.Schema.Naming
import RequestShapes.Proofs.Schema.Sample

/-!
# Which names a module declares

Every component declares the names of its definitions and its own name, and keeps
clear of the names of the other components. Names are told apart as they are, but
a type and a constant are made of a name by casing its first letter. So two names
that differ in the case of that letter are declared as one.
-/

namespace RequestShapes.Endpoint

open Identifier (BeginsLarge IsAlphanumeric beginsLarge_iff beginsSmall pascalCase schemaConstant)
open Request (Document Response)
open Schema (anyOf bind_eq_ok closedObject definitionsOf draftWith nullType ofArray ok_bind refTo rootOf)

/-! ## Names of samples -/

section Samples

/-- The text of a status. -/
def statusText (response : Response) : String :=
  String.ofList (integerText response.status)

theorem toList_statusText (response : Response) :
    (statusText response).toList = Nat.toDigits 10 response.status := by
  simp [statusText, integerText]

theorem isDigit_of_mem_statusText {response : Response} {c : Char}
    (h : c ∈ (statusText response).toList) : c.isDigit = true := by
  rw [toList_statusText] at h
  exact Nat.isDigit_of_mem_toDigits (by decide) (Nat.le_refl 10) h

theorem isAlphanumeric_statusText (response : Response) : IsAlphanumeric (statusText response) :=
  fun _ hmem => by simp [Char.isAlphanum, isDigit_of_mem_statusText hmem]

theorem statusText_inj {first second : Response} (h : statusText first = statusText second) :
    first.status = second.status := by
  have hdigits := congrArg String.toList h
  rw [toList_statusText, toList_statusText] at hdigits
  rw [← Nat.ofDigitChars_ten_toDigits (n := first.status), hdigits, Nat.ofDigitChars_ten_toDigits]

theorem statusText_ne_append (first second : Response) :
    statusText first ≠ statusText second ++ "Header" := by
  intro heq
  have hmem : 'H' ∈ (statusText first).toList := by simp [heq]
  exact absurd (isDigit_of_mem_statusText hmem) (by decide)

/-- What begins with a status begins with a digit. -/
theorem exists_head_statusText (response : Response) (text : String) :
    ∃ c, (statusText response ++ text).toList.head? = some c ∧ c.isDigit = true := by
  rw [String.toList_append]
  cases hlist : (statusText response).toList with
  | nil =>
      rw [toList_statusText] at hlist
      exact absurd hlist Nat.toDigits_ne_nil
  | cons c rest =>
      exact ⟨c, rfl, isDigit_of_mem_statusText (by rw [hlist]; exact List.mem_cons_self)⟩

/-- The endings of the names of a response. -/
def responseEndings (response : Response) : List String :=
  [statusText response, statusText response ++ "Header"]

theorem exists_digit_of_mem_responseEndings {response : Response} {ending : String}
    (h : ending ∈ responseEndings response) :
    ∃ c, ending.toList.head? = some c ∧ c.isDigit = true := by
  rcases List.mem_pair.mp h with rfl | rfl
  · simpa using exists_head_statusText response ""
  · exact exists_head_statusText response "Header"

/-- Responses of different statuses have no ending in common. -/
theorem disjoint_responseEndings {first second : Response} (h : first.status ≠ second.status) :
    List.Disjoint (responseEndings first) (responseEndings second) := by
  intro ending hfirst hsecond
  rcases List.mem_pair.mp hfirst with rfl | rfl <;> rcases List.mem_pair.mp hsecond with heq | heq
  · exact h (statusText_inj heq)
  · exact statusText_ne_append first second heq
  · exact statusText_ne_append second first heq.symm
  · exact h (statusText_inj ((String.append_left_inj "Header").mp heq))

theorem map_fst_samples (document : Document) : (samples document).map Prod.fst =
    ["Body", "Header", "Query", "Params"] ++ document.responses.flatMap responseEndings := by
  simp only [samples, List.map_append, List.map_flatMap]
  rfl

theorem not_isLower_of_isDigit {c : Char} (h : c.isDigit = true) : c.isLower = false := by
  simp [Char.isDigit, Char.isLower] at h ⊢
  grind

/-- Endings are identifiers, and none begins with a small letter. -/
theorem ending_beginsLarge {document : Document} {ending : String}
    (h : ending ∈ (samples document).map Prod.fst) :
    IsAlphanumeric ending ∧ BeginsLarge ending := by
  rw [map_fst_samples] at h
  rcases List.mem_append.mp h with hfixed | hresponse
  · have hall : ∀ ending ∈ ["Body", "Header", "Query", "Params"],
        IsAlphanumeric ending ∧ BeginsLarge ending := by
      simp [IsAlphanumeric, BeginsLarge]
    exact hall ending hfixed
  · obtain ⟨response, _, hending⟩ := List.mem_flatMap.mp hresponse
    constructor
    · rcases List.mem_pair.mp hending with rfl | rfl
      · exact isAlphanumeric_statusText response
      · exact (isAlphanumeric_statusText response).append (by simp [IsAlphanumeric])
    · obtain ⟨c, hhead, hdigit⟩ := exists_digit_of_mem_responseEndings hending
      exact ⟨c, hhead, not_isLower_of_isDigit hdigit⟩

/-- The endings of a document with one response for each status are distinct. -/
theorem nodup_endings {document : Document}
    (hstatuses : (document.responses.map Response.status).Nodup) :
    ((samples document).map Prod.fst).Nodup := by
  rw [map_fst_samples]
  refine List.Nodup.append (by decide) (List.nodup_flatMap.mpr ⟨fun response _ => ?_, ?_⟩) ?_
  · exact List.nodup_cons.mpr
      ⟨fun hmem => statusText_ne_append _ _ (List.mem_singleton.mp hmem), List.nodup_singleton _⟩
  · exact (List.pairwise_map.mp hstatuses).imp disjoint_responseEndings
  · intro ending hfixed hresponse
    obtain ⟨response, _, hending⟩ := List.mem_flatMap.mp hresponse
    obtain ⟨c, hhead, hdigit⟩ := exists_digit_of_mem_responseEndings hending
    have hall : ∀ ending ∈ ["Body", "Header", "Query", "Params"],
        ∀ c, ending.toList.head? = some c → c.isDigit = false := by simp
    exact absurd hdigit (by simp [hall ending hfixed c hhead])

theorem namedSamples_sublist (base : String) (document : Document) :
    ((namedSamples base document).map Prod.fst).Sublist
      (((samples document).map Prod.fst).map fun ending => base ++ ending) := by
  rw [namedSamples]
  induction samples document with
  | nil => exact .slnil
  | cons entry rest ih =>
      by_cases hnull : entry.2 = .null
      · simp only [List.filterMap_cons, if_pos hnull]
        exact ih.cons _
      · simp only [List.filterMap_cons, if_neg hnull]
        exact ih.cons_cons _

theorem isAlphanumeric_baseName (settings : Settings) (document : Document) :
    IsAlphanumeric (baseName settings document) := by
  unfold baseName
  split
  · exact (Identifier.isAlphanumeric_pascalCase _).append (Identifier.isAlphanumeric_pascalCase _)
  · exact (Identifier.isAlphanumeric_pascalCase _).append (Identifier.isAlphanumeric_ofUrl _)

theorem pascalCase_append_ending {base ending : String} {document : Document}
    (hbase : IsAlphanumeric base) (h : ending ∈ (samples document).map Prod.fst) :
    pascalCase (base ++ ending) = pascalCase base ++ ending := by
  obtain ⟨halpha, hlarge⟩ := ending_beginsLarge h
  exact Identifier.pascalCase_append hbase halpha (beginsLarge_iff.mp hlarge).2

/-- The names of samples are identifiers, and their types begin with no small letter. -/
theorem namedSamples_beginsLarge {base : String} {document : Document}
    (hbase : IsAlphanumeric base) {entry : String × Json} (h : entry ∈ namedSamples base document) :
    IsAlphanumeric entry.1 ∧ BeginsLarge (pascalCase entry.1) := by
  have hmem := (namedSamples_sublist base document).subset (List.mem_map_of_mem h)
  obtain ⟨ending, hending, heq⟩ := List.mem_map.mp hmem
  obtain ⟨halpha, hlarge⟩ := ending_beginsLarge hending
  have hname : IsAlphanumeric entry.1 := heq ▸ hbase.append halpha
  refine ⟨hname, beginsLarge_iff.mpr ⟨?_, Identifier.beginsSmall_pascalCase hname⟩⟩
  rw [← heq, pascalCase_append_ending hbase hending]
  exact fun hnone => (beginsLarge_iff.mp hlarge).1 (String.append_eq_empty_iff.mp hnone).2

/-- The types of samples are distinct. -/
theorem nodup_namedSamples {base : String} {document : Document} (hbase : IsAlphanumeric base)
    (hstatuses : (document.responses.map Response.status).Nodup) :
    ((namedSamples base document).map fun entry => pascalCase entry.1).Nodup := by
  have hall : ((((samples document).map Prod.fst).map fun ending => base ++ ending).map
      pascalCase).Nodup := by
    rw [List.map_map]
    refine List.Nodup.map_on (fun first hfirst second hsecond heq => ?_) (nodup_endings hstatuses)
    simp only [Function.comp_apply, pascalCase_append_ending hbase hfirst,
      pascalCase_append_ending hbase hsecond] at heq
    exact (String.append_right_inj _).mp heq
  have hsublist := (namedSamples_sublist base document).map pascalCase
  rw [List.map_map] at hsublist
  exact hsublist.nodup hall

end Samples

/-! ## Names of one component -/

section Component

/-- The constant of a name. -/
def constantOf (name : String) : String := schemaConstant (pascalCase name)

/-- The names that a component declares: those of its definitions and its own. -/
def componentNames (name : String) (sample : Json) (reserved : List String) : List String :=
  if isBlankSample sample then [] else
    match sampleSchema (pascalCase name) sample reserved with
    | .ok schema => Table.names (definitionsOf schema) ++ [pascalCase name]
    | .error _ => []

/-- A segment declares the constant of a name. -/
def DeclaresName (name segment : String) : Prop :=
  ∃ expr, segment = Zod.constantDeclaration (constantOf name) expr

variable {name : String} {sample : Json} {reserved : List String}

theorem map_fst_declaredNodes {base : String} (schema : Json) (hbase : pascalCase base = base) :
    (declaredNodes base schema).map Prod.fst =
      (Table.names (definitionsOf schema) ++ [base]).map constantOf := by
  have hdefinition : ∀ entry ∈ definitionsOf schema,
      (Table.get? (Schema.constantsOf (definitionsOf schema)) entry.1).getD "" =
        constantOf entry.1 := fun entry hmem => by
    rw [get?_constantsOf (List.mem_map_of_mem hmem), Option.getD_some, constantOf]
  have hroot : schemaConstant base = constantOf base := by rw [constantOf, hbase]
  rw [declaredNodes, markedNodes, List.map_append, List.map_append, List.map_map, Table.names,
    List.map_map, hroot]
  exact congrArg (· ++ [constantOf base]) (List.map_congr_left hdefinition)

/-- What a component declares is made of its names. -/
theorem component_names {component : Component} (hname : IsAlphanumeric name)
    (h : Synthesizer.standard.component name sample reserved = .ok component) :
    List.Forall₂ DeclaresName (componentNames name sample reserved) component.segments ∧
      component.typeNames = (componentNames name sample reserved).map pascalCase ∧
      component.typeExports = (componentNames name sample reserved).map fun name =>
        typeExport (pascalCase name) (constantOf name) := by
  by_cases hblank : isBlankSample sample = true
  · rw [component_blank hblank] at h
    cases h
    rw [componentNames, if_pos hblank]
    exact ⟨.nil, rfl, rfl⟩
  · have hbase := Identifier.pascalCase_pascalCase hname
    obtain ⟨_, schema, hschema, hsegments, htypes, hexports⟩ :=
      (component_eq_ok (by simpa using hblank)).mp h
    have hnames : componentNames name sample reserved =
        Table.names (definitionsOf schema) ++ [pascalCase name] := by
      rw [componentNames, if_neg hblank, hschema]
    have htypes' : component.typeNames = (componentNames name sample reserved).map pascalCase := by
      rw [htypes, declaredTypes, hnames, List.map_append, List.map_singleton, hbase]
    refine ⟨?_, htypes', ?_⟩
    · have hconstants : List.Forall₂ (fun constant segment => ∃ expr,
          segment = Zod.constantDeclaration constant expr)
          ((declaredNodes (pascalCase name) schema).map Prod.fst) component.segments :=
        List.forall₂_map_left_iff.mpr (hsegments.imp fun _ _ ⟨expr, _, heq⟩ => ⟨expr, heq⟩)
      rw [map_fst_declaredNodes schema hbase, ← hnames] at hconstants
      have hdeclares := List.forall₂_map_left_iff.mp hconstants
      exact hdeclares
    · rw [hexports, htypes', map_fst_declaredNodes schema hbase, ← hnames, List.zipWith_map,
        List.zipWith_self]

/-- The schema of a sample adds new identifiers only. -/
theorem sampleSchema_adds {base : String} {schema : Json} (hbase : IsAlphanumeric base)
    (h : sampleSchema base sample reserved = .ok schema) :
    Schema.Adds IsAlphanumeric (base :: reserved) [] (definitionsOf schema) := by
  obtain ⟨draft, inlined, hdraft, hinlined, hlift⟩ := sampleSchema_eq_ok.mp h
  have hnames : Schema.AllNamed IsAlphanumeric (definitionsOf draft) := by
    obtain ⟨inferred, _, heq⟩ := bind_eq_ok hdraft
    cases heq
    exact Schema.draftOf_named Schema.nameInvariant_isAlphanumeric
      (Identifier.isAlphanumeric_pascalCase base) (by simp [IsAlphanumeric])
      fun key _ => Schema.isAlphanumeric_propertyShapeName key
  exact Schema.lift_adds Schema.nameInvariant_isAlphanumeric hbase
    (Schema.inlineRoot_named hinlined hnames) hlift

/-- The type of no key in a sample begins with a small letter. -/
def KeysBeginLarge (sample : Json) : Prop :=
  ∀ key, Schema.HasKey sample key → beginsSmall (pascalCase key) = false

/-- Nor does then a name that a component declares. -/
theorem componentNames_beginLarge (hdistinct : Schema.Distinct sample)
    (hkeys : KeysBeginLarge sample) (hname : BeginsLarge (pascalCase name))
    {declared : String} (hmem : declared ∈ componentNames name sample reserved) :
    BeginsLarge declared := by
  have hcased : pascalCase (pascalCase name) = pascalCase name :=
    (Identifier.pascalCase_eq_self_iff (Identifier.isAlphanumeric_pascalCase name)).mpr
      (beginsLarge_iff.mp hname).2
  unfold componentNames at hmem
  split at hmem
  next => cases hmem
  next =>
    split at hmem
    next schema hschema =>
      rcases List.mem_append.mp hmem with hmem | hself
      · obtain ⟨draft, inlined, hdraft, hinlined, hlift⟩ := sampleSchema_eq_ok.mp hschema
        have hnames := Schema.draft_named Schema.nameInvariant_beginsLarge hdraft hdistinct
          (hcased.symm ▸ hname) ⟨_, rfl, by decide⟩ fun key hkey =>
          Schema.beginsLarge_propertyShapeName (hkeys key hkey)
        obtain ⟨added, hadded, _, hnew⟩ := Schema.lift_adds Schema.nameInvariant_beginsLarge hname
          (Schema.inlineRoot_named hinlined hnames) hlift
        rw [hadded] at hmem
        exact (hnew declared hmem).2.2
      · rwa [List.mem_singleton.mp hself]
    next => cases hmem

/-- The names of a component are distinct identifiers, and but for its own one none
of them was taken. -/
theorem componentNames_fresh (name : String) (sample : Json) (taken : List String) :
    (componentNames name sample (taken.filter (· ≠ pascalCase name))).Nodup ∧
      ∀ declared ∈ componentNames name sample (taken.filter (· ≠ pascalCase name)),
        IsAlphanumeric declared ∧ (declared = pascalCase name ∨ declared ∉ taken) := by
  have halpha := Identifier.isAlphanumeric_pascalCase name
  unfold componentNames
  split
  next => simp
  next =>
    split
    next schema hschema =>
      obtain ⟨added, hadded, hnodup, hnew⟩ := sampleSchema_adds halpha hschema
      rw [hadded]
      refine ⟨?_, fun declared hmem => ?_⟩
      · refine hnodup.append (List.nodup_singleton _) fun declared hmem hself => ?_
        rw [List.mem_singleton.mp hself] at hmem
        exact (hnew _ hmem).2.1 List.mem_cons_self
      · rcases List.mem_append.mp hmem with hmem | hself
        · obtain ⟨_, hreserved, hholds⟩ := hnew declared hmem
          refine ⟨hholds, .inr fun htaken => hreserved ?_⟩
          by_cases heq : declared = pascalCase name
          · exact heq ▸ List.mem_cons_self
          · exact List.mem_cons_of_mem _ (List.mem_filter.mpr ⟨htaken, by simpa using heq⟩)
        · rw [List.mem_singleton.mp hself]
          exact ⟨halpha, .inl rfl⟩
    next => simp

end Component

/-! ## Names of all components -/

section Components

/-- The names that samples declare one after the other. -/
def declaredFrom (taken : List String) : List (String × Json) → List String
  | [] => []
  | (name, sample) :: rest =>
      let own := componentNames name sample (taken.filter (· ≠ pascalCase name))
      own ++ declaredFrom (taken ++ own.map pascalCase) rest

/-- The names that the module of a document declares, in order. -/
def declaredNames (settings : Settings) (document : Document) : List String :=
  let named := namedSamples (baseName settings document) document
  declaredFrom (named.map fun entry => pascalCase entry.1) named

/-- The first sample is declared beside what was taken, and the others beside
the names of its component too. -/
theorem declareFrom_cons_eq_ok {name : String} {sample : Json} {rest : List (String × Json)}
    {taken : List String} {components : List Component} (hname : IsAlphanumeric name)
    (h : declareFrom .standard taken ((name, sample) :: rest) = .ok components) :
    ∃ component others, components = component :: others ∧
      Synthesizer.standard.component name sample (taken.filter (· ≠ pascalCase name)) =
        .ok component ∧
      declareFrom .standard (taken ++
        (componentNames name sample (taken.filter (· ≠ pascalCase name))).map pascalCase) rest =
          .ok others := by
  rw [declareFrom] at h
  obtain ⟨component, hcomponent, h⟩ := bind_eq_ok h
  obtain ⟨others, hothers, heq⟩ := bind_eq_ok h
  cases heq
  obtain ⟨_, htypes, _⟩ := component_names hname hcomponent
  exact ⟨component, others, rfl, hcomponent, htypes ▸ hothers⟩

/-- What the components declare is made of the declared names. -/
theorem declareFrom_names {named : List (String × Json)} {taken : List String}
    {components : List Component} (hnamed : ∀ entry ∈ named, IsAlphanumeric entry.1)
    (h : declareFrom .standard taken named = .ok components) :
    List.Forall₂ DeclaresName (declaredFrom taken named) (components.flatMap Component.segments) ∧
      components.flatMap Component.typeExports = (declaredFrom taken named).map fun name =>
        typeExport (pascalCase name) (constantOf name) := by
  induction named generalizing taken components with
  | nil =>
      cases h
      exact ⟨.nil, rfl⟩
  | cons entry rest ih =>
      obtain ⟨name, sample⟩ := entry
      obtain ⟨hname, hrest⟩ := List.forall_mem_cons.mp hnamed
      obtain ⟨component, others, rfl, hcomponent, hothers⟩ := declareFrom_cons_eq_ok hname h
      obtain ⟨hsegments, _, hexports⟩ := component_names hname hcomponent
      obtain ⟨hsegments', hexports'⟩ := ih hrest hothers
      rw [declaredFrom, List.flatMap_cons, List.flatMap_cons, hexports, hexports', List.map_append]
      exact ⟨List.rel_append hsegments hsegments', rfl⟩

/-- Names are told apart by what was taken. That holds of all that begin with no
small letter, since those are taken as they are. -/
theorem declaredFrom_fresh {named : List (String × Json)} {taken : List String}
    (hnodup : (named.map fun entry => pascalCase entry.1).Nodup)
    (htaken : ∀ entry ∈ named, pascalCase entry.1 ∈ taken) :
    (∀ name ∈ declaredFrom taken named, IsAlphanumeric name ∧
      (name ∈ taken → name ∈ named.map fun entry => pascalCase entry.1)) ∧
    ((declaredFrom taken named).filter fun name => !beginsSmall name).Nodup := by
  induction named generalizing taken with
  | nil => simp [declaredFrom]
  | cons entry rest ih =>
      obtain ⟨name, sample⟩ := entry
      obtain ⟨hself, hrest⟩ := List.forall_mem_cons.mp htaken
      obtain ⟨hnew, hnodup⟩ := List.nodup_cons.mp hnodup
      obtain ⟨hown, hfresh⟩ := componentNames_fresh name sample taken
      rw [declaredFrom]
      generalize componentNames name sample (taken.filter (· ≠ pascalCase name)) = own at hown hfresh
      obtain ⟨hothers, hlater⟩ := @ih (taken ++ own.map pascalCase) hnodup fun entry hmem =>
        List.mem_append_left _ (hrest entry hmem)
      refine ⟨fun declared hmem => ?_, ?_⟩
      · rcases List.mem_append.mp hmem with hmem | hmem
        · obtain ⟨halpha, heq | hfree⟩ := hfresh declared hmem
          · exact ⟨halpha, fun _ => heq ▸ List.mem_cons_self⟩
          · exact ⟨halpha, fun htaken => absurd htaken hfree⟩
        · obtain ⟨halpha, hbase⟩ := hothers declared hmem
          exact ⟨halpha, fun htaken => List.mem_cons_of_mem _ (hbase (List.mem_append_left _ htaken))⟩
      · rw [List.filter_append]
        refine (hown.filter _).append hlater fun declared hmem hmem' => ?_
        obtain ⟨hmem, hlarge⟩ := List.mem_filter.mp hmem
        obtain ⟨halpha, hcases⟩ := hfresh declared hmem
        -- A name that begins with no small letter is its own type, so it is taken from now on.
        have hcased : pascalCase declared = declared :=
          (Identifier.pascalCase_eq_self_iff halpha).mpr (by simpa using hlarge)
        have hbase := (hothers declared (List.mem_filter.mp hmem').1).2
          (List.mem_append_right _ (hcased ▸ List.mem_map_of_mem hmem))
        rcases hcases with heq | hfree
        · rw [heq] at hbase
          exact hnew hbase
        · obtain ⟨other, hother, heq⟩ := List.mem_map.mp hbase
          exact hfree (heq ▸ hrest other hother)

/-- No name begins with a small letter if no type of a key does. -/
theorem declaredFrom_beginLarge {named : List (String × Json)} {taken : List String}
    (hnamed : ∀ entry ∈ named, BeginsLarge (pascalCase entry.1))
    (hkeys : ∀ entry ∈ named, Schema.Distinct entry.2 ∧ KeysBeginLarge entry.2) :
    ∀ name ∈ declaredFrom taken named, BeginsLarge name := by
  induction named generalizing taken with
  | nil => exact fun _ hmem => (nomatch hmem)
  | cons entry rest ih =>
      obtain ⟨name, sample⟩ := entry
      obtain ⟨hname, hothers⟩ := List.forall_mem_cons.mp hnamed
      obtain ⟨⟨hdistinct, hlarge⟩, hrest⟩ := List.forall_mem_cons.mp hkeys
      rw [declaredFrom]
      exact List.forall_mem_append.mpr
        ⟨fun _ => componentNames_beginLarge hdistinct hlarge hname, ih hothers hrest⟩

/-- A name that begins with a small letter shares its type with no other name. -/
def KeepsApart (names : List String) : Prop :=
  names.Pairwise fun first second =>
    beginsSmall first = true ∨ beginsSmall second = true → pascalCase first ≠ pascalCase second

/-- Identifiers have distinct types if those that begin with no small letter are
distinct and the others keep apart. -/
theorem nodup_types_iff {names : List String} (halpha : ∀ name ∈ names, IsAlphanumeric name)
    (hlarge : (names.filter fun name => !beginsSmall name).Nodup) :
    (names.map pascalCase).Nodup ↔ KeepsApart names := by
  rw [KeepsApart, List.Nodup, List.pairwise_map]
  refine ⟨List.Pairwise.imp ?_, fun h => ?_⟩
  · exact fun hne _ => hne
  · have hboth := h.and (List.pairwise_filter.mp hlarge)
    refine hboth.imp_of_mem fun {first second} hfirst hsecond ⟨hsmall, hdistinct⟩ heq => ?_
    by_cases hcase : beginsSmall first = true ∨ beginsSmall second = true
    · exact hsmall hcase heq
    · simp only [not_or, Bool.not_eq_true] at hcase
      obtain ⟨hfirst', hsecond'⟩ := hcase
      rw [(Identifier.pascalCase_eq_self_iff (halpha first hfirst)).mpr hfirst',
        (Identifier.pascalCase_eq_self_iff (halpha second hsecond)).mpr hsecond'] at heq
      exact hdistinct (by simp [hfirst']) (by simp [hsecond']) heq

/-- Identifiers have distinct constants exactly if they have distinct types. -/
theorem nodup_constants_iff {names : List String} (halpha : ∀ name ∈ names, IsAlphanumeric name) :
    (names.map constantOf).Nodup ↔ (names.map pascalCase).Nodup := by
  rw [List.nodup_iff_pairwise_ne, List.nodup_iff_pairwise_ne, List.pairwise_map, List.pairwise_map]
  refine List.Pairwise.iff_of_mem fun {first second} hfirst hsecond => not_congr ?_
  exact (Identifier.pascalCase_eq_iff_schemaConstant_eq (halpha first hfirst)
    (halpha second hsecond)).symm

/-- The names that a document declares are identifiers, and those that begin with no
small letter are distinct. -/
theorem declaredNames_fresh (settings : Settings) {document : Document}
    (hstatuses : (document.responses.map Response.status).Nodup) :
    (∀ name ∈ declaredNames settings document, IsAlphanumeric name) ∧
      ((declaredNames settings document).filter fun name => !beginsSmall name).Nodup := by
  have hnodup := nodup_namedSamples (isAlphanumeric_baseName settings document) hstatuses
  obtain ⟨hnames, hlarge⟩ := declaredFrom_fresh hnodup fun entry hmem =>
    List.mem_map.mpr ⟨entry, hmem, rfl⟩
  exact ⟨fun name hmem => (hnames name hmem).1, hlarge⟩

/-- All names keep apart if no type of a key begins with a small letter. -/
theorem keepsApart_of_keys {settings : Settings} {document : Document}
    (hkeys : ∀ entry ∈ namedSamples (baseName settings document) document,
      Schema.Distinct entry.2 ∧ KeysBeginLarge entry.2) :
    KeepsApart (declaredNames settings document) := by
  have hlarge : ∀ name ∈ declaredNames settings document, BeginsLarge name :=
    declaredFrom_beginLarge (fun entry hmem =>
      (namedSamples_beginsLarge (isAlphanumeric_baseName settings document) hmem).2) hkeys
  refine List.pairwise_of_forall_mem_list fun first hfirst second hsecond hsmall => ?_
  simp [(beginsLarge_iff.mp (hlarge first hfirst)).2,
    (beginsLarge_iff.mp (hlarge second hsecond)).2] at hsmall

/-- What a module declares is made of the declared names. -/
theorem build_names {settings : Settings} {document : Document} {module : Module}
    (h : Module.build settings document = .ok (some module)) :
    List.Forall₂ DeclaresName (declaredNames settings document) module.segments ∧
      module.typeExports = (declaredNames settings document).map fun name =>
        typeExport (pascalCase name) (constantOf name) := by
  obtain ⟨all, hall, _, rfl⟩ := build_eq_some.mp h
  exact declareFrom_names (fun entry hmem =>
    (namedSamples_beginsLarge (isAlphanumeric_baseName settings document) hmem).1) hall

/-- Samples that can be written have components. -/
theorem exists_declareFrom {named : List (String × Json)} {taken : List String}
    (hsamples : ∀ entry ∈ named, Schema.Distinct entry.2 ∧ entry.2.writable = true) :
    ∃ components, declareFrom .standard taken named = .ok components := by
  induction named generalizing taken with
  | nil => exact ⟨[], rfl⟩
  | cons entry rest ih =>
      obtain ⟨name, sample⟩ := entry
      obtain ⟨⟨hdistinct, hwritable⟩, hrest⟩ := List.forall_mem_cons.mp hsamples
      obtain ⟨component, hcomponent⟩ :=
        exists_component name (taken.filter (· ≠ pascalCase name)) hdistinct hwritable
      obtain ⟨others, hothers⟩ := @ih (taken ++ component.typeNames) hrest
      exact ⟨component :: others, by rw [declareFrom, hcomponent, ok_bind, hothers, ok_bind]⟩

/-- A document that declares a name has a module if its samples can be written. -/
theorem exists_build {settings : Settings} {document : Document}
    (hsamples : ∀ entry ∈ namedSamples (baseName settings document) document,
      Schema.Distinct entry.2 ∧ entry.2.writable = true)
    (hnames : declaredNames settings document ≠ []) :
    ∃ module, Module.build settings document = .ok (some module) := by
  obtain ⟨all, hall⟩ := exists_declareFrom hsamples
  refine ⟨_, build_eq_some.mpr ⟨all, hall, fun hsegments => hnames ?_, rfl⟩⟩
  have hdeclares := (declareFrom_names (fun entry hmem =>
    (namedSamples_beginsLarge (isAlphanumeric_baseName settings document) hmem).1) hall).1
  rw [hsegments] at hdeclares
  exact List.forall₂_nil_right_iff.mp hdeclares

end Components

/-- The module of a document that was read declares one constant and one type for
every name. It declares no constant twice, and no type, exactly if each name that
begins with a small letter keeps apart from the others. All do if no type of a key in
a sample begins with a small letter. -/
theorem build_declares_once_iff {settings : Settings} {path : Files.Path} {text : List Char}
    {document : Document} {module : Module} (hread : Document.read path text = .ok document)
    (hbuild : Module.build settings document = .ok (some module)) :
    List.Forall₂ DeclaresName (declaredNames settings document) module.segments ∧
      module.typeExports = (declaredNames settings document).map (fun name =>
        typeExport (pascalCase name) (constantOf name)) ∧
      ((declaredNames settings document).filter fun name => !beginsSmall name).Nodup ∧
      (((declaredNames settings document).map constantOf).Nodup ↔
        KeepsApart (declaredNames settings document)) ∧
      (((declaredNames settings document).map pascalCase).Nodup ↔
        KeepsApart (declaredNames settings document)) ∧
      ((∀ entry ∈ namedSamples (baseName settings document) document,
        Schema.Distinct entry.2 ∧ KeysBeginLarge entry.2) →
        KeepsApart (declaredNames settings document)) := by
  obtain ⟨hsegments, hexports⟩ := build_names hbuild
  obtain ⟨halpha, hlarge⟩ := declaredNames_fresh settings (Document.nodup_statuses hread)
  have htypes := nodup_types_iff halpha hlarge
  exact ⟨hsegments, hexports, hlarge, (nodup_constants_iff halpha).trans htypes, htypes,
    keepsApart_of_keys⟩

section Examples

open Generation (baseName_userDocument namedSamples_userDocument pascalCase_getUsersBody userDocument)

/-- The text of a request for users with a body. -/
def userText (body : String) : List Char :=
  ("get \x7b\n  url: /users\n\x7d\n\nbody:json \x7b\n  " ++ body ++ "\n\x7d\n").toList

theorem declaredNames_userDocument (path : String) {body schema : Json}
    (hbody : isBlankSample body = false)
    (hschema : sampleSchema "GetUsersBody" body [] = .ok schema) :
    declaredNames {} (userDocument path body) =
      Table.names (definitionsOf schema) ++ ["GetUsersBody"] := by
  rw [declaredNames, baseName_userDocument, namedSamples_userDocument hbody]
  simp [declaredFrom, componentNames, pascalCase_getUsersBody, hbody, hschema]

theorem exists_build_userDocument {body : Json} {path name : String} {names : List String}
    (hdistinct : Schema.Distinct body) (hwritable : body.writable = true)
    (hbody : isBlankSample body = false)
    (hnames : declaredNames {} (userDocument path body) = names ++ [name]) :
    ∃ module, Module.build {} (userDocument path body) = .ok (some module) := by
  refine exists_build (fun entry hmem => ?_) (by simp [hnames])
  rw [baseName_userDocument, namedSamples_userDocument hbody] at hmem
  obtain rfl := List.mem_singleton.mp hmem
  exact ⟨hdistinct, hwritable⟩

/-- A user, whose shape is declared along with the body. -/
def userSample : Json := .obj [("user", .obj [("id", .int 1)])]

def userDraft : Json :=
  draftWith (closedObject [("user", refTo "User")] (.arr [.str "user"]) "GetUsersBody")
    [("User", Schema.counted "id" "User")]

def userLifted : Json :=
  draftWith (closedObject [("user", refTo "GetUsersBodyUser")] (.arr [.str "user"]) "GetUsersBody")
    [("GetUsersBodyUser", Schema.counted "id" "User")]

theorem sampleSchema_userSample : sampleSchema "GetUsersBody" userSample [] = .ok userLifted := by
  have hobjects : ∀ name node, Table.get? (definitionsOf userDraft) name = some node →
      node.isObject = true := fun name node hget => by
    cases List.mem_singleton.mp (Table.mem_of_get? hget)
    rfl
  have huser : Schema.Lifts .property (.initial ["GetUsersBody"] (definitionsOf userDraft)) []
      (refTo "User") ("GetUsersBody" ++ pascalCase "user") (refTo "GetUsersBodyUser")
      (definitionsOf userLifted) :=
    .property_copied rfl rfl rfl rfl rfl rfl rfl Schema.lifts_counted rfl
  have hroot : Schema.Lifts .body (.initial ["GetUsersBody"] (definitionsOf userDraft)) []
      (rootOf userDraft) "GetUsersBody" (rootOf userLifted) (definitionsOf userLifted) :=
    .within rfl (.cons huser .nil)
  have hadopt : Schema.adopt (.initial ["GetUsersBody"] (definitionsOf userDraft))
      0 (rootOf userLifted) (definitionsOf userLifted) =
      .ok (rootOf userLifted, definitionsOf userLifted) := rfl
  have hlift : Schema.lift userDraft "GetUsersBody" [] = .ok userLifted :=
    Schema.lift_eq rfl rfl hobjects hroot hadopt (Nat.zero_le _) rfl
  have hinlined : Schema.draft "GetUsersBody" [userSample] >>= Schema.inlineRoot =
      .ok userDraft := by decide +kernel
  obtain ⟨draft, hdraft, hinline⟩ := bind_eq_ok hinlined
  exact sampleSchema_eq_ok.mpr ⟨draft, userDraft, hdraft, hinline, hlift⟩

theorem userSample_keysBeginLarge : KeysBeginLarge userSample := by
  intro key hkey
  cases hkey with
  | own hmem =>
      rw [List.mem_singleton.mp hmem]
      exact Identifier.beginsSmall_pascalCase (by simp [IsAlphanumeric])
  | inner hmem hkey =>
      rw [List.mem_singleton.mp hmem] at hkey
      cases hkey with
      | own hmem =>
          rw [List.mem_singleton.mp hmem]
          exact Identifier.beginsSmall_pascalCase (by simp [IsAlphanumeric])
      | inner hmem hkey =>
          rw [List.mem_singleton.mp hmem] at hkey
          cases hkey

theorem userSample_declared_once : ∃ text module,
    Document.read (Files.Path.ofString "Users.bru") text = .ok (userDocument "Users.bru" userSample) ∧
      Module.build {} (userDocument "Users.bru" userSample) = .ok (some module) ∧
      List.Forall₂ DeclaresName ["GetUsersBodyUser", "GetUsersBody"] module.segments ∧
      (["GetUsersBodyUser", "GetUsersBody"].map constantOf).Nodup ∧
      (["GetUsersBodyUser", "GetUsersBody"].map pascalCase).Nodup := by
  have hread : Document.read (Files.Path.ofString "Users.bru")
      (userText "\x7b\"user\": \x7b\"id\": 1\x7d\x7d") = .ok (userDocument "Users.bru" userSample) := by
    decide +kernel
  have hwritable : userSample.writable = true := by
    simp [userSample, Json.writable, Json.membersWritable, integerFits_one]
  have hnames := declaredNames_userDocument "Users.bru" rfl sampleSchema_userSample
  obtain ⟨module, hbuild⟩ := exists_build_userDocument (by decide) hwritable rfl hnames
  obtain ⟨hsegments, _, _, hconstants, htypes, hapart⟩ := build_declares_once_iff hread hbuild
  rw [baseName_userDocument, namedSamples_userDocument rfl] at hapart
  have hkeys := hapart (List.forall_mem_singleton.mpr ⟨by decide, userSample_keysBeginLarge⟩)
  have hlist : declaredNames {} (userDocument "Users.bru" userSample) =
      ["GetUsersBodyUser", "GetUsersBody"] := hnames
  rw [hlist] at hsegments hconstants htypes hkeys
  exact ⟨_, module, hread, hbuild, hsegments, hconstants.mpr hkeys, htypes.mpr hkeys⟩

/-- Two lists whose keys differ in an underscore only, so that their shapes differ in
the case of a letter only. -/
def pairSample : Json :=
  .obj [("_a", .arr [.obj [("x", .int 1)], .null]), ("a", .arr [.obj [("y", .int 1)], .null])]

def pairDraft : Json :=
  draftWith (closedObject [("_a", ofArray (anyOf [refTo "a", nullType])),
    ("a", ofArray (anyOf [refTo "A", nullType]))] (.arr [.str "_a", .str "a"]) "GetUsersBody")
    [("a", Schema.counted "x" "a"), ("A", Schema.counted "y" "A")]

/-- Both shapes are taken over under their own names. -/
def pairLifted : Json :=
  draftWith (closedObject [("_a", refTo "GetUsersBodya"), ("a", refTo "GetUsersBodyA")]
    (.arr [.str "_a", .str "a"]) "GetUsersBody")
    [("GetUsersBodyaItem", anyOf [refTo "a", nullType]),
      ("GetUsersBodya", ofArray (refTo "GetUsersBodyaItem")),
      ("GetUsersBodyAItem", anyOf [refTo "A", nullType]),
      ("GetUsersBodyA", ofArray (refTo "GetUsersBodyAItem")),
      ("a", Schema.counted "x" "a"), ("A", Schema.counted "y" "A")]

theorem sampleSchema_pairSample : sampleSchema "GetUsersBody" pairSample [] = .ok pairLifted := by
  have hobjects : ∀ name node, Table.get? (definitionsOf pairDraft) name = some node →
      node.isObject = true := fun name node hget => by
    rcases List.mem_pair.mp (Table.mem_of_get? hget) with heq | heq <;> cases heq <;> rfl
  have hfirst : Schema.Lifts .item (.initial ["GetUsersBody"] (definitionsOf pairDraft)) []
      (anyOf [refTo "a", nullType]) ("GetUsersBody" ++ pascalCase "_a" ++ "Item")
      (refTo "GetUsersBodyaItem") ((definitionsOf pairLifted).take 1) :=
    .item_moved rfl rfl rfl rfl rfl (.plain nofun) rfl
  have hsecond : Schema.Lifts .item (.initial ["GetUsersBody"] (definitionsOf pairDraft))
      ((definitionsOf pairLifted).take 2) (anyOf [refTo "A", nullType])
      ("GetUsersBody" ++ pascalCase "a" ++ "Item") (refTo "GetUsersBodyAItem")
      ((definitionsOf pairLifted).take 3) :=
    .item_moved rfl rfl rfl rfl rfl (.plain nofun) rfl
  have hroot : Schema.Lifts .body (.initial ["GetUsersBody"] (definitionsOf pairDraft)) []
      (rootOf pairDraft) "GetUsersBody" (rootOf pairLifted) ((definitionsOf pairLifted).take 4) :=
    .within rfl (.cons (.property_array rfl hfirst rfl rfl)
      (.cons (.property_array rfl hsecond rfl rfl) .nil))
  have hmissing : Schema.missing? (definitionsOf pairDraft) (rootOf pairLifted)
      ((definitionsOf pairLifted).take 4) = some ("a", Schema.counted "x" "a") := rfl
  have hmissing' : Schema.missing? (definitionsOf pairDraft) (rootOf pairLifted)
      ((definitionsOf pairLifted).take 5) = some ("A", Schema.counted "y" "A") := rfl
  have hlast : Schema.adopt (.initial ["GetUsersBody"] (definitionsOf pairDraft)) 1
      (rootOf pairLifted) ((definitionsOf pairLifted).take 5) =
      .ok (rootOf pairLifted, definitionsOf pairLifted) :=
    @Schema.adopt_next _ 0 _ _ _ _ "A" _ _ _ hmissing' rfl rfl hobjects
      Schema.lifts_counted rfl
  have hadopt : Schema.adopt (.initial ["GetUsersBody"] (definitionsOf pairDraft))
      2 (rootOf pairLifted) ((definitionsOf pairLifted).take 4) =
      .ok (rootOf pairLifted, definitionsOf pairLifted) :=
    @Schema.adopt_next _ 1 _ _ _ _ "a" _ _ _ hmissing rfl rfl hobjects
      Schema.lifts_counted hlast
  have hlift : Schema.lift pairDraft "GetUsersBody" [] = .ok pairLifted :=
    Schema.lift_eq rfl rfl hobjects hroot hadopt
      (Nat.le_trans (by decide) (Schema.lt_adoptionBound pairDraft)) rfl
  have hinlined : Schema.draft "GetUsersBody" [pairSample] >>= Schema.inlineRoot =
      .ok pairDraft := by decide +kernel
  obtain ⟨draft, hdraft, hinline⟩ := bind_eq_ok hinlined
  exact sampleSchema_eq_ok.mpr ⟨draft, pairDraft, hdraft, hinline, hlift⟩

/-- The shapes `a` and `A` of two lists are both declared as `aSchema`. -/
theorem pairSample_declared_twice : ∃ text module names,
    Document.read (Files.Path.ofString "Users.bru") text = .ok (userDocument "Users.bru" pairSample) ∧
      Module.build {} (userDocument "Users.bru" pairSample) = .ok (some module) ∧
      List.Forall₂ DeclaresName names module.segments ∧
      module.typeExports = names.map (fun name =>
        typeExport (pascalCase name) (constantOf name)) ∧
      ¬ (names.map constantOf).Nodup ∧ ¬ (names.map pascalCase).Nodup := by
  have hread : Document.read (Files.Path.ofString "Users.bru") (userText
      "\x7b\"_a\": [\x7b\"x\": 1\x7d, null], \"a\": [\x7b\"y\": 1\x7d, null]\x7d") =
      .ok (userDocument "Users.bru" pairSample) := by
    decide +kernel
  have hwritable : pairSample.writable = true := by
    simp [pairSample, Json.writable, Json.membersWritable, Json.itemsWritable, integerFits_one]
  have hnames := declaredNames_userDocument "Users.bru" rfl sampleSchema_pairSample
  obtain ⟨module, hbuild⟩ := exists_build_userDocument (by decide) hwritable rfl hnames
  obtain ⟨hsegments, hexports⟩ := build_names hbuild
  refine ⟨_, module, _, hread, hbuild, hsegments, hexports, ?_, ?_⟩ <;> rw [hnames] <;> decide +kernel

end Examples

end RequestShapes.Endpoint
