import RequestShapes.Proofs.Endpoint.Building
import RequestShapes.Proofs.Schema.Capture

/-!
# Which names are legal identifiers

A name that is made of the way to a shape begins with the method of the request,
and so with a letter. Only a definition of the draft that is taken over brings a
name of its own, which is made of a key. If the key has a digit first, so have the
constant and the type.
-/

namespace RequestShapes.Schema

open Identifier (beginsLetter pascalCase)

/-! ## Names of definitions that are taken over -/

section Adopting

variable {Holds : String → Prop} (hinvariant : NameInvariant Holds)
  {scope : Scope} {root root' : Json} {definitions later : Table Json}

theorem nameInvariant_true : NameInvariant fun _ => True :=
  ⟨fun _ _ _ => trivial, fun _ _ => trivial, fun _ _ _ => trivial⟩

include hinvariant

/-- After a definition is taken over all names have a property exactly if they had
it before and the name of the draft has it. -/
theorem adoptOne_names_iff (hnumber : ∀ name attempt, Holds (numbered name attempt) → Holds name)
    {target : String} {node : Json}
    (h : adoptOne scope root definitions target node = .ok (root', later)) :
    AllNamed Holds later ↔ AllNamed Holds definitions ∧ Holds target := by
  constructor
  · intro hlater
    refine ⟨fun name hmem => hlater name ?_, ?_⟩
    · obtain ⟨added, hadded, -⟩ := adoptOne_adds nameInvariant_true trivial h
      rw [hadded]
      exact List.mem_append_left _ hmem
    · -- The name it got is the one of the draft, perhaps numbered.
      obtain ⟨name, lifted, middle, hname, -, -, rfl⟩ := adoptOne_eq_ok h
      have hholds : Holds name := hlater name (Table.mem_names_set.mpr (.inl rfl))
      obtain ⟨attempt, -, heq⟩ :=
        freshName_eq_numbered (Table.names definitions ++ scope.reserved) target
      rw [← hname, Scope.freshFor, heq] at hholds
      exact hnumber target attempt hholds
  · rintro ⟨hdefinitions, htarget⟩ name hmem
    obtain ⟨added, hadded, -, hnew⟩ := adoptOne_adds hinvariant htarget h
    rw [hadded] at hmem
    obtain hold | hnamed := List.mem_append.mp hmem
    · exact hdefinitions name hold
    · exact (hnew name hnamed).2.2

theorem adopt_names_iff (hnumber : ∀ name attempt, Holds (numbered name attempt) → Holds name)
    {fuel : Nat} (h : adopt scope fuel root definitions = .ok (root', later)) :
    AllNamed Holds later ↔ AllNamed Holds definitions ∧
      ∀ entry ∈ adoptions scope fuel root definitions, Holds entry.1 := by
  refine (adopt_invariant (fun taken _ later => AllNamed Holds later ↔
    AllNamed Holds definitions ∧ ∀ entry ∈ taken, Holds entry.1) ?_ (by simp) h).1
  intro taken _ middle target node _ _ hiff _ hone
  rw [adoptOne_names_iff hinvariant hnumber hone, hiff, List.forall_mem_append,
    List.forall_mem_singleton, and_assoc]

/-- All definitions of a lifted schema have a property of names exactly if those
that were taken over have it in the draft. -/
theorem lift_names_iff (hnumber : ∀ name attempt, Holds (numbered name attempt) → Holds name)
    {draft result : Json} {rootName : String} {reserved : List String} (hroot : Holds rootName)
    (h : lift draft rootName reserved = .ok result) :
    AllNamed Holds (definitionsOf result) ↔
      ∀ entry ∈ takenOver draft rootName reserved, Holds entry.1 := by
  obtain ⟨root, definitions, hlift, hadopt⟩ := lift_phases h
  -- Before anything is taken over, every name is made of a way that begins at the root.
  have hways : AllNamed Holds definitions := by
    obtain ⟨added, hadded, -, hnew⟩ := liftRoot_adds hinvariant hlift hroot
    intro name hmem
    rw [hadded] at hmem
    exact (hnew name hmem).2.2
  rw [adopt_names_iff hinvariant hnumber hadopt, takenOver, hlift]
  exact and_iff_right hways

end Adopting

/-! ## Names that begin with a letter -/

/-- Every way hands on that a name begins with a letter. -/
theorem nameInvariant_beginsLetter : NameInvariant (beginsLetter · = true) where
  member _ _ h := Identifier.beginsLetter_append h
  item _ h := Identifier.beginsLetter_append h
  number name attempt h := by
    unfold numbered
    split
    · exact h
    · exact Identifier.beginsLetter_append h

/-- A number does not make a name begin with a letter. -/
theorem beginsLetter_of_numbered {name : String} {attempt : Nat}
    (h : beginsLetter (numbered name attempt) = true) : beginsLetter name = true := by
  unfold numbered at h
  split at h
  next => exact h
  next =>
    unfold beginsLetter at h ⊢
    rw [String.toList_append] at h
    cases hlist : name.toList with
    | cons first rest => simpa [hlist] using h
    | nil =>
        -- Then the numbered name is the number, which begins with a digit.
        have hdigit := Identifier.beginsLetter_toString attempt
        rw [beginsLetter] at hdigit
        rw [hlist, List.nil_append, hdigit] at h
        cases h

/-- The type of no key in a sample begins with a digit. -/
def KeysBeginLetter (sample : Json) : Prop :=
  ∀ key, HasKey sample key → pascalCase key = "" ∨ beginsLetter (pascalCase key) = true

theorem beginsLetter_propertyShapeName {property : String}
    (h : pascalCase property = "" ∨ beginsLetter (pascalCase property) = true) :
    beginsLetter (propertyShapeName property) = true := by
  unfold propertyShapeName
  dsimp only
  split
  next => decide
  next hempty => exact h.resolve_left (by simpa using hempty)

theorem mem_pending_of_adoptions {scope : Scope} {fuel : Nat} {root : Json}
    {definitions : Table Json} {entry : String × String}
    (h : entry ∈ adoptions scope fuel root definitions) :
    entry.1 ∈ Table.names scope.pending := by
  induction fuel generalizing root definitions with
  | zero => cases h
  | succ fuel ih =>
      rw [adoptions] at h
      split at h
      next => cases h
      next target node hmissing =>
        obtain rfl | hlater := List.mem_cons.mp h
        · exact Table.mem_names_of_get? (missing?_eq_some hmissing).2.2
        · split at hlater
          · exact ih hlater
          · cases hlater

/-- What is taken over stands in the draft. -/
theorem mem_names_of_takenOver {draft : Json} {rootName : String} {reserved : List String}
    {entry : String × String} (h : entry ∈ takenOver draft rootName reserved) :
    entry.1 ∈ Table.names (definitionsOf draft) := by
  unfold takenOver at h
  dsimp only at h
  split at h
  · exact mem_pending_of_adoptions h
  · cases h

end RequestShapes.Schema

namespace RequestShapes.Endpoint

open Identifier (IsAlphanumeric IsLegal beginsLetter pascalCase)
open Request (Document)
open Schema (Distinct KeysBeginLetter takenOver)

/-! ## Names of one component -/

section Component

variable {name : String} {sample : Json} {reserved : List String}

/-- The draft of a sample, as it is lifted. -/
def inlinedDraft (base : String) (sample : Json) : Except Schema.Fault Json := do
  Schema.inlineRoot (← Schema.draft base [sample])

/-- The names that definitions of its draft have which a component takes over. -/
def adoptedNames (name : String) (sample : Json) (reserved : List String) : List String :=
  if isBlankSample sample then [] else
    match inlinedDraft (pascalCase name) sample with
    | .ok draft => (takenOver draft (pascalCase name) reserved).map Prod.fst
    | .error _ => []

/-- The names of a component begin with a letter exactly if those do that it takes
over. -/
theorem componentNames_beginLetter_iff (hdistinct : Distinct sample)
    (hname : beginsLetter (pascalCase name) = true) :
    (∀ declared ∈ componentNames name sample reserved, beginsLetter declared = true) ↔
      ∀ adopted ∈ adoptedNames name sample reserved, beginsLetter adopted = true := by
  unfold componentNames adoptedNames
  split
  next => simp
  next =>
    obtain ⟨schema, hschema, -⟩ := sampleSchema_resolved (pascalCase name) reserved hdistinct
    obtain ⟨draft, inlined, hdraft, hinlined, hlift⟩ := sampleSchema_eq_ok.mp hschema
    have hwhole : inlinedDraft (pascalCase name) sample = .ok inlined := by
      rw [inlinedDraft, hdraft, Schema.ok_bind, hinlined]
    -- Besides the definitions there is the name of the component, which begins with a letter.
    have hlifted := Schema.lift_names_iff Schema.nameInvariant_beginsLetter
      (fun _ _ => Schema.beginsLetter_of_numbered) hname hlift
    simp only [hschema, hwhole, List.forall_mem_append, List.forall_mem_singleton,
      List.forall_mem_map]
    rw [← hlifted]
    exact and_iff_left hname

/-- What a component takes over begins with a letter if no type of a key begins with
a digit. -/
theorem adoptedNames_beginLetter (hdistinct : Distinct sample) (hkeys : KeysBeginLetter sample)
    (hname : beginsLetter (pascalCase name) = true) :
    ∀ adopted ∈ adoptedNames name sample reserved, beginsLetter adopted = true := by
  intro adopted hmem
  unfold adoptedNames at hmem
  split at hmem
  next => cases hmem
  next =>
    split at hmem
    next inlined hwhole =>
      obtain ⟨draft, hdraft, hinlined⟩ := Schema.bind_eq_ok hwhole
      obtain ⟨entry, hentry, rfl⟩ := List.mem_map.mp hmem
      have hcased : beginsLetter (pascalCase (pascalCase name)) = true := by
        rwa [Identifier.beginsLetter_pascalCase (Identifier.isAlphanumeric_pascalCase name)]
      have hnames := Schema.draft_named Schema.nameInvariant_beginsLetter hdraft hdistinct hcased
        (by decide) fun key hkey => Schema.beginsLetter_propertyShapeName (hkeys key hkey)
      exact Schema.inlineRoot_named hinlined hnames entry.1 (Schema.mem_names_of_takenOver hentry)
    next => cases hmem

end Component

/-! ## Names of all components -/

section Components

/-- The names of drafts that samples take over one after the other. -/
def adoptedFrom (taken : List String) : List (String × Json) → List String
  | [] => []
  | (name, sample) :: rest =>
      let reserved := taken.filter (· ≠ pascalCase name)
      adoptedNames name sample reserved ++
        adoptedFrom (taken ++ (componentNames name sample reserved).map pascalCase) rest

/-- The names of drafts that the module of a document takes over. -/
def documentAdoptions (settings : Settings) (document : Document) : List String :=
  let named := namedSamples (baseName settings document) document
  adoptedFrom (named.map fun entry => pascalCase entry.1) named

theorem declaredFrom_beginLetter_iff {named : List (String × Json)} {taken : List String}
    (hdistinct : ∀ entry ∈ named, Distinct entry.2)
    (hnamed : ∀ entry ∈ named, beginsLetter (pascalCase entry.1) = true) :
    (∀ name ∈ declaredFrom taken named, beginsLetter name = true) ↔
      ∀ name ∈ adoptedFrom taken named, beginsLetter name = true := by
  induction named generalizing taken with
  | nil => exact Iff.rfl
  | cons entry rest ih =>
      obtain ⟨name, sample⟩ := entry
      obtain ⟨hsample, hrest⟩ := List.forall_mem_cons.mp hdistinct
      obtain ⟨hname, hothers⟩ := List.forall_mem_cons.mp hnamed
      rw [declaredFrom, adoptedFrom, List.forall_mem_append, List.forall_mem_append,
        componentNames_beginLetter_iff hsample hname, ih hrest hothers]

theorem adoptedFrom_beginLetter {named : List (String × Json)} {taken : List String}
    (hdistinct : ∀ entry ∈ named, Distinct entry.2)
    (hkeys : ∀ entry ∈ named, KeysBeginLetter entry.2)
    (hnamed : ∀ entry ∈ named, beginsLetter (pascalCase entry.1) = true) :
    ∀ name ∈ adoptedFrom taken named, beginsLetter name = true := by
  induction named generalizing taken with
  | nil => exact fun _ hmem => (nomatch hmem)
  | cons entry rest ih =>
      obtain ⟨name, sample⟩ := entry
      obtain ⟨hsample, hrest⟩ := List.forall_mem_cons.mp hdistinct
      obtain ⟨hletters, hkeys⟩ := List.forall_mem_cons.mp hkeys
      obtain ⟨hname, hothers⟩ := List.forall_mem_cons.mp hnamed
      rw [adoptedFrom]
      exact List.forall_mem_append.mpr
        ⟨adoptedNames_beginLetter hsample hletters hname, ih hrest hkeys hothers⟩

end Components

/-! ## Names of a document that was read -/

section Documents

variable {settings : Settings} {path : Files.Path} {text : List Char} {document : Document}

/-- Everything of an endpoint is named after its method first. -/
theorem baseName_beginsLetter (hread : Document.read path text = .ok document) :
    beginsLetter (baseName settings document) = true := by
  have hmethods : ∀ method ∈ "unknown" :: Request.methods,
      beginsLetter (pascalCase method) = true := by
    decide
  exact Identifier.beginsLetter_append (hmethods _ (Document.method_mem hread))

theorem namedSamples_beginLetter (hread : Document.read path text = .ok document) :
    ∀ entry ∈ namedSamples (baseName settings document) document,
      beginsLetter (pascalCase entry.1) = true := by
  intro entry hentry
  have hmem := (namedSamples_sublist (baseName settings document) document).subset
    (List.mem_map_of_mem hentry)
  obtain ⟨ending, -, heq⟩ := List.mem_map.mp hmem
  have hname := (namedSamples_beginsLarge (isAlphanumeric_baseName settings document) hentry).1
  rw [Identifier.beginsLetter_pascalCase hname, ← heq]
  exact Identifier.beginsLetter_append (baseName_beginsLetter hread)

theorem distinct_namedSamples (hread : Document.read path text = .ok document) :
    ∀ entry ∈ namedSamples (baseName settings document) document, Distinct entry.2 :=
  (forall_namedSamples_iff Distinct (.scalar rfl)).mpr (distinct_samples hread)

/-- The module of a document that was read declares one constant and one type for
every name. All of them are legal identifiers exactly if no definition that is taken
over from a draft has a name that begins with a digit. So they are if no type of a key
in a sample begins with a digit. -/
theorem build_declares_legal_iff {module : Module}
    (hread : Document.read path text = .ok document)
    (hbuild : Module.build settings document = .ok (some module)) :
    List.Forall₂ DeclaresName (declaredNames settings document) module.segments ∧
      module.typeExports = (declaredNames settings document).map (fun name =>
        typeExport (pascalCase name) (constantOf name)) ∧
      ((∀ name ∈ declaredNames settings document,
          IsLegal (constantOf name) ∧ IsLegal (pascalCase name)) ↔
        ∀ name ∈ documentAdoptions settings document, beginsLetter name = true) ∧
      ((∀ entry ∈ namedSamples (baseName settings document) document, KeysBeginLetter entry.2) →
        ∀ name ∈ declaredNames settings document,
          IsLegal (constantOf name) ∧ IsLegal (pascalCase name)) := by
  obtain ⟨hsegments, hexports⟩ := build_names hbuild
  obtain ⟨halpha, -⟩ := declaredNames_fresh settings (Document.nodup_statuses hread)
  have hlegal : (∀ name ∈ declaredNames settings document,
      IsLegal (constantOf name) ∧ IsLegal (pascalCase name)) ↔
        ∀ name ∈ documentAdoptions settings document, beginsLetter name = true := by
    rw [documentAdoptions,
      ← declaredFrom_beginLetter_iff (distinct_namedSamples hread) (namedSamples_beginLetter hread),
      ← declaredNames]
    exact forall₂_congr fun name hmem => Identifier.isLegal_iff (halpha name hmem)
  refine ⟨hsegments, hexports, hlegal, fun hkeys => hlegal.mpr ?_⟩
  exact adoptedFrom_beginLetter (distinct_namedSamples hread) hkeys (namedSamples_beginLetter hread)

end Documents

section Examples

open Generation (baseName_userDocument namedSamples_userDocument userDocument)
open Schema (anyOf bind_eq_ok closedObject definitionsOf draftWith nullType ofArray refTo rootOf)

theorem userSample_keysBeginLetter : KeysBeginLetter userSample := by
  intro key hkey
  right
  cases hkey with
  | own hmem =>
      rw [List.mem_singleton.mp hmem]
      decide
  | inner hmem hkey =>
      rw [List.mem_singleton.mp hmem] at hkey
      cases hkey with
      | own hmem =>
          rw [List.mem_singleton.mp hmem]
          decide
      | inner hmem hkey =>
          rw [List.mem_singleton.mp hmem] at hkey
          cases hkey

theorem userSample_declared_legal : ∃ text module,
    Document.read (.ofString "Users.bru") text = .ok (userDocument "Users.bru" userSample) ∧
      Module.build {} (userDocument "Users.bru" userSample) = .ok (some module) ∧
      List.Forall₂ DeclaresName ["GetUsersBodyUser", "GetUsersBody"] module.segments ∧
      ∀ name ∈ ["GetUsersBodyUser", "GetUsersBody"],
        IsLegal (constantOf name) ∧ IsLegal (pascalCase name) := by
  obtain ⟨hread, -⟩ := read_userSample
  have hwritable : userSample.writable = true := by
    simp [userSample, Json.writable, Json.membersWritable, integerFits_one]
  have hnames : declaredNames {} (userDocument "Users.bru" userSample) =
      ["GetUsersBodyUser", "GetUsersBody"] :=
    declaredNames_userDocument "Users.bru" rfl sampleSchema_userSample
  obtain ⟨module, hbuild⟩ :=
    @exists_build_userDocument _ _ _ ["GetUsersBodyUser"] (by decide) hwritable rfl hnames
  obtain ⟨hsegments, -, -, hlegal⟩ := build_declares_legal_iff hread hbuild
  rw [baseName_userDocument, namedSamples_userDocument rfl, List.forall_mem_singleton] at hlegal
  rw [hnames] at hsegments hlegal
  exact ⟨_, module, hread, hbuild, hsegments, hlegal userSample_keysBeginLetter⟩

/-- A list under a key that is a number. -/
def digitSample : Json := .obj [("1", .arr [.obj [("x", .int 1)], .null])]

def digitDraft : Json :=
  draftWith (closedObject [("1", ofArray (anyOf [refTo "1", nullType]))] (.arr [.str "1"])
    "GetUsersBody") [("1", Schema.counted "x" "1")]

/-- The shape of the elements is taken over under its own name. -/
def digitLifted : Json :=
  draftWith (closedObject [("1", refTo "GetUsersBody1")] (.arr [.str "1"]) "GetUsersBody")
    [("GetUsersBody1Item", anyOf [refTo "1", nullType]),
      ("GetUsersBody1", ofArray (refTo "GetUsersBody1Item")), ("1", Schema.counted "x" "1")]

theorem sampleSchema_digitSample :
    sampleSchema "GetUsersBody" digitSample [] = .ok digitLifted := by
  have hobjects : ∀ name node, Table.get? (definitionsOf digitDraft) name = some node →
      node.isObject = true := by
    intro name node hget
    cases List.mem_singleton.mp (Table.mem_of_get? hget)
    rfl
  have hitem : Schema.Lifts .item (.initial ["GetUsersBody"] (definitionsOf digitDraft)) []
      (anyOf [refTo "1", nullType]) ("GetUsersBody" ++ pascalCase "1" ++ "Item")
      (refTo "GetUsersBody1Item") ((definitionsOf digitLifted).take 1) :=
    .item_moved rfl rfl rfl rfl rfl (.plain nofun) rfl
  have hroot : Schema.Lifts .body (.initial ["GetUsersBody"] (definitionsOf digitDraft)) []
      (rootOf digitDraft) "GetUsersBody" (rootOf digitLifted)
      ((definitionsOf digitLifted).take 2) :=
    .within rfl (.cons (.property_array rfl hitem rfl rfl) .nil)
  -- Nothing names the elements by the way to them, so the reference in the union is left.
  have hmissing : Schema.missing? (definitionsOf digitDraft) (rootOf digitLifted)
      ((definitionsOf digitLifted).take 2) = some ("1", Schema.counted "x" "1") := rfl
  have hadopt : Schema.adopt (.initial ["GetUsersBody"] (definitionsOf digitDraft))
      1 (rootOf digitLifted) ((definitionsOf digitLifted).take 2) =
      .ok (rootOf digitLifted, definitionsOf digitLifted) :=
    @Schema.adopt_next _ 0 _ _ _ _ "1" _ _ _ hmissing rfl rfl hobjects Schema.lifts_counted rfl
  have hlift : Schema.lift digitDraft "GetUsersBody" [] = .ok digitLifted :=
    Schema.lift_eq rfl rfl hobjects hroot hadopt
      (Nat.one_le_of_lt (Schema.lt_adoptionBound digitDraft)) rfl
  have hinlined : Schema.draft "GetUsersBody" [digitSample] >>= Schema.inlineRoot =
      .ok digitDraft := by decide +kernel
  obtain ⟨draft, hdraft, hinline⟩ := bind_eq_ok hinlined
  exact sampleSchema_eq_ok.mpr ⟨draft, digitDraft, hdraft, hinline, hlift⟩

/-- The shape `1` of a list is declared as `1Schema`. -/
theorem digitSample_illegal : ∃ text module names,
    Document.read (.ofString "Users.bru") text = .ok (userDocument "Users.bru" digitSample) ∧
      Module.build {} (userDocument "Users.bru" digitSample) = .ok (some module) ∧
      List.Forall₂ DeclaresName names module.segments ∧
      module.typeExports = names.map (fun name =>
        typeExport (pascalCase name) (constantOf name)) ∧
      "1" ∈ names ∧ ¬ IsLegal (constantOf "1") ∧ ¬ IsLegal (pascalCase "1") := by
  have hread : Document.read (.ofString "Users.bru")
      (userText "\x7b\"1\": [\x7b\"x\": 1\x7d, null]\x7d") =
      .ok (userDocument "Users.bru" digitSample) := by
    decide +kernel
  have hwritable : digitSample.writable = true := by
    simp [digitSample, Json.writable, Json.membersWritable, Json.itemsWritable, integerFits_one]
  have hnames := declaredNames_userDocument "Users.bru" rfl sampleSchema_digitSample
  obtain ⟨module, hbuild⟩ := exists_build_userDocument (by decide) hwritable rfl hnames
  obtain ⟨hsegments, hexports⟩ := build_names hbuild
  have hmem : "1" ∈ declaredNames {} (userDocument "Users.bru" digitSample) := by
    rw [hnames]
    decide
  have hconstant : beginsLetter (constantOf "1") = false := by decide
  have htype : beginsLetter (pascalCase "1") = false := by decide
  refine ⟨_, module, _, hread, hbuild, hsegments, hexports, hmem, ?_, ?_⟩
  · intro hlegal
    exact absurd hlegal.first (by simp [hconstant])
  · intro hlegal
    exact absurd hlegal.first (by simp [htype])

end Examples

end RequestShapes.Endpoint
