import RequestShapes.Proofs.Endpoint.Misreading

/-!
# References in a module

The expressions of a module are written with markers in the place of references, and
the markers are resolved in its text. The text is the one with all references written
as such unless some label is mistaken for a marker, and none is if no key of a sample
holds the beginning of a marker.
-/

namespace RequestShapes.Endpoint

open Identifier (IsAlphanumeric pascalCase)
open Request (Document)
open Schema (AllKeys AllKeysIn Distinct HasKey bind_eq_ok definitionsOf rootOf schemaWords)
open Zod (Denotes directOf textOf)

/-! ## Nodes of one component -/

section Component

variable {name base : String} {sample schema : Json} {reserved : List String}
  {Holds : String → Prop}

/-- The constants that a sample declares, each with its marked node. -/
def componentNodes (name : String) (sample : Json) (reserved : List String) :
    List (String × Json) :=
  if isBlankSample sample then [] else
    match sampleSchema (pascalCase name) sample reserved with
    | .ok schema => declaredNodes (pascalCase name) schema
    | .error _ => []

theorem component_nodes {component : Component}
    (h : Synthesizer.standard.component name sample reserved = .ok component) :
    List.Forall₂ Declares (componentNodes name sample reserved) component.segments := by
  by_cases hblank : isBlankSample sample = true
  · rw [component_blank hblank] at h
    cases h
    rw [componentNodes, if_pos hblank]
    exact .nil
  · obtain ⟨_, schema, hschema, hsegments, _⟩ := (component_eq_ok (by simpa using hblank)).mp h
    rwa [componentNodes, if_neg hblank, hschema]

theorem map_fst_componentNodes (hname : IsAlphanumeric name) (sample : Json)
    (reserved : List String) : (componentNodes name sample reserved).map Prod.fst =
      (componentNames name sample reserved).map constantOf := by
  unfold componentNodes componentNames
  split
  next => rfl
  next =>
    cases sampleSchema (pascalCase name) sample reserved with
    | ok schema => exact map_fst_declaredNodes schema (Identifier.pascalCase_pascalCase hname)
    | error => rfl

/-- The keys in the schema of a sample are words of the schema language and keys of the
sample. -/
theorem sampleSchema_allKeys (hwords : ∀ word ∈ schemaWords, Holds word)
    (hdistinct : Distinct sample) (hkeys : AllKeys Holds sample)
    (hschema : sampleSchema base sample reserved = .ok schema) :
    AllKeys Holds (rootOf schema) ∧ AllKeysIn Holds (definitionsOf schema) := by
  obtain ⟨draft, inlined, hdraft, hinlined, hlift⟩ := sampleSchema_eq_ok.mp hschema
  obtain ⟨inferred, hinferred, hsummarizes⟩ :=
    Schema.ofSamples_summarizes (List.forall_mem_singleton.mpr hdistinct)
  rw [Schema.draft, hinferred] at hdraft
  cases hdraft
  have hsample : Schema.Summarizes (· = sample) inferred :=
    hsummarizes.congr fun value => List.mem_singleton.symm
  obtain ⟨hroot, hdefinitions⟩ := Schema.inlineRoot_allKeys hwords hsample hkeys hinlined
  exact Schema.lift_allKeys hwords hlift hroot hdefinitions

/-- The nodes of a sample denote sound pieces, whose labels are words of the schema
language or keys of the sample. -/
theorem declaredNodes_denote (hwords : ∀ word ∈ schemaWords, Holds word)
    (hdistinct : Distinct sample) (hkeys : AllKeys Holds sample)
    (hschema : sampleSchema base sample reserved = .ok schema) :
    ∀ entry ∈ declaredNodes base schema,
      Denotes ((declaredNodes base schema).map Prod.fst) Holds entry.2 := by
  obtain ⟨draft, inlined, lifted, hdraft, hinlined, hlift, hroot, hdefinitions, hresolves⟩ :=
    Schema.lift_sample base sample reserved hdistinct
  have hlifted := sampleSchema_eq_ok.mpr ⟨draft, inlined, hdraft, hinlined, hlift⟩
  obtain rfl := Except.ok.inj (hschema.symm.trans hlifted)
  obtain ⟨hrootKeys, hdefinitionKeys⟩ := sampleSchema_allKeys hwords hdistinct hkeys hschema
  have hconstants : ∀ target ∈ Schema.referred (rootOf schema) (definitionsOf schema),
      target ∈ Table.names (Schema.constantsOf (definitionsOf schema)) := by
    rw [names_constantsOf]
    exact hresolves
  intro entry hmem
  rcases List.mem_append.mp hmem with hmapped | hlast
  · obtain ⟨definition, hdefinition, rfl⟩ := List.mem_map.mp hmapped
    obtain ⟨hops, htraced⟩ := hdefinitions definition hdefinition
    have hmarked := htraced.mark fun target htarget => hconstants target (List.mem_flatMap.mpr
      ⟨_, List.mem_cons_of_mem _ (List.mem_map_of_mem hdefinition), htarget⟩)
    have hkeys := Schema.mark_allKeys hwords (Schema.constantsOf (definitionsOf schema))
      (hdefinitionKeys definition hdefinition)
    exact (Zod.denotes_of_traced hmarked hkeys).mono fun _ => constant_mem_declaredNodes
  · obtain rfl := List.mem_singleton.mp hlast
    have hmarked := hroot.mark fun target htarget =>
      hconstants target (Schema.targets_root_subset htarget)
    have hkeys := Schema.mark_allKeys hwords (Schema.constantsOf (definitionsOf schema)) hrootKeys
    exact (Zod.denotes_of_tracedRoot hmarked hkeys).mono fun _ => constant_mem_declaredNodes

theorem componentNodes_denote (hwords : ∀ word ∈ schemaWords, Holds word)
    (hdistinct : Distinct sample) (hkeys : AllKeys Holds sample) :
    ∀ entry ∈ componentNodes name sample reserved,
      Denotes ((componentNodes name sample reserved).map Prod.fst) Holds entry.2 := by
  unfold componentNodes
  split
  next => exact List.forall_mem_nil _
  next =>
    split
    next schema hschema => exact declaredNodes_denote hwords hdistinct hkeys hschema
    next => exact List.forall_mem_nil _

end Component

/-! ## Nodes of a document -/

section Documents

variable {named : List (String × Json)} {taken : List String}

/-- The constants and nodes that samples declare one after the other. -/
def nodesFrom (taken : List String) : List (String × Json) → List (String × Json)
  | [] => []
  | (name, sample) :: rest =>
      let reserved := taken.filter (· ≠ pascalCase name)
      componentNodes name sample reserved ++
        nodesFrom (taken ++ (componentNames name sample reserved).map pascalCase) rest

/-- The constants and nodes that the module of a document declares, in order. -/
def documentNodes (settings : Settings) (document : Document) : List (String × Json) :=
  let named := namedSamples (baseName settings document) document
  nodesFrom (named.map fun entry => pascalCase entry.1) named

theorem declareFrom_nodes {components : List Component}
    (hnamed : ∀ entry ∈ named, IsAlphanumeric entry.1)
    (h : declareFrom .standard taken named = .ok components) :
    List.Forall₂ Declares (nodesFrom taken named) (components.flatMap Component.segments) := by
  induction named generalizing taken components with
  | nil =>
      cases h
      exact .nil
  | cons entry rest ih =>
      obtain ⟨name, sample⟩ := entry
      obtain ⟨hname, hrest⟩ := List.forall_mem_cons.mp hnamed
      obtain ⟨component, others, rfl, hcomponent, hothers⟩ := declareFrom_cons_eq_ok hname h
      rw [nodesFrom, List.flatMap_cons]
      exact List.rel_append (component_nodes hcomponent) (ih hrest hothers)

theorem map_fst_nodesFrom (hnamed : ∀ entry ∈ named, IsAlphanumeric entry.1) :
    (nodesFrom taken named).map Prod.fst = (declaredFrom taken named).map constantOf := by
  induction named generalizing taken with
  | nil => rfl
  | cons entry rest ih =>
      obtain ⟨name, sample⟩ := entry
      obtain ⟨hname, hrest⟩ := List.forall_mem_cons.mp hnamed
      rw [nodesFrom, declaredFrom, List.map_append, List.map_append, ih hrest,
        map_fst_componentNodes hname]

theorem nodesFrom_denote {Holds : String → Prop} (hwords : ∀ word ∈ schemaWords, Holds word)
    (hsamples : ∀ entry ∈ named, Distinct entry.2 ∧ AllKeys Holds entry.2) :
    ∀ entry ∈ nodesFrom taken named,
      Denotes ((nodesFrom taken named).map Prod.fst) Holds entry.2 := by
  induction named generalizing taken with
  | nil => exact List.forall_mem_nil _
  | cons entry rest ih =>
      obtain ⟨name, sample⟩ := entry
      obtain ⟨⟨hdistinct, hkeys⟩, hrest⟩ := List.forall_mem_cons.mp hsamples
      rw [nodesFrom, List.map_append]
      refine List.forall_mem_append.mpr ⟨fun entry hmem => ?_, fun entry hmem => ?_⟩
      · exact (componentNodes_denote hwords hdistinct hkeys entry hmem).mono fun _ =>
          List.mem_append_left _
      · exact (ih hrest entry hmem).mono fun _ => List.mem_append_right _

end Documents

/-! ## Texts of modules -/

section Modules

/-- A constant with its expression. -/
structure Declaration where
  constant : String
  expr : Zod.Expr

/-- A constant is declared with what its node denotes. -/
def Declaration.Of (entry : String × Json) (declaration : Declaration) : Prop :=
  declaration.constant = entry.1 ∧ Zod.Expr.ofSchema entry.2 = .ok declaration.expr

/-- The segment of a declaration. -/
def Declaration.segment (declaration : Declaration) : String :=
  Zod.constantDeclaration declaration.constant declaration.expr

/-- The text of a declaration with references written as such. -/
def Declaration.direct (declaration : Declaration) : List Char :=
  "export const ".toList ++
    (declaration.constant.toList ++ (" = ".toList ++ directOf declaration.expr.pieces))

/-- The text of a module with the default import line in which references are written
as such. -/
def directText (declarations : List Declaration) (typeExports : List String) : String :=
  String.ofList (defaultImport.toList ++ '\n' :: '\n' ::
    (spaced (declarations.map Declaration.direct) ++ '\n' :: '\n' ::
      (['\n'].intercalate (typeExports.eraseDups.map String.toList) ++ ['\n'])))

theorem exists_declarations {nodes : List (String × Json)} {segments : List String}
    (h : List.Forall₂ Declares nodes segments) : ∃ declarations,
      List.Forall₂ Declaration.Of nodes declarations ∧
        segments = declarations.map Declaration.segment := by
  induction h with
  | nil => exact ⟨[], .nil, rfl⟩
  | @cons entry _ _ _ hdeclares _ ih =>
      obtain ⟨expr, hexpr, rfl⟩ := hdeclares
      obtain ⟨declarations, hof, rfl⟩ := ih
      exact ⟨⟨entry.1, expr⟩ :: declarations, .cons ⟨rfl, hexpr⟩ hof, rfl⟩

theorem map_fst_of_declarations {nodes : List (String × Json)} {declarations : List Declaration}
    (h : List.Forall₂ Declaration.Of nodes declarations) :
    nodes.map Prod.fst = declarations.map Declaration.constant := by
  induction h with
  | nil => rfl
  | cons hentry _ ih => rw [List.map_cons, List.map_cons, hentry.1, ih]

variable {constants : List String} {Holds : String → Prop} {declaration : Declaration}

theorem rewritten_segment (halpha : IsAlphanumeric declaration.constant) :
    rewritten declaration.segment.toList = "export const ".toList ++
      (declaration.constant.toList ++
        (" = ".toList ++ rewritten (textOf declaration.expr.pieces))) := by
  rw [Declaration.segment, toList_constantDeclaration, rewritten_constantDeclaration halpha,
    Zod.textOf_pieces]

/-- A declaration stands on one line, with markers resolved or with references. -/
theorem not_mem_newline_segment (halpha : IsAlphanumeric declaration.constant) :
    '\n' ∉ rewritten declaration.segment.toList := by
  rw [Declaration.segment, toList_constantDeclaration]
  exact not_mem_newline_rewritten
    (not_mem_newline_declaration halpha declaration.expr.printable_text.not_mem_newline)

theorem not_mem_newline_direct (halpha : IsAlphanumeric declaration.constant)
    (hsound : ∀ piece ∈ declaration.expr.pieces, piece.Sound constants Holds)
    (hconstants : ∀ constant ∈ constants, IsAlphanumeric constant ∧ constant.toList ≠ []) :
    '\n' ∉ declaration.direct := by
  have htext : '\n' ∉ textOf declaration.expr.pieces := by
    rw [Zod.textOf_pieces]
    exact declaration.expr.printable_text.not_mem_newline
  exact not_mem_newline_declaration halpha (not_mem_newline_directOf hsound hconstants htext)

theorem rewritten_segment_eq_direct_iff (halpha : IsAlphanumeric declaration.constant)
    (hsound : ∀ piece ∈ declaration.expr.pieces, piece.Sound constants Holds)
    (hconstants : ∀ constant ∈ constants, IsAlphanumeric constant ∧ constant.toList ≠ []) :
    rewritten declaration.segment.toList = declaration.direct ↔
      LabelsPassed declaration.expr.pieces := by
  unfold Declaration.direct
  rw [rewritten_segment halpha, List.append_right_inj, List.append_right_inj, List.append_right_inj]
  exact rewritten_textOf_iff hsound hconstants

/-- The text of a module is the one with its references written as such exactly if no
marker begins in a label. -/
theorem render_eq_directText_iff {declarations : List Declaration} {module : Module}
    (himport : module.importLine = defaultImport)
    (hsegments : module.segments = declarations.map Declaration.segment)
    (hsound : ∀ declaration ∈ declarations, ∀ piece ∈ declaration.expr.pieces,
      piece.Sound (declarations.map Declaration.constant) Holds)
    (hconstants : ∀ constant ∈ declarations.map Declaration.constant,
      IsAlphanumeric constant ∧ constant.toList ≠ []) :
    module.render = directText declarations module.typeExports ↔
      ∀ declaration ∈ declarations, LabelsPassed declaration.expr.pieces := by
  have hconstant : ∀ declaration ∈ declarations, IsAlphanumeric declaration.constant :=
    fun _ hmem => (hconstants _ (List.mem_map_of_mem hmem)).1
  have hlines : spaced (module.segments.map fun segment => rewritten segment.toList) =
      spaced (declarations.map Declaration.direct) ↔
        ∀ declaration ∈ declarations,
          rewritten declaration.segment.toList = declaration.direct := by
    rw [hsegments, List.map_map, ← List.map_inj_left]
    refine ⟨spaced_inj (by simp) ?_ ?_, congrArg spaced⟩
    · exact List.forall_mem_map.mpr fun declaration hmem =>
        not_mem_newline_segment (hconstant declaration hmem)
    · exact List.forall_mem_map.mpr fun declaration hmem =>
        not_mem_newline_direct (hconstant declaration hmem) (hsound declaration hmem) hconstants
  rw [← String.toList_inj, toList_render himport, directText, String.toList_ofList,
    List.append_right_inj, List.cons_inj_right, List.cons_inj_right, List.append_left_inj, hlines]
  exact forall₂_congr fun declaration hmem => rewritten_segment_eq_direct_iff
    (hconstant declaration hmem) (hsound declaration hmem) hconstants

end Modules

/-! ## The module of a document -/

/-- A key of one of the samples of a document. -/
def IsSampleKey (settings : Settings) (document : Document) (key : String) : Prop :=
  ∃ entry ∈ namedSamples (baseName settings document) document, HasKey entry.2 key

/-- A key that may stand in a label: one of a sample, or a word of the schema language. -/
def IsLabelKey (settings : Settings) (document : Document) (key : String) : Prop :=
  key ∈ schemaWords ∨ IsSampleKey settings document key

section Build

variable {settings : Settings} {document : Document} {module : Module}

/-- The segments of a module declare what the nodes of its document denote. -/
theorem build_declarations (hbuild : Module.build settings document = .ok (some module)) :
    ∃ declarations, List.Forall₂ Declaration.Of (documentNodes settings document) declarations ∧
      module.segments = declarations.map Declaration.segment ∧
      module.importLine = settings.importLine := by
  obtain ⟨all, hall, _, rfl⟩ := build_eq_some.mp hbuild
  obtain ⟨declarations, hof, hsegments⟩ := exists_declarations (declareFrom_nodes (fun entry hmem =>
    (namedSamples_beginsLarge (isAlphanumeric_baseName settings document) hmem).1) hall)
  exact ⟨declarations, hof, hsegments, rfl⟩

variable {declarations : List Declaration}
  (hof : List.Forall₂ Declaration.Of (documentNodes settings document) declarations)

include hof

theorem constant_of_declarations : ∀ constant ∈ declarations.map Declaration.constant,
    IsAlphanumeric constant ∧ constant.toList ≠ [] := by
  rw [← map_fst_of_declarations hof, documentNodes, map_fst_nodesFrom fun entry hmem =>
    (namedSamples_beginsLarge (isAlphanumeric_baseName settings document) hmem).1]
  exact List.forall_mem_map.mpr fun name _ =>
    ⟨isAlphanumeric_constantOf name, constantOf_ne_nil name⟩

/-- What holds of the words of the schema language and of all keys of samples holds of
all labels. -/
theorem sound_of_declarations {Holds : String → Prop} (hwords : ∀ word ∈ schemaWords, Holds word)
    (hdistinct : ∀ entry ∈ namedSamples (baseName settings document) document, Distinct entry.2)
    (hkeys : ∀ key, IsSampleKey settings document key → Holds key) :
    ∀ declaration ∈ declarations, ∀ piece ∈ declaration.expr.pieces,
      piece.Sound (declarations.map Declaration.constant) Holds := by
  have hdenote : ∀ entry ∈ documentNodes settings document,
      Denotes ((documentNodes settings document).map Prod.fst) Holds entry.2 :=
    nodesFrom_denote hwords fun entry hmem =>
      ⟨hdistinct entry hmem, fun key hkey => hkeys key ⟨entry, hmem, hkey⟩⟩
  intro declaration hmem
  obtain ⟨entry, hentry, _, hexpr⟩ := Schema.exists_left_of_forall₂ hof hmem
  obtain ⟨expr, hexpr', hpieces⟩ := hdenote entry hentry
  obtain rfl := Except.ok.inj (hexpr.symm.trans hexpr')
  rwa [map_fst_of_declarations hof] at hpieces

theorem labels_of_declarations
    (hdistinct : ∀ entry ∈ namedSamples (baseName settings document) document, Distinct entry.2) :
    ∀ declaration ∈ declarations, ∀ piece ∈ declaration.expr.pieces,
      piece.Sound (declarations.map Declaration.constant) (IsLabelKey settings document) :=
  sound_of_declarations hof (fun _ => .inl) hdistinct fun _ => .inr

end Build

/-- Every expression of a module is made of code, of labels and of literals in the place
of references to its own constants. The text of the module is the one in which these
references are written as such, and all else as it is rendered, exactly if no marker
begins in a label. None does if no key of a sample holds the beginning of a marker. -/
theorem build_references_direct_iff {settings : Settings} {document : Document} {module : Module}
    (himport : settings.importLine = defaultImport)
    (hdistinct : ∀ entry ∈ namedSamples (baseName settings document) document, Distinct entry.2)
    (hbuild : Module.build settings document = .ok (some module)) :
    ∃ declarations, List.Forall₂ Declaration.Of (documentNodes settings document) declarations ∧
      module.segments = declarations.map Declaration.segment ∧
      (∀ declaration ∈ declarations, ∀ piece ∈ declaration.expr.pieces,
        piece.Sound (declarations.map Declaration.constant) (IsLabelKey settings document)) ∧
      (module.render = directText declarations module.typeExports ↔
        ∀ declaration ∈ declarations, LabelsPassed declaration.expr.pieces) ∧
      ((∀ key, IsSampleKey settings document key → ¬ apostropheMarker <:+: key.toList) →
        module.render = directText declarations module.typeExports) := by
  obtain ⟨declarations, hof, hsegments, hline⟩ := build_declarations hbuild
  have hsound := labels_of_declarations hof hdistinct
  have hiff := render_eq_directText_iff (hline.trans himport) hsegments hsound
    (constant_of_declarations hof)
  refine ⟨declarations, hof, hsegments, hsound, hiff,
    fun hkeys => hiff.mpr fun declaration hmem => ?_⟩
  have hwords : ∀ word ∈ schemaWords, ¬ apostropheMarker <:+: word.toList := by decide
  exact labelsPassed_of_sound (sound_of_declarations hof hwords hdistinct hkeys declaration hmem)

section Examples

open Generation (baseName_userDocument namedSamples_userDocument pascalCase_getUsersBody
  userDocument)
open Schema (counted draftWith)

theorem documentNodes_userDocument (path : String) {body schema : Json}
    (hbody : isBlankSample body = false)
    (hschema : sampleSchema "GetUsersBody" body [] = .ok schema) :
    documentNodes {} (userDocument path body) = declaredNodes "GetUsersBody" schema := by
  rw [documentNodes, baseName_userDocument, namedSamples_userDocument hbody]
  simp [nodesFrom, componentNodes, pascalCase_getUsersBody, hbody, hschema]

theorem userSample_references_direct : ∃ module declarations,
    Module.build {} (userDocument "Users.bru" userSample) = .ok (some module) ∧
      List.Forall₂ Declaration.Of (documentNodes {} (userDocument "Users.bru" userSample))
        declarations ∧
      module.render = directText declarations module.typeExports := by
  have hwritable : userSample.writable = true := by
    simp [userSample, Json.writable, Json.membersWritable, integerFits_one]
  have hnames := declaredNames_userDocument "Users.bru" rfl sampleSchema_userSample
  obtain ⟨module, hbuild⟩ := exists_build_userDocument (by decide) hwritable rfl hnames
  have hsamples : namedSamples (baseName {} (userDocument "Users.bru" userSample))
      (userDocument "Users.bru" userSample) = [("GetUsersBody", userSample)] := by
    rw [baseName_userDocument, namedSamples_userDocument rfl]
  have hdistinct : ∀ entry ∈ [("GetUsersBody", userSample)], Distinct entry.2 :=
    List.forall_mem_singleton.mpr (by decide)
  have hkeys : AllKeys (fun key => ¬ apostropheMarker <:+: key.toList) userSample := by
    simp only [userSample, Schema.allKeys_obj_iff, List.forall_mem_singleton]
    exact ⟨by decide, by decide, Schema.allKeys_of_scalar rfl⟩
  obtain ⟨declarations, hof, _, _, _, hdirect⟩ :=
    build_references_direct_iff rfl (by rwa [hsamples]) hbuild
  refine ⟨module, declarations, hbuild, hof, hdirect ?_⟩
  rintro key ⟨entry, hmem, hkey⟩
  rw [hsamples, List.mem_singleton] at hmem
  rw [hmem] at hkey
  exact hkeys key hkey

/-- An object with a key that reads like a marker. -/
def disguisedSample : Json := .obj [("z.literal('__REF__x')", .int 1)]

theorem sampleSchema_disguisedSample : sampleSchema "GetUsersBody" disguisedSample [] =
    .ok (draftWith (counted "z.literal('__REF__x')" "GetUsersBody") []) := by
  have hinlined : Schema.draft "GetUsersBody" [disguisedSample] >>= Schema.inlineRoot =
      .ok (draftWith (counted "z.literal('__REF__x')" "GetUsersBody") []) := by decide +kernel
  obtain ⟨draft, hdraft, hinline⟩ := bind_eq_ok hinlined
  have hroot : Schema.Lifts .body (.initial ["GetUsersBody"] []) []
      (Schema.declared (counted "z.literal('__REF__x')" "GetUsersBody")) "GetUsersBody"
      (Schema.declared (counted "z.literal('__REF__x')" "GetUsersBody")) [] :=
    .within rfl (.cons (.kept rfl rfl rfl rfl) .nil)
  have hlift : Schema.lift (draftWith (counted "z.literal('__REF__x')" "GetUsersBody") [])
      "GetUsersBody" [] = .ok (draftWith (counted "z.literal('__REF__x')" "GetUsersBody") []) :=
    @Schema.lift_eq 0 _ _ _ _ _ _ _ _ rfl rfl (fun _ _ hget => by cases hget) hroot rfl
      (Nat.zero_le _) rfl
  exact sampleSchema_eq_ok.mpr ⟨draft, _, hdraft, hinline, hlift⟩

/-- The key is changed along with the markers. -/
theorem disguisedSample_changed : ∃ text module declarations,
    Document.read (.ofString "Users.bru") text = .ok (userDocument "Users.bru" disguisedSample) ∧
      Module.build {} (userDocument "Users.bru" disguisedSample) = .ok (some module) ∧
      List.Forall₂ Declaration.Of (documentNodes {} (userDocument "Users.bru" disguisedSample))
        declarations ∧
      module.render ≠ directText declarations module.typeExports := by
  have hread : Document.read (.ofString "Users.bru")
      (userText "\x7b\"z.literal('__REF__x')\": 1\x7d") =
      .ok (userDocument "Users.bru" disguisedSample) := by
    decide +kernel
  have hwritable : disguisedSample.writable = true := by
    simp [disguisedSample, Json.writable, Json.membersWritable, integerFits_one]
  have hnames := declaredNames_userDocument "Users.bru" rfl sampleSchema_disguisedSample
  obtain ⟨module, hbuild⟩ := exists_build_userDocument (by decide) hwritable rfl hnames
  have hdistinct : ∀ entry ∈ namedSamples (baseName {} (userDocument "Users.bru" disguisedSample))
      (userDocument "Users.bru" disguisedSample), Distinct entry.2 := by
    rw [baseName_userDocument, namedSamples_userDocument rfl]
    exact List.forall_mem_singleton.mpr (by decide)
  obtain ⟨declarations, hof, hsegments, hline⟩ := build_declarations hbuild
  have hsound := labels_of_declarations hof hdistinct
  refine ⟨_, module, declarations, hread, hbuild, hof, fun hrender => ?_⟩
  have hpassed := (render_eq_directText_iff hline hsegments hsound
    (constant_of_declarations hof)).mp hrender
  have hnodes : documentNodes {} (userDocument "Users.bru" disguisedSample) =
      [("getUsersBodySchema",
        Schema.declared (counted "z.literal('__REF__x')" "GetUsersBody"))] := by
    have hconstant : Identifier.schemaConstant "GetUsersBody" = "getUsersBodySchema" := by decide
    rw [documentNodes_userDocument "Users.bru" rfl sampleSchema_disguisedSample, declaredNodes,
      hconstant]
    rfl
  rw [hnodes] at hof
  obtain ⟨declaration, hmem, _, hexpr⟩ := Schema.exists_right_of_forall₂ hof List.mem_cons_self
  have hfields : Zod.ofFields (["z.literal('__REF__x')"].map .str)
      [("z.literal('__REF__x')", Schema.ofType (.str "integer"))] =
      .ok [⟨"z.literal('__REF__x')", false, .integer⟩] := by
    have hinteger : Zod.Expr.ofSchema (Schema.ofType (.str "integer")) = .ok .integer :=
      ((Zod.looksLike_self _).ofSchema rfl (by decide)).trans
        (Zod.ofType_ofScalar (by decide) (by decide))
    rw [Zod.ofFields, hinteger, Schema.ok_bind, Zod.ofFields]
    rfl
  have hobject : Zod.Expr.ofSchema
      (Schema.declared (counted "z.literal('__REF__x')" "GetUsersBody")) =
      .ok (.strictObject [⟨"z.literal('__REF__x')", false, .integer⟩]) :=
    (Zod.looksLike_declared rfl).ofSchema_object hfields
  have hlabels := hpassed declaration hmem
  rw [← Except.ok.inj (hobject.symm.trans hexpr)] at hlabels
  have hquoted : lazyReference?
      ("z.literal('__REF__x')\": z.number().int() \x7d).strict()".toList) = none :=
    hlabels.1.2.1
  exact absurd hquoted (by decide)

end Examples

end RequestShapes.Endpoint
