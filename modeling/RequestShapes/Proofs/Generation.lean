import RequestShapes.Generation
import RequestShapes.Proofs.Endpoint.Declaring
import RequestShapes.Proofs.Files.Writing
import RequestShapes.Proofs.Identifier
import RequestShapes.Proofs.Schema.Sample

/-!
# Which modules stay

A generation that does not fail writes a module for every document that
documents something and counts it. Two modules at one place are both counted,
but only the later one stays. So no module is lost if and only if the modules
stand at distinct places, and they do if and only if the documents have distinct
base names.
-/

namespace RequestShapes.Generation

open Endpoint (Module baseName)
open Files (Location Path Tree)
open Identifier (IsAlphanumeric isAlphanumeric_ofUrl isAlphanumeric_pascalCase)
open Request (Document)
open Schema (bind_eq_ok exists_left_of_forall₂ exists_right_of_forall₂)

variable {settings : Settings} {verbose : Bool} {output : Path} {generation : Generation}

/-! ## One document -/

/-- The path of a module in an output directory. -/
def filePath (output : Path) (module : Module) : Path :=
  output ++ Path.ofString module.filename

/-- A module that is written without a fault is put where its path leads. -/
theorem write_ok {module : Module} (h : (generation.write verbose output module).fault = none) :
    generation.fault = none ∧ ∃ place, generation.tree.locate (filePath output module) = .ok place ∧
      generation.tree.get? place ≠ some .directory ∧
      (generation.write verbose output module).tree =
        generation.tree.insert place (.file module.render.toUTF8) ∧
      (generation.write verbose output module).endpoints = generation.endpoints + 1 := by
  unfold write at h ⊢
  dsimp only at h ⊢
  split at h
  next => cases h
  next later hwrite =>
    obtain ⟨place, hlocate, hfile, rfl⟩ := Tree.write_eq_ok.mp hwrite
    exact ⟨h, place, hlocate, hfile, rfl, rfl⟩

/-- A document that is added without a fault has a module, which is written, or
documents nothing. -/
theorem add_ok {document : Document} (h : (add settings verbose output generation document).fault = none) :
    generation.fault = none ∧
      ((Module.build settings document = .ok none ∧
          add settings verbose output generation document = generation) ∨
        ∃ module, Module.build settings document = .ok (some module) ∧
          add settings verbose output generation document = generation.write verbose output module) := by
  cases hfault : generation.fault with
  | some fault =>
      rw [add, if_pos (by simp [hfault]), hfault] at h
      cases h
  | none =>
      rw [add, if_neg (by simp [hfault])] at h ⊢
      cases hbuild : Module.build settings document with
      | error fault =>
          rw [hbuild] at h
          cases h
      | ok built =>
          cases built with
          | none => exact ⟨rfl, .inl ⟨rfl, rfl⟩⟩
          | some module => exact ⟨rfl, .inr ⟨module, rfl, rfl⟩⟩

/-- A document whose module can be written is added without a fault. -/
theorem add_of_locate {document : Document} {module : Module} {place : Location}
    (hfault : generation.fault = none) (hbuild : Module.build settings document = .ok (some module))
    (hlocate : generation.tree.locate (filePath output module) = .ok place)
    (hplace : generation.tree.get? place ≠ some .directory) :
    (add settings verbose output generation document).fault = none ∧
      (add settings verbose output generation document).tree =
        generation.tree.insert place (.file module.render.toUTF8) ∧
      (add settings verbose output generation document).endpoints = generation.endpoints + 1 := by
  have hwrite : generation.tree.write (output ++ Path.ofString module.filename)
      module.render.toUTF8 = .ok (generation.tree.insert place (.file module.render.toUTF8)) :=
    Tree.write_eq_ok.mpr ⟨place, hlocate, hplace, rfl⟩
  have hadd : add settings verbose output generation document =
      generation.write verbose output module := by
    rw [add, if_neg (by simp [hfault]), hbuild]
  simp only [hadd, write, hwrite]
  exact ⟨hfault, trivial, trivial⟩

/-! ## All documents -/

/-- The documents that have a module. -/
def documenting (settings : Settings) (documents : List Document) : List Document :=
  documents.filter fun document => (Module.build settings document).toOption.join.isSome

/-- The module of a document is to be put as a file at a place. -/
def HasFile (settings : Settings) (output : Path) (tree : Tree) (document : Document)
    (file : Location × ByteArray) : Prop :=
  ∃ module, Module.build settings document = .ok (some module) ∧
    tree.locate (filePath output module) = .ok file.1 ∧ tree.get? file.1 ≠ some .directory ∧
    module.render.toUTF8 = file.2

theorem HasFile.transport {tree later : Tree} {document : Document} {file : Location × ByteArray}
    (h : HasFile settings output tree document file) (hsame : tree.SameDirectories later) :
    HasFile settings output later document file := by
  obtain ⟨module, hbuild, hlocate, hfile, hbytes⟩ := h
  exact ⟨module, hbuild, hsame.locate hlocate, (not_congr (hsame.directory _)).mp hfile, hbytes⟩

/-- Without a fault the files of all modules are put one after the other, where
their paths led at the start, and all of them are counted. -/
theorem foldl_add_ok {documents : List Document}
    (h : (documents.foldl (add settings verbose output) generation).fault = none) :
    generation.fault = none ∧ ∃ files,
      List.Forall₂ (HasFile settings output generation.tree) (documenting settings documents) files ∧
      (documents.foldl (add settings verbose output) generation).tree =
        generation.tree.putAll files ∧
      (documents.foldl (add settings verbose output) generation).endpoints =
        generation.endpoints + files.length := by
  induction documents generalizing generation with
  | nil => exact ⟨h, [], .nil, rfl, rfl⟩
  | cons document documents ih =>
      rw [List.foldl_cons] at h ⊢
      obtain ⟨hadded, files, hfiles, htree, hcount⟩ := ih h
      obtain ⟨hfault, hcases⟩ := add_ok hadded
      refine ⟨hfault, ?_⟩
      rcases hcases with ⟨hbuild, hadd⟩ | ⟨module, hbuild, hadd⟩
      · rw [hadd] at hfiles htree hcount ⊢
        refine ⟨files, ?_, htree, hcount⟩
        rwa [documenting, List.filter_cons_of_neg (by simp [hbuild, Except.toOption])]
      · rw [hadd] at hadded hfiles htree hcount ⊢
        obtain ⟨_, place, hlocate, hplace, hwritten, hone⟩ := write_ok hadded
        rw [hwritten] at hfiles htree
        have hsame := (Tree.sameDirectories_insert hplace module.render.toUTF8).symm
        refine ⟨(place, module.render.toUTF8) :: files, ?_, htree, ?_⟩
        · rw [documenting, List.filter_cons_of_pos (by simp [hbuild, Except.toOption])]
          exact .cons ⟨module, hbuild, hlocate, hplace, rfl⟩
            (hfiles.imp fun _ _ hfile => hfile.transport hsame)
        · rw [hcount, hone, List.length_cons]
          omega

/-! ## Names and places -/

theorem isAlphanumeric_baseName (settings : Settings) (document : Document) :
    IsAlphanumeric (baseName settings document) := by
  refine (isAlphanumeric_pascalCase _).append ?_
  cases settings.naming with
  | path => exact isAlphanumeric_ofUrl _
  | name => exact isAlphanumeric_pascalCase _

theorem filename_of_build {document : Document} {module : Module}
    (h : Module.build settings document = .ok (some module)) :
    module.filename = baseName settings document ++ settings.extension := by
  obtain ⟨_, _, _, rfl⟩ := Endpoint.build_eq_some.mp h
  rfl

theorem splitParts_plain {text : List Char} (h : '/' ∉ text) : Path.splitParts text = [text] := by
  induction text with
  | nil => rfl
  | cons c text ih =>
      obtain ⟨hne, hrest⟩ := List.ne_and_not_mem_of_not_mem_cons h
      rw [Path.splitParts, ih hrest]
      exact fun heq => hne heq.symm

theorem rootOf_plain {text : List Char} (h : '/' ∉ text) : Path.rootOf text = "" := by
  cases text with
  | nil => rfl
  | cons c text =>
      have hne : c ≠ '/' := fun heq => h (heq ▸ List.mem_cons_self)
      unfold Path.rootOf
      split <;> simp_all

/-- The place of a name in a directory. -/
def placeIn (directory : Location) (name : String) : Location :=
  if name = "" ∨ name = "." then directory
  else if name = ".." then directory.dropLast
  else directory ++ [name]

/-- A name without slashes leads into the directory that the path before it
leads to. -/
theorem locate_append_plain {tree : Tree} {name : String} {place : Location}
    (hplain : '/' ∉ name.toList) (h : tree.locate (output ++ Path.ofString name) = .ok place) :
    ∃ directory, tree.walk (tree.origin output) output.parts = .ok directory ∧
      place = placeIn directory name := by
  have hpath : output ++ Path.ofString name =
      ⟨output.root, output.parts ++ [name].filter fun part => part ≠ "" ∧ part ≠ "."⟩ := by
    change Path.append _ _ = _
    rw [Path.append, Path.ofString, rootOf_plain hplain, splitParts_plain hplain]
    simp [Path.isAbsolute]
  rw [hpath, Tree.locate] at h
  split at h
  next =>
    rw [Tree.walk_append] at h
    obtain ⟨directory, hdirectory, hlast⟩ := bind_eq_ok h
    refine ⟨directory, hdirectory, ?_⟩
    rw [placeIn]
    split
    next hvacant =>
      rw [List.filter_cons_of_neg (by simpa using not_and_or.mpr (hvacant.imp not_not.mpr not_not.mpr))]
        at hlast
      exact (Except.ok.inj hlast).symm
    next hname =>
      rw [List.filter_cons_of_pos (by simpa using not_or.mp hname)] at hlast
      obtain ⟨_, _, hlast⟩ := Tree.walk_cons_eq_ok.mp hlast
      exact (Except.ok.inj hlast).symm
  next => cases h

/-- An identifier with an ending is a name of its own, unless it is empty. -/
theorem placeIn_of_ne_empty {directory : Location} {base ending : String}
    (hbase : IsAlphanumeric base) (hne : base ≠ "") :
    placeIn directory (base ++ ending) = directory ++ [base ++ ending] := by
  obtain ⟨c, rest, htext⟩ := List.exists_cons_of_ne_nil (mt String.toList_eq_nil_iff.mp hne)
  have hc : c.isAlphanum = true := hbase c (htext ▸ List.mem_cons_self)
  have hdot : c ≠ '.' := by
    rintro rfl
    cases hc
  have hname (other : String) (hother : other.toList.head? ≠ some c) : base ++ ending ≠ other := by
    rintro rfl
    simp [htext] at hother
  rw [placeIn, if_neg (not_or.mpr ⟨hname "" (by simp), hname "." (by simpa using hdot.symm)⟩),
    if_neg (hname ".." (by simpa using hdot.symm))]

/-- Different identifiers with one ending have different places. -/
theorem placeIn_inj {directory : Location} {first second ending : String}
    (hfirst : IsAlphanumeric first) (hsecond : IsAlphanumeric second)
    (h : placeIn directory (first ++ ending) = placeIn directory (second ++ ending)) :
    first = second := by
  -- where an empty identifier leads, no other one does
  have hempty {base : String} (hbase : IsAlphanumeric base)
      (heq : placeIn directory ("" ++ ending) = placeIn directory (base ++ ending)) : base = "" := by
    by_contra hne
    rw [placeIn_of_ne_empty hbase hne, String.empty_append] at heq
    unfold placeIn at heq
    split at heq
    · simpa using congrArg List.length heq
    · split at heq
      · have hlength := congrArg List.length heq
        simp only [List.length_dropLast, List.length_append, List.length_singleton] at hlength
        omega
      · have hsame := List.singleton_inj.mp (List.append_cancel_left heq)
        have htext := congrArg String.toList hsame
        simp [hne] at htext
  by_cases hnil : first = ""
  · subst hnil
    exact (hempty hsecond h).symm
  by_cases hnil' : second = ""
  · subst hnil'
    exact hempty hfirst h.symm
  rw [placeIn_of_ne_empty hfirst hnil, placeIn_of_ne_empty hsecond hnil'] at h
  have hname := List.singleton_inj.mp (List.append_cancel_left h)
  exact String.append_left_inj _ |>.mp hname

theorem rel_of_getElem? {α β : Type} {R : α → β → Prop} {items : List α} {others : List β}
    (h : List.Forall₂ R items others) {i : Nat} {item : α} {other : β}
    (hitem : items[i]? = some item) (hother : others[i]? = some other) : R item other := by
  obtain ⟨hi, rfl⟩ := List.getElem?_eq_some_iff.mp hitem
  obtain ⟨hi', rfl⟩ := List.getElem?_eq_some_iff.mp hother
  exact h.get hi hi'

/-! ## A whole generation -/

/-- The file name of the module of a document leads to a place. -/
def LeadsTo (settings : Settings) (output : Path) (tree : Tree) (document : Document)
    (place : Location) : Prop :=
  tree.locate (output ++ Path.ofString (baseName settings document ++ settings.extension)) = .ok place

/-- The module of a document stands at a place. -/
def StandsAt (settings : Settings) (tree : Tree) (document : Document) (place : Location) : Prop :=
  ∃ module, Module.build settings document = .ok (some module) ∧
    tree.get? place = some (.file module.render.toUTF8)

theorem HasFile.leadsTo {tree : Tree} {document : Document} {file : Location × ByteArray}
    (h : HasFile settings output tree document file) :
    LeadsTo settings output tree document file.1 := by
  obtain ⟨module, hbuild, hlocate, _⟩ := h
  rwa [LeadsTo, ← filename_of_build hbuild]

/-- Documents lead to distinct places if and only if they have distinct base
names, unless the extension itself holds a slash. -/
theorem nodup_places_iff {tree : Tree} {documents : List Document} {places : List Location}
    (h : List.Forall₂ (LeadsTo settings output tree) documents places)
    (hplain : '/' ∉ settings.extension.toList) :
    places.Nodup ↔ (documents.map (baseName settings)).Nodup := by
  have hname {document : Document} {place : Location}
      (hlead : LeadsTo settings output tree document place) :
      ∃ directory, tree.walk (tree.origin output) output.parts = .ok directory ∧
        place = placeIn directory (baseName settings document ++ settings.extension) := by
    refine locate_append_plain ?_ hlead
    rw [String.toList_append, List.mem_append]
    rintro (hmem | hmem)
    · exact absurd (isAlphanumeric_baseName settings document _ hmem) (by decide)
    · exact hplain hmem
  induction h with
  | nil => simp
  | @cons document place documents places hlead hrest ih =>
      obtain ⟨directory, hdirectory, rfl⟩ := hname hlead
      rw [List.nodup_cons, List.map_cons, List.nodup_cons]
      refine and_congr (not_congr ⟨?_, ?_⟩) ih
      · intro hmem
        obtain ⟨other, hother, hlead'⟩ := exists_left_of_forall₂ hrest hmem
        obtain ⟨directory', hdirectory', heq⟩ := hname hlead'
        obtain rfl := Except.ok.inj (hdirectory.symm.trans hdirectory')
        rw [placeIn_inj (isAlphanumeric_baseName _ _) (isAlphanumeric_baseName _ _) heq]
        exact List.mem_map_of_mem hother
      · intro hmem
        obtain ⟨other, hother, heq⟩ := List.mem_map.mp hmem
        obtain ⟨place', hplace', hlead'⟩ := exists_right_of_forall₂ hrest hother
        obtain ⟨directory', hdirectory', rfl⟩ := hname hlead'
        obtain rfl := Except.ok.inj (hdirectory.symm.trans hdirectory')
        rwa [heq] at hplace'

/-- A generation without a fault goes on from the tree that was prepared. -/
theorem exists_prepare_of_run {documents : List Document} {tree : Tree}
    (h : (run settings verbose output documents tree).fault = none) :
    ∃ prepared, tree.prepare output settings.keep = .ok prepared ∧
      run settings verbose output documents tree =
        documents.foldl (add settings verbose output) { tree := prepared } := by
  unfold run at h ⊢
  cases hprepared : tree.prepare output settings.keep with
  | error fault =>
      rw [hprepared] at h
      cases h
  | ok prepared => exact ⟨prepared, rfl, rfl⟩

/-- A generation without a fault puts the files of all modules into the tree that
was prepared. -/
theorem run_ok {documents : List Document} {tree : Tree}
    (h : (run settings verbose output documents tree).fault = none) :
    ∃ prepared files, tree.prepare output settings.keep = .ok prepared ∧
      List.Forall₂ (HasFile settings output prepared) (documenting settings documents) files ∧
      (run settings verbose output documents tree).tree = prepared.putAll files ∧
      (run settings verbose output documents tree).endpoints = files.length := by
  obtain ⟨prepared, hprepared, hrun⟩ := exists_prepare_of_run h
  rw [hrun] at h ⊢
  obtain ⟨_, files, hfiles, htree, hcount⟩ := foldl_add_ok h
  exact ⟨prepared, files, hprepared, hfiles, htree, by simpa using hcount⟩

/-- A generation without a fault counts one module for every document that
documents something. The last module that leads to a place stands there. So
there are as many module files as were counted, each document having its own
module, if and only if the places are distinct; and they are if and only if the
base names are. -/
theorem run_keeps_modules_iff {documents : List Document} {tree : Tree}
    (h : (run settings verbose output documents tree).fault = none) :
    ∃ places,
      List.Forall₂ (LeadsTo settings output (run settings verbose output documents tree).tree)
        (documenting settings documents) places ∧
      (run settings verbose output documents tree).endpoints = places.length ∧
      (∀ i document place, (documenting settings documents)[i]? = some document →
        places[i]? = some place → place ∉ places.drop (i + 1) →
        StandsAt settings (run settings verbose output documents tree).tree document place) ∧
      ((places.toFinset.card = (run settings verbose output documents tree).endpoints ∧
          List.Forall₂ (StandsAt settings (run settings verbose output documents tree).tree)
            (documenting settings documents) places) ↔ places.Nodup) ∧
      ('/' ∉ settings.extension.toList →
        (places.Nodup ↔ ((documenting settings documents).map (baseName settings)).Nodup)) := by
  obtain ⟨prepared, files, _, hfiles, htree, hcount⟩ := run_ok h
  have hsame : prepared.SameDirectories (prepared.putAll files) :=
    Tree.sameDirectories_putAll fun file hmem => by
      obtain ⟨_, _, _, _, _, hfile, _⟩ := exists_left_of_forall₂ hfiles hmem
      exact hfile
  have hleads : List.Forall₂ (LeadsTo settings output (prepared.putAll files))
      (documenting settings documents) (files.map Prod.fst) :=
    List.forall₂_map_right_iff.mpr
      (hfiles.imp fun _ _ hfile => (hfile.transport hsame).leadsTo)
  have hlast : ∀ i document place, (documenting settings documents)[i]? = some document →
      (files.map Prod.fst)[i]? = some place → place ∉ (files.map Prod.fst).drop (i + 1) →
      StandsAt settings (prepared.putAll files) document place := by
    intro i document place hdocument hplace hlater
    rw [List.getElem?_map, Option.map_eq_some_iff] at hplace
    obtain ⟨file, hfile, rfl⟩ := hplace
    obtain ⟨module, hbuild, _, hdirectory, hbytes⟩ := rel_of_getElem? hfiles hdocument hfile
    have hsplit : files = files.take i ++ file :: files.drop (i + 1) := by
      obtain ⟨hi, rfl⟩ := List.getElem?_eq_some_iff.mp hfile
      rw [List.getElem_cons_drop, List.take_append_drop]
    refine ⟨module, hbuild, ?_⟩
    rw [hsplit, hbytes]
    exact Tree.get?_putAll_append (Tree.ne_nil_of_get?_ne hdirectory) (List.map_drop ▸ hlater)
  rw [htree, hcount]
  refine ⟨files.map Prod.fst, hleads, (List.length_map _).symm, hlast, ?_, nodup_places_iff hleads⟩
  constructor
  · rintro ⟨hcard, _⟩
    rw [← List.length_map Prod.fst, List.card_toFinset] at hcard
    exact List.dedup_eq_self.mp ((List.dedup_sublist _).eq_of_length hcard)
  · intro hnodup
    refine ⟨(List.toFinset_card_of_nodup hnodup).trans (List.length_map _), ?_⟩
    refine List.forall₂_iff_get.mpr ⟨hleads.length_eq, fun i hdocument hplace => ?_⟩
    refine hlast i _ _ (List.getElem?_eq_getElem hdocument) (List.getElem?_eq_getElem hplace) ?_
    have hrest := (List.drop_sublist i (files.map Prod.fst)).nodup hnodup
    rw [List.drop_eq_getElem_cons hplace] at hrest
    exact (List.nodup_cons.mp hrest).1

section Examples

open Endpoint Schema

/-- A request for users whose body is a single value. -/
def userDocument (path : String) (body : Json) : Document where
  path := path
  name := "Users"
  method := "get"
  url := "/users"
  body := body
  headers := none
  query := none
  params := none
  responses := []

/-- The draft of a value without shapes. -/
def plainDraft (type : String) : Json := draftWith (ofType (.str type)) []

def userModule (expr : Zod.Expr) : Module where
  filename := "GetUsers.ts"
  segments := [Zod.constantDeclaration "getUsersBodySchema" expr]
  typeExports := ["export type GetUsersBody = z.infer<typeof getUsersBodySchema>;"]
  importLine := "import \x7b z \x7d from \"zod\";"

theorem baseName_userDocument (path : String) (body : Json) :
    baseName {} (userDocument path body) = "GetUsers" := by
  have hmethod : Identifier.pascalCase "get" = "Get" := by cbv
  have hurl : Identifier.ofUrl "/users" = "Users" := by cbv
  change Identifier.pascalCase "get" ++ Identifier.ofUrl "/users" = _
  rw [hmethod, hurl]
  rfl

theorem namedSamples_userDocument {body : Json} (hbody : isBlankSample body = false) (path : String) :
    namedSamples "GetUsers" (userDocument path body) = [("GetUsersBody", body)] := by
  have hnull : body ≠ .null := fun heq => by simp [heq, isBlankSample] at hbody
  simp [namedSamples, samples, userDocument, Request.tableValue, hnull]

theorem isAlphanumeric_getUsersBody : IsAlphanumeric "GetUsersBody" := by
  simp [IsAlphanumeric]

theorem pascalCase_getUsersBody : Identifier.pascalCase "GetUsersBody" = "GetUsersBody" :=
  (Identifier.pascalCase_eq_self_iff isAlphanumeric_getUsersBody).mpr
    (by simp [Identifier.beginsSmall])

theorem build_userDocument {body : Json} {type : String} {expr : Zod.Expr}
    (hbody : isBlankSample body = false) (hwritable : body.writable = true)
    (hschema : sampleSchema "GetUsersBody" body [] = .ok (plainDraft type))
    (hexpr : Zod.Expr.ofSchema ((plainDraft type).erase "definitions") = .ok expr) (path : String) :
    Module.build {} (userDocument path body) = .ok (some (userModule expr)) := by
  have hnodes : declaredNodes "GetUsersBody" (plainDraft type) =
      [("getUsersBodySchema", (plainDraft type).erase "definitions")] := by
    have hconstant : Identifier.schemaConstant "GetUsersBody" = "getUsersBodySchema" := by
      have hletters := Identifier.toList_schemaConstant isAlphanumeric_getUsersBody
      rw [pascalCase_getUsersBody] at hletters
      exact String.toList_inj.mp (hletters.trans (by simp))
    rw [declaredNodes, hconstant]
    rfl
  have hcomponent : Synthesizer.standard.component "GetUsersBody" body [] =
      .ok ⟨(userModule expr).segments, (userModule expr).typeExports, ["GetUsersBody"]⟩ := by
    refine (component_eq_ok hbody).mpr ⟨hwritable, plainDraft type, ?_, ?_, ?_, ?_⟩ <;>
      rw [pascalCase_getUsersBody]
    · exact hschema
    · rw [hnodes]
      exact .cons ⟨expr, hexpr, rfl⟩ .nil
    · rfl
    · rw [hnodes]
      rfl
  refine build_eq_some.mpr ⟨[⟨(userModule expr).segments, (userModule expr).typeExports,
    ["GetUsersBody"]⟩], ?_, by simp [userModule], ?_⟩
  · rw [components, baseName_userDocument, namedSamples_userDocument hbody]
    simp [declareFrom, pascalCase_getUsersBody, hcomponent, ok_bind]
  · rw [baseName_userDocument]
    rfl

/-- The output directory before anything is written. -/
def emptyOutput : Files.Tree :=
  ((Files.Tree.bare ["home"]).insert ["home", "out"] .directory).clear ["home", "out"]

theorem prepare_bare : (Files.Tree.bare ["home"]).prepare ⟨"", ["out"]⟩ false = .ok emptyOutput := rfl

theorem draft_plain : Schema.draft "GetUsersBody" [.int 1] = .ok (plainDraft "integer") ∧
    Schema.draft "GetUsersBody" [.bool true] = .ok (plainDraft "boolean") := by
  decide +kernel

theorem build_count : Module.build {} (userDocument "count.bru" (.int 1)) =
    .ok (some (userModule .integer)) :=
  build_userDocument rfl (by simp [Json.writable, integerFits_one])
    (sampleSchema_eq_ok.mpr ⟨plainDraft "integer", plainDraft "integer", draft_plain.1, rfl, by cbv⟩)
    (by cbv) _

theorem build_flag : Module.build {} (userDocument "flag.bru" (.bool true)) =
    .ok (some (userModule .boolean)) :=
  build_userDocument rfl rfl
    (sampleSchema_eq_ok.mpr ⟨plainDraft "boolean", plainDraft "boolean", draft_plain.2, rfl, by cbv⟩)
    (by cbv) _

theorem entries_emptyOutput :
    emptyOutput.entries = [(["home"], .directory), (["home", "out"], .directory)] := rfl

theorem get?_emptyOutput (place : Location) (bytes : ByteArray) :
    emptyOutput.get? place ≠ some (.file bytes) := by
  intro h
  rw [Files.Tree.get?, entries_emptyOutput] at h
  split at h
  · cases h
  · obtain ⟨entry, hfound, hentry⟩ := Option.map_eq_some_iff.mp h
    rcases List.mem_pair.mp (List.mem_of_find?_eq_some hfound) with rfl | rfl <;> cases hentry

theorem free_emptyOutput : emptyOutput.get? ["home", "out", "GetUsers.ts"] ≠ some .directory := by
  rw [Files.Tree.get?, entries_emptyOutput]
  simp

theorem locate_userModule (expr : Zod.Expr) :
    emptyOutput.locate (filePath ⟨"", ["out"]⟩ (userModule expr)) =
      .ok ["home", "out", "GetUsers.ts"] := by
  change emptyOutput.locate (Files.Path.append ⟨"", ["out"]⟩ (Files.Path.ofString "GetUsers.ts")) = _
  cbv

theorem run_bare (documents : List Document) :
    run {} false ⟨"", ["out"]⟩ documents (Files.Tree.bare ["home"]) =
      documents.foldl (add {} false ⟨"", ["out"]⟩) { tree := emptyOutput } := by
  rw [run, prepare_bare]

theorem run_count : (run {} false ⟨"", ["out"]⟩ [userDocument "count.bru" (.int 1)]
    (Files.Tree.bare ["home"])).fault = none := by
  have hadded := @add_of_locate {} false ⟨"", ["out"]⟩ { tree := emptyOutput } _ _ _ rfl build_count
    (locate_userModule _) free_emptyOutput
  rw [run_bare, List.foldl_cons, List.foldl_nil]
  exact hadded.1

theorem run_keeps_count :
    (run {} false ⟨"", ["out"]⟩ [userDocument "count.bru" (.int 1)] (Files.Tree.bare ["home"])).fault =
      none ∧
    ∃ place, StandsAt {} (run {} false ⟨"", ["out"]⟩ [userDocument "count.bru" (.int 1)]
      (Files.Tree.bare ["home"])).tree (userDocument "count.bru" (.int 1)) place := by
  obtain ⟨places, hleads, hcount, hlast, hkept, hnames⟩ := run_keeps_modules_iff run_count
  refine ⟨run_count, ?_⟩
  have hdocumenting : documenting {} [userDocument "count.bru" (.int 1)] =
      [userDocument "count.bru" (.int 1)] := by
    rw [documenting, List.filter_cons_of_pos (by rw [build_count]; rfl)]
    rfl
  rw [hdocumenting] at hkept hnames
  have hplaces : places.Nodup := (hnames (by decide)).mpr (by simp)
  obtain ⟨_, hstands⟩ := hkept.mpr hplaces
  obtain ⟨place, _, hstand⟩ := exists_right_of_forall₂ hstands List.mem_cons_self
  exact ⟨place, hstand⟩

/-- Two requests for users, which differ in their bodies, are both counted, but
there is one file. -/
theorem users_share_file :
    let generation := run {} false ⟨"", ["out"]⟩
      [userDocument "count.bru" (.int 1), userDocument "flag.bru" (.bool true)]
      (Files.Tree.bare ["home"])
    generation.fault = none ∧ generation.endpoints = 2 ∧
      ∀ place bytes, generation.tree.get? place = some (.file bytes) →
        place = ["home", "out", "GetUsers.ts"] ∧ bytes = (userModule .boolean).render.toUTF8 := by
  have hsame := Files.Tree.sameDirectories_insert free_emptyOutput (userModule .integer).render.toUTF8
  obtain ⟨hfault, htree, hcount⟩ := @add_of_locate {} false ⟨"", ["out"]⟩ { tree := emptyOutput } _ _ _
    rfl build_count (locate_userModule _) free_emptyOutput
  rw [run_bare, List.foldl_cons, List.foldl_cons, List.foldl_nil]
  generalize add {} false ⟨"", ["out"]⟩ { tree := emptyOutput }
    (userDocument "count.bru" (.int 1)) = generation at hfault htree hcount
  obtain ⟨hfault', htree', hcount'⟩ := @add_of_locate {} false ⟨"", ["out"]⟩ generation _ _ _
    hfault build_flag (htree ▸ hsame.locate (locate_userModule _))
    (htree ▸ (not_congr (hsame.directory _)).mp free_emptyOutput)
  refine ⟨hfault', by rw [hcount', hcount], fun place bytes hget => ?_⟩
  rw [htree', htree] at hget
  by_cases hplace : place = ["home", "out", "GetUsers.ts"]
  · subst hplace
    rw [Files.Tree.get?_insert_self _ _ (by simp)] at hget
    cases hget
    exact ⟨rfl, rfl⟩
  · rw [Files.Tree.get?_insert_of_ne _ _ hplace, Files.Tree.get?_insert_of_ne _ _ hplace] at hget
    exact absurd hget (get?_emptyOutput place bytes)

end Examples

end RequestShapes.Generation
