import RequestShapes.Command.Run
import RequestShapes.Proofs.Generation
import RequestShapes.Proofs.Request.Collecting

/-!
# What a command changes

A command that has nothing to generate leaves the tree as it is. When modules
are generated, the tree, the count at the end and the warnings are those of a
generation from the documents that can be read; every other file of the
collection has one warning and no further part in it.
-/

namespace RequestShapes.Command

open Files (Path Tree)
open Request (Document IsDocument)

variable {tree : Tree} {options : GenerateOptions}

/-! ## Settings -/

/-- The settings with what the options ask for. -/
def GenerateOptions.merged (options : GenerateOptions) (settings : Settings) : Settings :=
  { settings with
    naming := options.naming.getD settings.naming
    keep := options.keep || settings.keep }

theorem override_overrides (options : GenerateOptions) (settings : Settings) :
    settings.override options.overrides = options.merged settings := by
  obtain ⟨input, output, keep, naming, file, verbose⟩ := options
  cases keep <;> rfl

/-! ## Nothing to generate -/

/-- Why there is nothing to generate: the settings cannot be used, the collection
is not there, or it has no documents. -/
inductive Idle (tree : Tree) (options : GenerateOptions) : Prop
  | settings {ending : Ending} : settingsOf tree options.settings = .error ending →
      Idle tree options
  | absent : tree.at? (tree.resolve options.input) = .ok none → Idle tree options
  | empty : (∀ path, ¬ IsDocument tree (tree.resolve options.input) path) → Idle tree options

/-- There is something to generate: a collection with documents at some paths. -/
structure Ready (tree : Tree) (options : GenerateOptions) (settings : Settings)
    (paths : List Path) : Prop where
  settings : settingsOf tree options.settings = .ok settings
  present : tree.at? (tree.resolve options.input) ≠ .ok none
  found : Request.documentPaths tree (tree.resolve options.input) = .ok paths
  nonempty : paths ≠ []

theorem Ready.not_idle {settings : Settings} {paths : List Path}
    (h : Ready tree options settings paths) : ¬ Idle tree options := by
  intro hidle
  cases hidle with
  | settings hsettings =>
      rw [h.settings] at hsettings
      cases hsettings
  | absent habsent => exact h.present habsent
  | empty hempty =>
      obtain ⟨path, hmem⟩ := List.exists_mem_of_ne_nil paths h.nonempty
      exact hempty path (((Request.documentPaths_ok h.found).1 path).mp hmem)

/-- A command to generate modules leaves the tree as it is, and then finishes only
if there is nothing to generate, or it generates modules from the documents. -/
theorem generateModules_cases (tree : Tree) (options : GenerateOptions) :
    ((generateModules tree options).tree = tree ∧
        ((generateModules tree options).ending = .finished → Idle tree options)) ∨
      ∃ settings paths, Ready tree options settings paths ∧
        generateModules tree options = generateFrom tree (options.merged settings) options.verbose
          (tree.resolve options.input) (tree.resolve options.output) paths := by
  -- on every way but the last one nothing was written yet
  unfold generateModules
  cases hsettings : settingsOf tree options.settings with
  | error ending => exact .inl ⟨rfl, fun _ => .settings hsettings⟩
  | ok settings =>
      dsimp only
      split
      next => exact .inl ⟨rfl, fun hfinished => by cases hfinished⟩
      next =>
        split
        next => exact .inl ⟨rfl, fun hfinished => by cases hfinished⟩
        next => exact .inl ⟨rfl, fun hfinished => by cases hfinished⟩
        next hat _ => exact .inl ⟨rfl, fun _ => .absent hat⟩
        next hat hpaths =>
          refine .inl ⟨rfl, fun _ => .empty fun path hdocument => ?_⟩
          cases ((Request.documentPaths_ok hpaths).1 path).mpr hdocument
        next entry paths hnonempty hat hpaths =>
          have hpresent : tree.at? (tree.resolve options.input) ≠ .ok none := by
            rw [hat]
            exact fun heq => by cases heq
          refine .inr ⟨settings, paths, ⟨hsettings, hpresent, hpaths, hnonempty⟩, ?_⟩
          rw [override_overrides]

/-! ## Documents that can be read -/

/-- The documents in the files at some paths, without those that cannot be
read. -/
def readable (tree : Tree) (paths : List Path) : List Document :=
  paths.filterMap fun path => (Document.load tree path).toOption

/-- The paths whose files can be read. -/
def readablePaths (tree : Tree) (paths : List Path) : List Path :=
  paths.filter fun path => (Document.load tree path).toOption.isSome

/-- The warning about a file that cannot be read. -/
def warning? (tree : Tree) (path : Path) : Option Notice :=
  match Document.load tree path with
  | .ok _ => none
  | .error fault => some (.skipped path fault)

/-- What a command says and leaves that generates modules from some paths. The
files that cannot be read only have a warning each; all else comes from a
generation from the other ones. -/
structure Outcome.Generates (outcome : Outcome) (tree : Tree) (settings : Settings)
    (verbose : Bool) (input output : Path) (paths : List Path) (generation : Generation) :
    Prop where
  ran : generation = Generation.run settings verbose output (readable tree paths) tree
  fault : generation.fault = none
  left : outcome.tree = generation.tree
  warnings : outcome.notices.filter Notice.isWarning =
    paths.filterMap (warning? tree) ++ generation.notices.filter Notice.isWarning
  results : outcome.notices.filter (fun notice => !notice.isWarning) =
    (if verbose then .found paths.length input :: (readablePaths tree paths).map .parsed else []) ++
      generation.notices.filter (fun notice => !notice.isWarning) ++
      [.documented generation.endpoints generation.declarations]

theorem warnings_reading (tree : Tree) (verbose : Bool) (paths : List Path) :
    ((paths.flatMap fun path => loadNotices verbose path (Document.load tree path)).filter
      Notice.isWarning) = paths.filterMap (warning? tree) := by
  induction paths with
  | nil => rfl
  | cons path paths ih =>
      rw [List.flatMap_cons, List.filter_append, ih]
      cases hload : Document.load tree path with
      | ok document =>
          rw [List.filterMap_cons_none (by rw [warning?, hload])]
          cases verbose <;> rfl
      | error fault =>
          rw [List.filterMap_cons_some (by rw [warning?, hload])]
          rfl

theorem results_reading (tree : Tree) (verbose : Bool) (paths : List Path) :
    ((paths.flatMap fun path => loadNotices verbose path (Document.load tree path)).filter
      fun notice => !notice.isWarning) =
      if verbose then (readablePaths tree paths).map .parsed else [] := by
  induction paths with
  | nil => cases verbose <;> rfl
  | cons path paths ih =>
      rw [List.flatMap_cons, List.filter_append, ih, readablePaths, readablePaths]
      cases hload : Document.load tree path with
      | ok document =>
          rw [List.filter_cons_of_pos (by rw [hload]; rfl)]
          cases verbose <;> rfl
      | error fault =>
          rw [List.filter_cons_of_neg (by rw [hload]; simp [Except.toOption])]
          rfl

/-- Generating from some paths finishes if the generation from the documents that
can be read does. -/
theorem generateFrom_finished_iff {settings : Settings} {verbose : Bool} {input output : Path}
    {paths : List Path} :
    (generateFrom tree settings verbose input output paths).ending = .finished ↔
      (Generation.run settings verbose output (readable tree paths) tree).fault = none := by
  have hreadable : (paths.map fun path => (path, Document.load tree path)).filterMap
      (fun loaded => loaded.2.toOption) = readable tree paths := List.filterMap_map
  simp only [generateFrom, hreadable]
  split
  next fault hfault => simp [hfault]
  next hfault => simp [hfault]

theorem generateFrom_generates {settings : Settings} {verbose : Bool} {input output : Path}
    {paths : List Path}
    (h : (generateFrom tree settings verbose input output paths).ending = .finished) :
    ∃ generation, (generateFrom tree settings verbose input output paths).Generates tree settings
      verbose input output paths generation := by
  have hreadable : (paths.map fun path => (path, Document.load tree path)).filterMap
      (fun loaded => loaded.2.toOption) = readable tree paths := List.filterMap_map
  have hreading : (paths.map fun path => (path, Document.load tree path)).flatMap
      (fun loaded => loadNotices verbose loaded.1 loaded.2) =
        paths.flatMap fun path => loadNotices verbose path (Document.load tree path) :=
    List.flatMap_map _ _ _
  have hwarnings := warnings_reading tree verbose paths
  have hresults := results_reading tree verbose paths
  unfold generateFrom at h ⊢
  dsimp only at h ⊢
  rw [hreadable, hreading] at h ⊢
  generalize hgeneration : Generation.run settings verbose output (readable tree paths) tree =
    generation at h ⊢
  cases hfault : generation.fault with
  | some fault =>
      rw [hfault] at h
      cases h
  | none =>
      refine ⟨generation, hgeneration.symm, hfault, rfl, ?_, ?_⟩
      · simp only [List.filter_append, hwarnings]
        cases verbose <;> simp [Notice.isWarning]
      · simp only [List.filter_append, hresults]
        cases verbose <;> simp [Notice.isWarning]

/-- A command that asks for no modules leaves the tree as it is, and so does one
that has nothing to generate. If there is something to generate and the command
finishes, it has generated modules, with the merged settings, from all documents
of the collection that can be read, in the order of their paths. -/
theorem run_generates (tree : Tree) (arguments : List String) :
    ((∀ options, parse arguments ≠ .ok (.generate options)) → (run tree arguments).tree = tree) ∧
      ∀ options, parse arguments = .ok (.generate options) →
        (Idle tree options → (run tree arguments).tree = tree) ∧
        (¬ Idle tree options → (run tree arguments).ending = .finished →
          ∃ settings paths generation, Ready tree options settings paths ∧
            (∀ path, path ∈ paths ↔ IsDocument tree (tree.resolve options.input) path) ∧
            (paths.Pairwise fun first second =>
              first.components.lex second.components = true) ∧
            (run tree arguments).Generates tree (options.merged settings) options.verbose
              (tree.resolve options.input) (tree.resolve options.output) paths generation) := by
  refine ⟨fun hother => ?_, fun options hparse => ?_⟩
  · unfold run
    split
    next => rfl
    next => rfl
    next options hparse => exact absurd hparse (hother options)
    next path _ =>
      unfold showDocument
      split <;> rfl
  · have hrun : run tree arguments = generateModules tree options := by
      rw [run, hparse]
    rw [hrun]
    rcases generateModules_cases tree options with ⟨htree, hidle⟩ | ⟨settings, paths, hready, heq⟩
    · exact ⟨fun _ => htree, fun hnot hfinished => absurd (hidle hfinished) hnot⟩
    · refine ⟨fun hidle => absurd hidle hready.not_idle, fun _ hfinished => ?_⟩
      rw [heq] at hfinished ⊢
      obtain ⟨generation, hgenerates⟩ := generateFrom_generates hfinished
      obtain ⟨hdocuments, hordered⟩ := Request.documentPaths_ok hready.found
      exact ⟨settings, paths, generation, hready, hdocuments, hordered, hgenerates⟩

section Examples

open Generation (userDocument userModule build_userDocument filePath add_of_locate)

/-- A collection with a file that is no text, and a request for users. -/
def mixedTree : Tree where
  here := ["home"]
  entries := [(["home"], .directory), (["home", "in"], .directory),
    (["home", "in", "Broken.bru"], .file ⟨#[255]⟩),
    (["home", "in", "Users.bru"],
      .file "get \x7b\n  url: /users\n\x7d\n\nbody:json \x7b\n  1\n\x7d\n".toUTF8)]
  distinct := by decide

def mixedOptions : GenerateOptions where
  input := ⟨"", ["in"]⟩
  output := ⟨"", ["out"]⟩
  keep := false
  naming := none
  settings := none
  verbose := false

def inputPath : Path := ⟨"/", ["home", "in"]⟩

def outputPath : Path := ⟨"/", ["home", "out"]⟩

def brokenPath : Path := ⟨"/", ["home", "in", "Broken.bru"]⟩

def usersPath : Path := ⟨"/", ["home", "in", "Users.bru"]⟩

theorem parse_mixed :
    parse ["generate", "-i", "in", "-o", "out"] = .ok (.generate mixedOptions) := by
  decide +kernel

theorem load_mixed : Document.load mixedTree brokenPath = .error (.encoding ⟨0, 1, 255, .startByte⟩) ∧
    Document.load mixedTree usersPath = .ok (userDocument "/home/in/Users.bru" (.int 1)) := by
  constructor <;> decide +kernel

theorem readable_mixed : readable mixedTree [brokenPath, usersPath] =
    [userDocument "/home/in/Users.bru" (.int 1)] := by
  simp [readable, load_mixed, Except.toOption]

theorem at?_inputPath : mixedTree.at? inputPath = .ok (some .directory) := by
  decide +kernel

theorem ready_mixed : Ready mixedTree mixedOptions {} [brokenPath, usersPath] where
  settings := rfl
  present := by decide +kernel
  found := by cbv
  nonempty := by simp

theorem run_mixed : run mixedTree ["generate", "-i", "in", "-o", "out"] =
    generateFrom mixedTree {} false inputPath outputPath [brokenPath, usersPath] := by
  have hinput : mixedTree.resolve mixedOptions.input = inputPath := by decide +kernel
  have houtput : mixedTree.resolve mixedOptions.output = outputPath := by decide +kernel
  have hnameable : (inputPath.isNameable && outputPath.isNameable) = true := by decide +kernel
  have hfound := ready_mixed.found
  rw [hinput] at hfound
  simp only [run, parse_mixed, generateModules, ready_mixed.settings, override_overrides, hinput,
    houtput, hnameable, at?_inputPath, hfound]
  rfl

theorem build_users : Endpoint.Module.build {} (userDocument "/home/in/Users.bru" (.int 1)) =
    .ok (some (userModule .integer)) :=
  build_userDocument rfl (by simp [Json.writable, Endpoint.integerFits_one])
    (Endpoint.sampleSchema_eq_ok.mpr ⟨_, _, Generation.draft_plain.1, rfl, by cbv⟩) (by cbv) _

theorem run_users :
    (Generation.run {} false outputPath [userDocument "/home/in/Users.bru" (.int 1)]
        mixedTree).fault = none ∧
      (Generation.run {} false outputPath [userDocument "/home/in/Users.bru" (.int 1)]
        mixedTree).tree.get? ["home", "out", "GetUsers.ts"] =
          some (.file (userModule .integer).render.toUTF8) := by
  obtain ⟨prepared, hprepare⟩ : ∃ prepared, mixedTree.prepare outputPath false = .ok prepared :=
    ⟨_, rfl⟩
  have hlocate : prepared.locate (filePath outputPath (userModule .integer)) =
      .ok ["home", "out", "GetUsers.ts"] := by
    cases hprepare
    change Tree.locate _ (Files.Path.append outputPath (Files.Path.ofString "GetUsers.ts")) = _
    cbv
  have hfree : prepared.get? ["home", "out", "GetUsers.ts"] ≠ some .directory := by
    cases hprepare
    decide +kernel
  obtain ⟨hfault, htree, _⟩ := @add_of_locate {} false _ { tree := prepared } _ _ _ rfl build_users
    hlocate hfree
  simp only [Generation.run, hprepare, List.foldl_cons, List.foldl_nil, htree]
  exact ⟨hfault, Tree.get?_insert_self _ _ (by simp)⟩

theorem run_generates_mixed :
    let outcome := run mixedTree ["generate", "-i", "in", "-o", "out"]
    parse ["generate", "-i", "in", "-o", "out"] = .ok (.generate mixedOptions) ∧
      ¬ Idle mixedTree mixedOptions ∧ outcome.ending = .finished ∧
      .skipped brokenPath (.encoding ⟨0, 1, 255, .startByte⟩) ∈ outcome.notices ∧
      outcome.tree.get? ["home", "out", "GetUsers.ts"] =
        some (.file (userModule .integer).render.toUTF8) := by
  have hidle := ready_mixed.not_idle
  have hfinished : (run mixedTree ["generate", "-i", "in", "-o", "out"]).ending = .finished := by
    rw [run_mixed, generateFrom_finished_iff, readable_mixed]
    exact run_users.1
  obtain ⟨settings, paths, generation, hready, _, _, hgenerates⟩ :=
    ((run_generates mixedTree _).2 _ parse_mixed).2 hidle hfinished
  obtain rfl := Except.ok.inj (hready.settings.symm.trans ready_mixed.settings)
  obtain rfl := Except.ok.inj (hready.found.symm.trans ready_mixed.found)
  refine ⟨parse_mixed, hidle, hfinished, ?_, ?_⟩
  · have hskipped : .skipped brokenPath (.encoding ⟨0, 1, 255, .startByte⟩) ∈
        [brokenPath, usersPath].filterMap (warning? mixedTree) := by
      simp [warning?, load_mixed]
    have hwarning := List.mem_append_left (generation.notices.filter Notice.isWarning) hskipped
    rw [← hgenerates.warnings] at hwarning
    exact List.mem_of_mem_filter hwarning
  · rw [hgenerates.left, hgenerates.ran, readable_mixed]
    exact run_users.2

end Examples

end RequestShapes.Command
