import Mathlib.Data.List.Sort
import Mathlib.Data.String.Basic
import RequestShapes.Endpoint.Problem
import RequestShapes.Proofs.Endpoint.Naming
import RequestShapes.Proofs.Endpoint.Rewriting
import RequestShapes.Proofs.Zod.Reading

/-!
# Declarations found in a module

The check of a module text looks for declarations at the start of its lines. It finds
the constants of the segments in their order and nothing else, since every segment is
one line and no key of a sample begins a new one. So the constants that are found twice
are those of two segments.
-/

namespace RequestShapes.Endpoint

open Identifier (IsAlphanumeric isAlphanumeric_pascalCase isAlphanumeric_schemaConstant)
open Request (Absent Document absent_of_clashes absent_of_not_within dropWhile_run takeWhile_run)
open Schema (after?_append)
open Text

/-! ## Lines -/

section Lines

variable {line : List Char}

theorem declarationsFrom_false (h : '\n' ∉ line) (rest : List Char) :
    declarationsFrom false (line ++ '\n' :: rest) = declarationsFrom true rest := by
  induction line with
  | nil => rfl
  | cons c line ih =>
      rw [List.mem_cons, not_or] at h
      rw [List.cons_append, declarationsFrom, decide_eq_false (Ne.symm h.1)]
      exact ih h.2

/-- A line declares at its start, if it does. -/
theorem declarationsFrom_line (h : '\n' ∉ line) (rest : List Char) :
    declarationsFrom true (line ++ '\n' :: rest) =
      (declarationHere? (line ++ '\n' :: rest)).toList ++ declarationsFrom true rest := by
  cases line with
  | nil => rfl
  | cons c line =>
      rw [List.mem_cons, not_or] at h
      rw [List.cons_append, declarationsFrom, decide_eq_false (Ne.symm h.1),
        declarationsFrom_false h.2]
      rfl

/-- A line that declares something, or nothing, whatever follows it. -/
structure LineDeclares (declared : Option String) (line : List Char) : Prop where
  oneLine : '\n' ∉ line
  found : ∀ rest, declarationHere? (line ++ rest) = declared

theorem LineDeclares.declarationsFrom {declared : Option String}
    (h : LineDeclares declared line) (rest : List Char) :
    declarationsFrom true (line ++ '\n' :: rest) =
      declared.toList ++ declarationsFrom true rest := by
  rw [declarationsFrom_line h.oneLine, h.found]

theorem lineDeclares_none (hline : '\n' ∉ line)
    (h : ∀ rest, after? "export const ".toList (line ++ rest) = none) : LineDeclares none line :=
  ⟨hline, fun rest => by rw [declarationHere?, h rest]; rfl⟩

/-- Lines that declare something, with an empty line between them. -/
theorem declarationsFrom_spaced {constants : List String} {lines : List (List Char)}
    (h : List.Forall₂ (fun constant => LineDeclares (some constant)) constants lines)
    (hne : constants ≠ []) (rest : List Char) :
    declarationsFrom true (spaced lines ++ '\n' :: rest) =
      constants ++ declarationsFrom true rest := by
  induction h with
  | nil => exact absurd rfl hne
  | @cons constant line constants lines hline hlines ih =>
      cases hlines with
      | nil => rw [spaced, List.intercalate_singleton, hline.declarationsFrom]; rfl
      | cons =>
          have hlater := ih (List.cons_ne_nil _ _)
          rw [spaced, List.intercalate_cons_cons, List.append_assoc, List.append_assoc]
          refine (hline.declarationsFrom _).trans ?_
          exact congrArg (constant :: ·) hlater

/-- Lines that declare nothing. -/
theorem declarationsFrom_none {lines : List (List Char)}
    (h : ∀ line ∈ lines, LineDeclares none line) :
    declarationsFrom true (['\n'].intercalate lines ++ ['\n']) = [] := by
  induction lines with
  | nil => rfl
  | cons line lines ih =>
      obtain ⟨hline, hlines⟩ := List.forall_mem_cons.mp h
      cases lines with
      | nil => rw [List.intercalate_singleton, hline.declarationsFrom]; rfl
      | cons next later =>
          rw [List.intercalate_cons_cons, List.append_assoc, List.append_assoc]
          exact (hline.declarationsFrom _).trans (ih hlines)

end Lines

/-! ## The lines of a module -/

theorem isWord_of_isAlphanum {c : Char} (h : c.isAlphanum = true) : isWord c = true := by
  have hascii : isAscii c = true := by
    simp only [Char.isAlphanum, Char.isAlpha, Char.isUpper, Char.isLower, Char.isDigit,
      Bool.or_eq_true, Bool.and_eq_true, decide_eq_true_eq, ge_iff_le,
      UInt32.le_iff_toNat_le] at h
    simp at h
    simp only [isAscii, decide_eq_true_eq]
    omega
  rw [Char.isAlphanum, Bool.or_eq_true] at h
  simp only [isWord, isLetter, isNumeral, isDigit, hascii, if_true, Bool.or_eq_true]
  exact .inl (h.imp_right fun hdigit => .inl (.inl hdigit))

/-- A declaration stands on one line if its expression does. -/
theorem not_mem_newline_declaration {constant : String} (h : IsAlphanumeric constant)
    {expr : List Char} (hexpr : '\n' ∉ expr) :
    '\n' ∉ "export const ".toList ++ (constant.toList ++ (" = ".toList ++ expr)) := by
  have hlead : '\n' ∉ "export const ".toList := by decide
  have hequal : '\n' ∉ " = ".toList := by decide
  simp only [List.mem_append, not_or]
  exact ⟨hlead, fun hmem => absurd (h _ hmem) (by decide), hequal, hexpr⟩

/-- The declaration of a constant is found, and only its own constant is. -/
theorem lineDeclares_constant {constant : String} (hne : constant.toList ≠ [])
    (halpha : IsAlphanumeric constant) {expr : List Char} (hexpr : '\n' ∉ expr) :
    LineDeclares (some constant)
      ("export const ".toList ++ (constant.toList ++ (" = ".toList ++ expr))) := by
  have hword : ∀ c ∈ constant.toList, isWord c = true := fun c hmem =>
    isWord_of_isAlphanum (halpha c hmem)
  refine ⟨not_mem_newline_declaration halpha hexpr, fun rest => ?_⟩
  have hspace : ∀ c ∈ (" = ".toList ++ expr ++ rest).head?, isWord c = false :=
    fun c hc => Option.some.inj hc ▸ rfl
  have hread : word? (constant.toList ++ (" = ".toList ++ expr ++ rest)) =
      some (constant.toList, " = ".toList ++ expr ++ rest) := by
    obtain ⟨c, later, hcons⟩ := List.exists_cons_of_ne_nil hne
    rw [word?, takeWhile_run hword hspace, dropWhile_run hword hspace, hcons]
  rw [declarationHere?, List.append_assoc, List.append_assoc, after?_append, Option.bind_eq_bind,
    Option.bind_some, hread]
  simp [dropBlank, isBlank]

theorem lineDeclares_typeExport {typeName constant : String} (htype : IsAlphanumeric typeName)
    (hconstant : IsAlphanumeric constant) :
    LineDeclares none (typeExport typeName constant).toList := by
  have htext : (typeExport typeName constant).toList = "export type ".toList ++
      (typeName.toList ++ (" = z.infer<typeof ".toList ++ (constant.toList ++ ">;".toList))) := by
    simp [typeExport]
  rw [htext]
  refine lineDeclares_none ?_ fun rest => rfl
  have hlead : '\n' ∉ "export type ".toList := by decide
  have hinfer : '\n' ∉ " = z.infer<typeof ".toList := by decide
  have hclose : '\n' ∉ ">;".toList := by decide
  simp only [List.mem_append, not_or]
  exact ⟨hlead, fun hmem => absurd (htype _ hmem) (by decide), hinfer,
    fun hmem => absurd (hconstant _ hmem) (by decide), hclose⟩

theorem toList_constantDeclaration (constant : String) (expr : Zod.Expr) :
    (Zod.constantDeclaration constant expr).toList =
      "export const ".toList ++ (constant.toList ++ (" = ".toList ++ expr.text)) := by
  simp [Zod.constantDeclaration]

/-- The lead of a declaration stays as it is, since it has no point in it. -/
theorem rewritten_constantDeclaration {constant : String} (h : IsAlphanumeric constant)
    (expr : List Char) :
    rewritten ("export const ".toList ++ (constant.toList ++ (" = ".toList ++ expr))) =
      "export const ".toList ++ (constant.toList ++ (" = ".toList ++ rewritten expr)) := by
  have hpoint : '.' ∉ "export const ".toList ++ (constant.toList ++ " =".toList) := by
    have hlead : '.' ∉ "export const ".toList := by decide
    have hequal : '.' ∉ " =".toList := by decide
    simp only [List.mem_append, not_or]
    exact ⟨hlead, fun hmem => absurd (h _ hmem) (by decide), hequal⟩
  have habsent : Absent lazyReference? ("export const ".toList ++ (constant.toList ++ " =".toList))
      (' ' :: expr) :=
    absent_lazyReference? (absent_of_not_within (by decide)
      (fun hwithin => hpoint (hwithin.subset (by decide))) expr)
  have hblank : lazyReference? (' ' :: expr) = none := rfl
  have hrewritten := rewritten_of_absent habsent
  rw [rewritten_cons hblank] at hrewritten
  simpa using hrewritten

/-- The default import line. -/
def defaultImport : String := ({} : Settings).importLine

theorem rewritten_import (rest : List Char) :
    rewritten (defaultImport.toList ++ rest) = defaultImport.toList ++ rewritten rest :=
  rewritten_of_absent (absent_lazyReference? (absent_of_clashes (by decide) rest))

/-- The text of a module with the default import line, segment by segment. -/
theorem toList_render {module : Module} (himport : module.importLine = defaultImport) :
    module.render.toList = defaultImport.toList ++ '\n' :: '\n' ::
      (spaced (module.segments.map fun segment => rewritten segment.toList) ++ '\n' :: '\n' ::
        (['\n'].intercalate (module.typeExports.eraseDups.map String.toList) ++ ['\n'])) := by
  have hlines (rest : List Char) :
      rewritten ('\n' :: '\n' :: rest) = '\n' :: '\n' :: rewritten rest := by
    rw [rewritten_cons rfl, rewritten_cons rfl]
  have hbody : (module.importLine ++ "\n\n" ++ "\n\n".intercalate module.segments).toList =
      defaultImport.toList ++ '\n' :: '\n' :: spaced (module.segments.map String.toList) := by
    simp [himport, String.toList_intercalate, spaced]
  rw [Module.render, String.toList_append, String.toList_append, String.toList_append,
    resolveMarkers_eq, String.toList_ofList, hbody, rewritten_import, hlines, rewritten_spaced,
    String.toList_intercalate, List.map_map]
  simp [Function.comp_def]

/-! ## Names in order -/

theorem mem_repeated {name : String} {names : List String} :
    name ∈ repeated names ↔ 2 ≤ names.count name := by
  induction names with
  | nil => simp [repeated]
  | cons first names ih =>
      rw [repeated, List.mem_append, ih, List.count_cons]
      by_cases heq : first = name
      · subst heq
        by_cases hmem : first ∈ names
        · have := List.count_pos_iff.mpr hmem
          simp only [hmem, if_true, List.mem_singleton, true_or, beq_self_eq_true, true_iff]
          omega
        · have := List.count_eq_zero.mpr hmem
          simp [hmem, this]
      · have hfirst : name ∉ if first ∈ names then [first] else [] := by
          split
          · exact fun hmem => heq (List.mem_singleton.mp hmem).symm
          · exact List.not_mem_nil
        simp [hfirst, heq]

theorem nodup_eraseDups (names : List String) : names.eraseDups.Nodup := by
  induction hlength : names.length using Nat.strongRecOn generalizing names with
  | ind length ih =>
      subst hlength
      cases names with
      | nil => exact List.nodup_nil
      | cons name names =>
          have hshorter := List.length_filter_le (fun other => !other == name) names
          rw [List.eraseDups_cons, List.nodup_cons]
          exact ⟨by simp [List.mem_eraseDups], ih _ (Nat.lt_succ_of_le hshorter) _ rfl⟩

theorem mem_sortedNames {name : String} {names : List String} :
    name ∈ sortedNames names ↔ name ∈ names := by
  rw [sortedNames, List.mem_mergeSort, List.mem_eraseDups]

/-- Names are in order, each once. -/
theorem pairwise_sortedNames (names : List String) : (sortedNames names).Pairwise (· < ·) := by
  have hordered : (sortedNames names).Pairwise (· ≤ ·) :=
    List.pairwise_mergeSort' (· ≤ ·) _
  have hnodup : (sortedNames names).Nodup :=
    (List.mergeSort_perm _ _).nodup_iff.mpr (nodup_eraseDups names)
  exact (hordered.and hnodup).imp fun ⟨hle, hne⟩ => lt_of_le_of_ne hle hne

/-! ## The declarations of a module -/

theorem constantOf_ne_nil (name : String) : (constantOf name).toList ≠ [] := by
  rw [constantOf, Identifier.schemaConstant, String.toList_append]
  exact List.append_ne_nil_of_right_ne_nil _ (by decide)

theorem isAlphanumeric_constantOf (name : String) : IsAlphanumeric (constantOf name) :=
  isAlphanumeric_schemaConstant _

/-- A segment is a line that still declares its constant once its markers are
resolved. -/
theorem lineDeclares_segment {name segment : String} (h : DeclaresName name segment) :
    LineDeclares (some (constantOf name)) (rewritten segment.toList) := by
  obtain ⟨expr, rfl⟩ := h
  rw [toList_constantDeclaration, rewritten_constantDeclaration (isAlphanumeric_constantOf name)]
  exact lineDeclares_constant (constantOf_ne_nil name) (isAlphanumeric_constantOf name)
    (not_mem_newline_rewritten expr.printable_text.not_mem_newline)

/-- The declarations that are found in the text of a module are the constants of its
segments, one for each segment in their order. The duplicates that are found are, in
order, the constants of two segments or more. -/
theorem build_declarations_found {settings : Settings} {document : Document} {module : Module}
    (himport : settings.importLine = defaultImport)
    (hbuild : Module.build settings document = .ok (some module)) :
    List.Forall₂ DeclaresName (declaredNames settings document) module.segments ∧
      declarations module.render = (declaredNames settings document).map constantOf ∧
      (duplicateDeclarations module.render).Pairwise (· < ·) ∧
      ∀ constant, constant ∈ duplicateDeclarations module.render ↔
        2 ≤ ((declaredNames settings document).map constantOf).count constant := by
  obtain ⟨hsegments, hexports⟩ := build_names hbuild
  obtain ⟨all, _, hne, hmodule⟩ := build_eq_some.mp hbuild
  have hfound : declarations module.render = (declaredNames settings document).map constantOf := by
    have hsegments' : module.segments ≠ [] := by rwa [hmodule]
    have hconstants : (declaredNames settings document).map constantOf ≠ [] := by
      intro hnil
      rw [List.map_eq_nil_iff.mp hnil, List.forall₂_nil_left_iff] at hsegments
      exact hsegments' hsegments
    have hdeclared : List.Forall₂ (fun constant => LineDeclares (some constant))
        ((declaredNames settings document).map constantOf)
        (module.segments.map fun segment => rewritten segment.toList) :=
      List.forall₂_map_left_iff.mpr (List.forall₂_map_right_iff.mpr
        (hsegments.imp fun _ _ => lineDeclares_segment))
    have htypes : ∀ line ∈ module.typeExports.eraseDups.map String.toList,
        LineDeclares none line := by
      refine List.forall_mem_map.mpr fun typeAlias hmem => ?_
      rw [List.mem_eraseDups, hexports] at hmem
      obtain ⟨name, _, rfl⟩ := List.mem_map.mp hmem
      exact lineDeclares_typeExport (isAlphanumeric_pascalCase name)
        (isAlphanumeric_constantOf name)
    have himported : LineDeclares none defaultImport.toList :=
      lineDeclares_none (by decide) fun _ => rfl
    have hblank (rest : List Char) :
        declarationsFrom true ('\n' :: rest) = declarationsFrom true rest := rfl
    rw [declarations, toList_render (by rw [hmodule]; exact himport), himported.declarationsFrom,
      hblank, declarationsFrom_spaced hdeclared hconstants, hblank, declarationsFrom_none htypes]
    exact List.append_nil _
  refine ⟨hsegments, hfound, pairwise_sortedNames _, fun constant => ?_⟩
  rw [duplicateDeclarations, mem_sortedNames, mem_repeated, hfound]

/-- The two shapes that share the constant `aSchema` are found, as its duplicate. -/
theorem pairSample_declarations_found : ∃ module,
    Module.build {} (Generation.userDocument "Users.bru" pairSample) = .ok (some module) ∧
      declarations module.render = ["getUsersBodyaItemSchema", "getUsersBodyaSchema",
        "getUsersBodyAItemSchema", "getUsersBodyASchema", "aSchema", "aSchema",
        "getUsersBodySchema"] ∧
      "aSchema" ∈ duplicateDeclarations module.render := by
  have hwritable : pairSample.writable = true := by
    simp [pairSample, Json.writable, Json.membersWritable, Json.itemsWritable, integerFits_one]
  have hnames := declaredNames_userDocument "Users.bru" rfl sampleSchema_pairSample
  obtain ⟨module, hbuild⟩ := exists_build_userDocument (by decide) hwritable rfl hnames
  obtain ⟨_, hfound, _, hduplicates⟩ := build_declarations_found rfl hbuild
  have hconstants : (declaredNames {} (Generation.userDocument "Users.bru" pairSample)).map
      constantOf = ["getUsersBodyaItemSchema", "getUsersBodyaSchema", "getUsersBodyAItemSchema",
        "getUsersBodyASchema", "aSchema", "aSchema", "getUsersBodySchema"] := by
    rw [hnames]
    decide +kernel
  rw [hconstants] at hfound hduplicates
  exact ⟨module, hbuild, hfound, (hduplicates "aSchema").mpr (by decide)⟩

end RequestShapes.Endpoint
