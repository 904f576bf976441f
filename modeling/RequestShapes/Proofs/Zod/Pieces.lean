import RequestShapes.Proofs.Request.Scanning
import RequestShapes.Proofs.Schema.Naming
import RequestShapes.Proofs.Zod.Rendering
import RequestShapes.Zod.Source

/-!
# Pieces of a text

The text of an expression is put together from code, from labels of properties and
from literals in the place of references. So it can be written with
references instead of these literals, and nothing else of it changes.
-/

namespace RequestShapes.Zod

open Request (clashes)
open Schema

/-! ## Pieces -/

/-- A piece of the text of an expression. -/
inductive Piece where
  /-- Text that is not taken from a sample. -/
  | code (text : List Char)
  /-- The quoted name of a property, with a colon and a blank. -/
  | label (name : String)
  /-- A literal in the place of a reference to a constant. -/
  | reference (constant : String)

/-- The text of a piece as it is rendered. -/
def Piece.text : Piece → List Char
  | .code text => text
  | .label name => Json.quotedText name ++ [':', ' ']
  | .reference constant => (Expr.literal (.str (markerLead ++ constant))).text

/-- The text of a piece with references written as such. -/
def Piece.direct : Piece → List Char
  | .reference constant => call "z.lazy" ("() => ".toList ++ constant.toList)
  | piece => piece.text

/-- The text of pieces as it is rendered. -/
def textOf (pieces : List Piece) : List Char := pieces.flatMap Piece.text

/-- The text of pieces with references written as such. -/
def directOf (pieces : List Piece) : List Char := pieces.flatMap Piece.direct

/-- The constant that a literal stands for a reference to. -/
def referenceTo? : Json → Option String
  | .str text => (Text.after? markerLead.toList text.toList).map String.ofList
  | _ => none

/-- Pieces with a comma and a blank between them. -/
def separated (lists : List (List Piece)) : List Piece :=
  [.code [',', ' ']].intercalate lists

/-- The pieces of an object call. -/
def objectPieces (fields : List (List Piece)) : List Piece :=
  if fields.isEmpty then [.code "z.object(\x7b\x7d)".toList]
  else .code "z.object(\x7b ".toList :: (separated fields ++ [.code " \x7d)".toList])

mutual

/-- The pieces of the text of an expression. -/
def Expr.pieces : Expr → List Piece
  | .literal value =>
      match referenceTo? value with
      | some constant => [.reference constant]
      | none => [.code (Expr.literal value).text]
  | .union members =>
      .code "z.union([".toList :: (separated (memberPieces members) ++ [.code "])".toList])
  | .array items => .code "z.array(".toList :: (items.pieces ++ [.code ")".toList])
  | .record values => .code "z.record(".toList :: (values.pieces ++ [.code ")".toList])
  | .object fields => objectPieces (fieldPieces fields)
  | .strictObject fields => objectPieces (fieldPieces fields) ++ [.code ".strict()".toList]
  | .openObject fields others =>
      objectPieces (fieldPieces fields) ++
        .code ".catchall(".toList :: (others.pieces ++ [.code ")".toList])
  | expr => [.code expr.text]

/-- The pieces of the members of a union. -/
def memberPieces : List Expr → List (List Piece)
  | [] => []
  | member :: members => member.pieces :: memberPieces members

/-- The pieces of fields. -/
def fieldPieces : List (Field Expr) → List (List Piece)
  | [] => []
  | ⟨name, optional, value⟩ :: fields =>
      (.label name :: (value.pieces ++
        if optional then [.code ".optional()".toList] else [])) :: fieldPieces fields

end

section Texts

@[simp] theorem textOf_nil : textOf [] = [] := rfl

@[simp] theorem textOf_cons (piece : Piece) (pieces : List Piece) :
    textOf (piece :: pieces) = piece.text ++ textOf pieces := rfl

@[simp] theorem textOf_append (pieces later : List Piece) :
    textOf (pieces ++ later) = textOf pieces ++ textOf later :=
  List.flatMap_append

@[simp] theorem directOf_cons (piece : Piece) (pieces : List Piece) :
    directOf (piece :: pieces) = piece.direct ++ directOf pieces := rfl

theorem separated_cons {pieces : List Piece} {lists : List (List Piece)} (h : lists ≠ []) :
    separated (pieces :: lists) = pieces ++ .code [',', ' '] :: separated lists := by
  obtain ⟨next, later, rfl⟩ := List.exists_cons_of_ne_nil h
  simp [separated, List.intercalate_cons_cons]

theorem separated_singleton (pieces : List Piece) : separated [pieces] = pieces :=
  List.intercalate_singleton

theorem textOf_separated (lists : List (List Piece)) :
    textOf (separated lists) = Json.commaSeparated (lists.map textOf) := by
  induction lists with
  | nil => rfl
  | cons pieces lists ih =>
      by_cases hne : lists = []
      · rw [hne, separated_singleton, List.map_singleton, Json.commaSeparated,
          List.intercalate_singleton]
      · obtain ⟨next, later, rfl⟩ := List.exists_cons_of_ne_nil hne
        rw [separated_cons hne, textOf_append, textOf_cons, ih]
        simp [Json.commaSeparated, List.intercalate_cons_cons, Piece.text]

theorem textOf_objectPieces (fields : List (List Piece)) :
    textOf (objectPieces fields) = objectCall (fields.map textOf) := by
  unfold objectPieces objectCall
  rw [List.isEmpty_map]
  split
  · rfl
  · simp [textOf_separated, Piece.text, call]

theorem textOf_enclosed (before after : List Char) (inner : List Piece) :
    textOf (.code before :: (inner ++ [.code after])) = before ++ (textOf inner ++ after) := by
  simp [Piece.text]

theorem referenceTo?_eq_some {value : Json} {constant : String}
    (h : referenceTo? value = some constant) : value = .str (markerLead ++ constant) := by
  cases value with
  | str text =>
      obtain ⟨rest, hrest, rfl⟩ := Option.map_eq_some_iff.mp h
      rw [Json.str.injEq, ← String.toList_inj, String.toList_append, String.toList_ofList]
      exact Text.after?_eq_some hrest
  | _ => cases h

theorem referenceTo?_marker (constant : String) :
    referenceTo? (.str (markerLead ++ constant)) = some constant := by
  rw [referenceTo?, String.toList_append, after?_append, Option.map_some, String.ofList_toList]

mutual

/-- The pieces of an expression make up its text. -/
theorem textOf_pieces : (expr : Expr) → textOf expr.pieces = expr.text
  | .literal value => by
      rw [Expr.pieces]
      split
      next constant hconstant =>
        rw [referenceTo?_eq_some hconstant]
        exact List.append_nil _
      next => exact List.append_nil _
  | .union members => by
      change _ = listCall "z.union" (memberTexts members)
      rw [Expr.pieces, textOf_enclosed, textOf_separated, map_memberPieces members]
      simp [listCall, call]
  | .array items => by
      change _ = call "z.array" items.text
      rw [Expr.pieces, textOf_enclosed, textOf_pieces items]
      rfl
  | .record values => by
      change _ = call "z.record" values.text
      rw [Expr.pieces, textOf_enclosed, textOf_pieces values]
      rfl
  | .object fields => by
      change _ = objectCall (fieldTexts fields)
      rw [Expr.pieces, textOf_objectPieces, map_fieldPieces fields]
  | .strictObject fields => by
      change _ = objectCall (fieldTexts fields) ++ ".strict()".toList
      rw [Expr.pieces, textOf_append, textOf_objectPieces, map_fieldPieces fields]
      rfl
  | .openObject fields others => by
      change _ = objectCall (fieldTexts fields) ++ call ".catchall" others.text
      rw [Expr.pieces, textOf_append, textOf_objectPieces, map_fieldPieces fields, textOf_enclosed,
        textOf_pieces others]
      rfl
  | .any | .never | .string _ | .integer | .number | .boolean | .null | .enumeration _ => by
      rw [Expr.pieces]
      · exact List.append_nil _
      all_goals nofun

theorem map_memberPieces : (members : List Expr) →
    (memberPieces members).map textOf = memberTexts members
  | [] => rfl
  | member :: members => by
      rw [memberPieces, memberTexts, List.map_cons, textOf_pieces member, map_memberPieces members]

theorem map_fieldPieces : (fields : List (Field Expr)) →
    (fieldPieces fields).map textOf = fieldTexts fields
  | [] => rfl
  | ⟨name, optional, value⟩ :: fields => by
      rw [fieldPieces, fieldTexts, List.map_cons, map_fieldPieces fields]
      cases optional <;> simp [textOf_pieces value, Piece.text]

end

end Texts

/-! ## Pieces of what a sample denotes -/

section Sound

variable {constants : List String} {Holds : String → Prop}

/-- Code in which no literal begins, a label whose name has a property, or a reference to
one of the constants. -/
def Piece.Sound (constants : List String) (Holds : String → Prop) : Piece → Prop
  | .code text => clashes "z.literal(".toList text = true
  | .label name => Holds name
  | .reference constant => constant ∈ constants

/-- A schema denotes an expression that is made of sound pieces. -/
def Denotes (constants : List String) (Holds : String → Prop) (schema : Json) : Prop :=
  ∃ expr, Expr.ofSchema schema = .ok expr ∧ ∀ piece ∈ expr.pieces, piece.Sound constants Holds

theorem Denotes.mono {others : List String} {schema : Json} (h : Denotes constants Holds schema)
    (hsubset : ∀ constant ∈ constants, constant ∈ others) : Denotes others Holds schema := by
  obtain ⟨expr, hexpr, hsound⟩ := h
  refine ⟨expr, hexpr, fun piece hmem => ?_⟩
  have hpiece := hsound piece hmem
  cases piece with
  | code | label => exact hpiece
  | reference constant => exact hsubset constant hpiece

theorem sound_code {text : List Char} (h : clashes "z.literal(".toList text = true) :
    ∀ piece ∈ [Piece.code text], piece.Sound constants Holds :=
  List.forall_mem_singleton.mpr h

theorem sound_enclosed {before after : List Char} {inner : List Piece}
    (hbefore : clashes "z.literal(".toList before = true)
    (hinner : ∀ piece ∈ inner, piece.Sound constants Holds)
    (hafter : clashes "z.literal(".toList after = true) :
    ∀ piece ∈ Piece.code before :: (inner ++ [.code after]), piece.Sound constants Holds :=
  List.forall_mem_cons.mpr ⟨hbefore, List.forall_mem_append.mpr ⟨hinner, sound_code hafter⟩⟩

theorem sound_separated {lists : List (List Piece)}
    (h : ∀ pieces ∈ lists, ∀ piece ∈ pieces, piece.Sound constants Holds) :
    ∀ piece ∈ separated lists, piece.Sound constants Holds := by
  induction lists with
  | nil => exact List.forall_mem_nil _
  | cons pieces lists ih =>
      obtain ⟨hpieces, hlists⟩ := List.forall_mem_cons.mp h
      by_cases hne : lists = []
      · rw [hne, separated_singleton]
        exact hpieces
      · have hcomma : clashes "z.literal(".toList [',', ' '] = true := by decide
        rw [separated_cons hne]
        exact List.forall_mem_append.mpr
          ⟨hpieces, List.forall_mem_cons.mpr ⟨hcomma, ih hlists⟩⟩

theorem sound_objectPieces {fields : List (List Piece)}
    (h : ∀ pieces ∈ fields, ∀ piece ∈ pieces, piece.Sound constants Holds) :
    ∀ piece ∈ objectPieces fields, piece.Sound constants Holds := by
  unfold objectPieces
  split
  · exact sound_code (by decide)
  · exact sound_enclosed (by decide) (sound_separated h) (by decide)

section Nodes

variable {members : List (String × Json)}

theorem Expr.IsLeaf.sound {expr : Expr} (h : expr.IsLeaf) :
    ∀ piece ∈ expr.pieces, piece.Sound constants Holds := by
  cases h with
  | string format =>
      cases format with
      | none => exact sound_code (by decide)
      | some format => exact sound_code (by cases format <;> decide)
  | _ => exact sound_code (by decide)

theorem denotes_plain {node : Json} (h : Plain node) (hlike : LooksLike members node) :
    Denotes constants Holds (.obj members) := by
  obtain ⟨leaf, expr, hleaf, hexpr, rfl | rfl⟩ := hlike.ofSchema_plain h
  · exact ⟨expr, hexpr, hleaf.sound⟩
  · refine ⟨_, hexpr, ?_⟩
    rw [Expr.pieces]
    refine sound_enclosed (by decide) (sound_separated ?_) (by decide)
    exact List.forall_mem_cons.mpr
      ⟨hleaf.sound, List.forall_mem_singleton.mpr Expr.IsLeaf.null.sound⟩

theorem denotes_marker {constant : String} (hmem : constant ∈ constants)
    (hlike : LooksLike members (marker constant)) : Denotes constants Holds (.obj members) := by
  refine ⟨_, hlike.ofSchema_marker, ?_⟩
  rw [Expr.pieces, referenceTo?_marker]
  exact List.forall_mem_singleton.mpr hmem

theorem denotes_array {items : Json} (h : Denotes constants Holds items)
    (hlike : LooksLike members (ofArray items)) : Denotes constants Holds (.obj members) := by
  obtain ⟨expr, hexpr, hsound⟩ := h
  refine ⟨.array expr, hlike.ofSchema_array hexpr, ?_⟩
  rw [Expr.pieces]
  exact sound_enclosed (by decide) hsound (by decide)

theorem ofSchemas_sound {nodes : List Json} (h : ∀ node ∈ nodes, Denotes constants Holds node) :
    ∃ exprs : List Expr, ofSchemas nodes = .ok exprs ∧ exprs.length = nodes.length ∧
      ∀ pieces ∈ memberPieces exprs, ∀ piece ∈ pieces, piece.Sound constants Holds := by
  induction nodes with
  | nil => exact ⟨[], by rw [ofSchemas], rfl, List.forall_mem_nil _⟩
  | cons node rest ih =>
      obtain ⟨⟨expr, hexpr, hsound⟩, hrest⟩ := List.forall_mem_cons.mp h
      obtain ⟨exprs, hexprs, hlength, hall⟩ := ih hrest
      refine ⟨expr :: exprs, ?_, congrArg (· + 1) hlength, List.forall_mem_cons.mpr ⟨hsound, hall⟩⟩
      rw [ofSchemas, hexpr, ok_bind, hexprs, ok_bind]

theorem denotes_anyOf {alternatives : List Json} (hlength : 2 ≤ alternatives.length)
    (h : ∀ node ∈ alternatives, Denotes constants Holds node)
    (hlike : LooksLike members (anyOf alternatives)) : Denotes constants Holds (.obj members) := by
  obtain ⟨exprs, hexprs, hcount, hsound⟩ := ofSchemas_sound h
  refine ⟨.union exprs, hlike.ofSchema_anyOf hexprs (hcount ▸ hlength), ?_⟩
  rw [Expr.pieces]
  exact sound_enclosed (by decide) (sound_separated hsound) (by decide)

theorem ofFields_sound (required : List Json) {properties : List (String × Json)}
    (h : ∀ entry ∈ properties, Holds entry.1 ∧ Denotes constants Holds entry.2) :
    ∃ fields, ofFields required properties = .ok fields ∧
      ∀ pieces ∈ fieldPieces fields, ∀ piece ∈ pieces, piece.Sound constants Holds := by
  induction properties with
  | nil => exact ⟨[], by rw [ofFields], List.forall_mem_nil _⟩
  | cons entry rest ih =>
      obtain ⟨name, node⟩ := entry
      obtain ⟨⟨hname, expr, hexpr, hsound⟩, hrest⟩ := List.forall_mem_cons.mp h
      obtain ⟨fields, hfields, hall⟩ := ih hrest
      have hoptional : ∀ piece ∈ if !required.contains (.str name) then
          [Piece.code ".optional()".toList] else [], piece.Sound constants Holds := by
        split
        · exact sound_code (by decide)
        · exact List.forall_mem_nil _
      refine ⟨⟨name, !required.contains (.str name), expr⟩ :: fields, ?_, ?_⟩
      · rw [ofFields, hexpr, ok_bind, hfields, ok_bind]
      · exact List.forall_mem_cons.mpr ⟨List.forall_mem_cons.mpr
          ⟨hname, List.forall_mem_append.mpr ⟨hsound, hoptional⟩⟩, hall⟩

theorem denotes_object {properties : List (String × Json)} {required : List String}
    {title : String} (h : ∀ entry ∈ properties, Holds entry.1 ∧ Denotes constants Holds entry.2)
    (hlike : LooksLike members (closedObject properties (.arr (required.map .str)) title)) :
    Denotes constants Holds (.obj members) := by
  obtain ⟨fields, hfields, hsound⟩ := ofFields_sound (required.map .str) h
  refine ⟨.strictObject fields, hlike.ofSchema_object hfields, ?_⟩
  rw [Expr.pieces]
  exact List.forall_mem_append.mpr ⟨sound_objectPieces hsound, sound_code (by decide)⟩

theorem denotes_empty : Denotes constants Holds .empty :=
  ⟨.any, by rw [Json.empty, Expr.ofSchema], sound_code (by decide)⟩

end Nodes

/-- What looks like a traced node denotes sound pieces, and their names are keys of the
node. -/
theorem denotes_of_looksLike {sample : Json} {hops : List Hop} {node : Json}
    (h : Traced (IsMarker constants) sample hops node)
    (hkeys : ∀ key, HasKey node key → Holds key) {members : List (String × Json)}
    (hlike : LooksLike members node) (hempty : node.isVacant = true → members = []) :
    Denotes constants Holds (.obj members) := by
  induction h generalizing members with
  | empty =>
      obtain rfl := hempty rfl
      exact denotes_empty
  | plain hplain => exact denotes_plain hplain hlike
  | stands hmarker =>
      obtain ⟨constant, hmem, rfl⟩ := hmarker
      exact denotes_marker hmem hlike
  | @array _ items hitems ih =>
      refine denotes_array (holds_of_looksLike (hitems.isObject IsMarker.isObject) (ih ?_)) hlike
      exact fun key hkey => hkeys key (@HasKey.inner _ ("items", items) _ (by simp) hkey)
  | @anyOf _ alternatives hlength halternatives ih =>
      refine denotes_anyOf hlength (fun node hmem => ?_) hlike
      refine holds_of_looksLike ((halternatives node hmem).isObject IsMarker.isObject)
        (ih node hmem ?_)
      intro key hkey
      exact hkeys key (@HasKey.inner _ ("anyOf", .arr alternatives) _ (by simp) (.item hmem hkey))
  | @object _ properties required title hproperties ih =>
      have hinner {key : String} (hkey : HasKey (.obj properties) key) : Holds key :=
        hkeys key (@HasKey.inner _ ("properties", .obj properties) _ (by simp) hkey)
      refine denotes_object (fun entry hmem => ⟨hinner (.own (List.mem_map_of_mem hmem)), ?_⟩) hlike
      refine holds_of_looksLike ((hproperties entry hmem).isObject IsMarker.isObject)
        (ih entry hmem ?_)
      exact fun key hkey => hinner (.inner hmem hkey)

/-- A traced node denotes sound pieces. -/
theorem denotes_of_traced {sample : Json} {hops : List Hop} {node : Json}
    (h : Traced (IsMarker constants) sample hops node)
    (hkeys : ∀ key, HasKey node key → Holds key) : Denotes constants Holds node :=
  holds_of_looksLike (h.isObject IsMarker.isObject) (denotes_of_looksLike h hkeys)

/-- So does a root, which says what the node in it does. -/
theorem denotes_of_tracedRoot {sample root : Json} (h : TracedRoot (IsMarker constants) sample root)
    (hkeys : ∀ key, HasKey root key → Holds key) : Denotes constants Holds root := by
  obtain ⟨root, hops, rfl, _, hfilled, htraced⟩ := h
  have hobject := htraced.isObject IsMarker.isObject
  refine denotes_of_looksLike htraced (fun key hkey => hkeys key ?_) (looksLike_declared hobject)
    fun hvacant => ?_
  · cases root with
    | obj members =>
        cases hkey with
        | own hmem => exact .own (List.mem_cons_of_mem _ hmem)
        | inner hmem hkey => exact .inner (List.mem_cons_of_mem _ hmem) hkey
    | _ => cases hobject
  · rw [hfilled] at hvacant
    cases hvacant

end Sound

end RequestShapes.Zod
