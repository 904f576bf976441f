import RequestShapes.Proofs.Endpoint.Declarations
import RequestShapes.Proofs.Schema.Keys
import RequestShapes.Proofs.Zod.Pieces

/-!
# Markers that are none

Markers are resolved in the text of a module, which also holds the names of
properties. A marker may be quoted by apostrophes, which stand in a name as they are.
So a name can hold the text of a marker and is changed then. Nothing else is: if no
marker begins in a label, the text of the module is the one with all references written
as such.
-/

namespace RequestShapes.Endpoint

open Identifier (IsAlphanumeric)
open Json (quotedChar quotedText)
open Request (Absent absent_append absent_of_clashes absent_of_not_mem forall_mem_of_all)
open Schema (after?_append)
open Text
open Zod (Piece directOf textOf)

/-! ## Quoted characters -/

section Characters

theorem printable_of_isAlphanum {c : Char} (h : c.isAlphanum = true) : ' ' ≤ c ∧ c ≤ '~' := by
  simp only [Char.isAlphanum, Char.isAlpha, Char.isUpper, Char.isLower, Char.isDigit,
    Bool.or_eq_true, Bool.and_eq_true, decide_eq_true_eq, ge_iff_le, UInt32.le_iff_toNat_le] at h
  simp only [Char.le_def, UInt32.le_iff_toNat_le]
  simp at h ⊢
  omega

theorem quotedChar_of_printable {c : Char} (h : ' ' ≤ c ∧ c ≤ '~') (hquote : c ≠ '"')
    (hbackslash : c ≠ '\\') : quotedChar c = [c] := by
  have hcontrol {d : Char} (hd : ¬ ' ' ≤ d) : c ≠ d := fun heq => hd (heq ▸ h.1)
  have hnewline : c ≠ '\n' := hcontrol (by decide)
  have hreturn : c ≠ '\r' := hcontrol (by decide)
  have htab : c ≠ '\t' := hcontrol (by decide)
  have hback : c ≠ '\x08' := hcontrol (by decide)
  have hfeed : c ≠ '\x0c' := hcontrol (by decide)
  simp [quotedChar, hquote, hbackslash, hnewline, hreturn, htab, hback, hfeed, h]

/-- A text of letters, digits and underscores is quoted as it stands. -/
theorem quotedText_of_plain {text : String} (h : ∀ c ∈ text.toList, c.isAlphanum = true ∨ c = '_') :
    quotedText text = '"' :: (text.toList ++ ['"']) := by
  have hplain : ∀ c ∈ text.toList, quotedChar c = [c] := by
    intro c hmem
    obtain halpha | rfl := h c hmem
    · exact quotedChar_of_printable (printable_of_isAlphanum halpha)
        (by rintro rfl; exact absurd halpha (by decide))
        (by rintro rfl; exact absurd halpha (by decide))
    · rfl
  rw [quotedText, List.flatMap_congr hplain, List.flatMap_singleton']

/-- A character is quoted as it stands, or by an escape, which has no letter `z` in
it. -/
theorem quotedChar_cases (c : Char) : quotedChar c = [c] ∧ c ≠ '"' ∧ c ≠ '\\' ∨
    ∃ escape, quotedChar c = '\\' :: escape ∧ 'z' ∉ escape := by
  by_cases hprintable : ' ' ≤ c ∧ c ≤ '~'
  · by_cases hquote : c = '"'
    · exact .inr ⟨['"'], by rw [hquote]; rfl, by decide⟩
    · by_cases hbackslash : c = '\\'
      · exact .inr ⟨['\\'], by rw [hbackslash]; rfl, by decide⟩
      · exact .inl ⟨quotedChar_of_printable hprintable hquote hbackslash, hquote, hbackslash⟩
  · right
    have hletter {unit : Nat} : 'z' ∉ Json.unitEscape unit := by
      intro hmem
      simp only [Json.unitEscape, List.mem_cons] at hmem
      obtain heq | heq | hmem := hmem
      · exact absurd heq (by decide)
      · exact absurd heq (by decide)
      · obtain ⟨digit, hlt, heq⟩ := exists_digitChar_of_mem_hexText hmem
        exact (by decide : ∀ digit < 16, 'z' ≠ digit.digitChar) digit hlt heq
    unfold quotedChar
    split_ifs
    · exact ⟨_, rfl, by decide⟩
    · exact ⟨_, rfl, by decide⟩
    · exact ⟨_, rfl, by decide⟩
    · exact ⟨_, rfl, by decide⟩
    · exact ⟨_, rfl, by decide⟩
    · exact ⟨_, rfl, by decide⟩
    · exact ⟨_, rfl, by decide⟩
    · obtain ⟨unit, units, hunits⟩ := List.exists_cons_of_ne_nil (Json.unitsOfChar_ne_nil c)
      have hall : 'z' ∉ (unitsOfChar c).flatMap Json.unitEscape := by
        rw [List.mem_flatMap]
        rintro ⟨unit, _, hmem⟩
        exact hletter hmem
      rw [hunits, List.flatMap_cons, Json.unitEscape] at hall ⊢
      exact ⟨_, rfl, fun hmem => hall (List.mem_cons_of_mem _ hmem)⟩

end Characters

/-! ## Reading a marker -/

section Marker

theorem afterQuote?_of_isAlphanum {c : Char} (h : c.isAlphanum = true) (rest : List Char) :
    afterQuote? (c :: rest) = none := by
  have hquote : c ≠ '"' := by
    rintro rfl
    exact absurd h (by decide)
  have hapostrophe : c ≠ '\'' := by
    rintro rfl
    exact absurd h (by decide)
  simp [afterQuote?, after?, Ne.symm hquote, Ne.symm hapostrophe]

/-- The name of a marker is read up to its quote. -/
theorem markedName?_append {name : List Char} (hne : name ≠ [])
    (hname : ∀ c ∈ name, c.isAlphanum = true) (rest : List Char) :
    markedName? (name ++ '"' :: ')' :: rest) = some (name, rest) := by
  induction name with
  | nil => exact absurd rfl hne
  | cons c name ih =>
      obtain ⟨halpha, hlater⟩ := List.forall_mem_cons.mp hname
      have hline : c ≠ '\n' := by
        rintro rfl
        exact absurd halpha (by decide)
      rw [List.cons_append, markedName?, if_neg hline]
      cases name with
      | nil => rfl
      | cons d name =>
          have hclosing := afterQuote?_of_isAlphanum (hlater d List.mem_cons_self)
            (name ++ '"' :: ')' :: rest)
          rw [List.cons_append] at ih ⊢
          rw [hclosing, Option.bind_none, ih (List.cons_ne_nil _ _) hlater]
          rfl

/-- The marker of a constant becomes the reference to it. -/
theorem lazyReference?_reference {constant : String} (hne : constant.toList ≠ [])
    (halpha : IsAlphanumeric constant) (rest : List Char) :
    lazyReference? ((Piece.reference constant).text ++ rest) =
      some ((Piece.reference constant).direct, rest) := by
  have hplain : ∀ c ∈ (Schema.markerLead ++ constant).toList, c.isAlphanum = true ∨ c = '_' := by
    have hlead : ∀ c ∈ Schema.markerLead.toList, c.isAlphanum = true ∨ c = '_' :=
      forall_mem_of_all (by decide)
    rw [String.toList_append]
    exact List.forall_mem_append.mpr ⟨hlead, fun c hmem => .inl (halpha c hmem)⟩
  have htext : (Piece.reference constant).text ++ rest = "z.literal(".toList ++
      ('"' :: (Schema.markerLead.toList ++ (constant.toList ++ '"' :: ')' :: rest))) := by
    change Zod.call "z.literal" (quotedText (Schema.markerLead ++ constant)) ++ rest = _
    rw [quotedText_of_plain hplain]
    simp [Zod.call]
  have hquote (inner : List Char) : afterQuote? ('"' :: inner) = some inner := rfl
  have hdirect : "z.lazy(() => ".toList ++ constant.toList ++ [')'] =
      (Piece.reference constant).direct := rfl
  simp only [htext, lazyReference?, after?_append, Option.bind_eq_bind, Option.bind_some, hquote,
    markedName?_append hne halpha, hdirect]

end Marker

/-! ## Labels -/

section Labels

/-- How a marker begins whose quotes are apostrophes. -/
def apostropheMarker : List Char := "z.literal('__REF__".toList

/-- What has neither quotes nor backslashes in it stands in a quoted name as it does in
the name. -/
theorem prefix_of_quoted {key name rest : List Char} (hkey : ∀ c ∈ key, c ≠ '"' ∧ c ≠ '\\')
    (h : key <+: name.flatMap quotedChar ++ '"' :: rest) : key <+: name := by
  induction name generalizing key with
  | nil =>
      cases key with
      | nil => exact List.nil_prefix
      | cons k key => exact absurd (List.cons_prefix_cons.mp h).1 (hkey k List.mem_cons_self).1
  | cons c name ih =>
      cases key with
      | nil => exact List.nil_prefix
      | cons k key =>
          obtain ⟨⟨_, hbackslash⟩, hlater⟩ := List.forall_mem_cons.mp hkey
          rw [List.flatMap_cons, List.append_assoc] at h
          obtain ⟨hchar, _, _⟩ | ⟨escape, hescape, _⟩ := quotedChar_cases c
          · rw [hchar, List.singleton_append, List.cons_prefix_cons] at h
            exact List.cons_prefix_cons.mpr ⟨h.1, ih hlater h.2⟩
          · rw [hescape, List.cons_append, List.cons_prefix_cons] at h
            exact absurd h.1 hbackslash

/-- A quote that follows it is the one at the end of the name. -/
theorem prefix_of_quote {key name tail rest : List Char} (hkey : ∀ c ∈ key, c ≠ '"' ∧ c ≠ '\\')
    (h : key ++ '"' :: tail <+: name.flatMap quotedChar ++ '"' :: rest) : tail <+: rest := by
  induction name generalizing key with
  | nil =>
      cases key with
      | nil => exact (List.cons_prefix_cons.mp h).2
      | cons k key => exact absurd (List.cons_prefix_cons.mp h).1 (hkey k List.mem_cons_self).1
  | cons c name ih =>
      rw [List.flatMap_cons, List.append_assoc] at h
      obtain ⟨hchar, hquote, _⟩ | ⟨escape, hescape, _⟩ := quotedChar_cases c
      · rw [hchar, List.singleton_append] at h
        cases key with
        | nil => exact absurd (List.cons_prefix_cons.mp h).1.symm hquote
        | cons k key =>
            exact ih (List.forall_mem_cons.mp hkey).2 (List.cons_prefix_cons.mp h).2
      · rw [hescape, List.cons_append] at h
        cases key with
        | nil => exact absurd (List.cons_prefix_cons.mp h).1 (by decide)
        | cons k key => exact absurd (List.cons_prefix_cons.mp h).1 (hkey k List.mem_cons_self).2

theorem absent_quoted {name : List Char} (h : ¬ apostropheMarker <:+: name) (rest : List Char) :
    Absent lazyReference? (name.flatMap quotedChar ++ ['"', ':', ' ']) rest := by
  have hletter {piece : List Char} (hpiece : 'z' ∉ piece) (rest : List Char) :
      Absent lazyReference? piece rest :=
    absent_lazyReference? (@absent_of_not_mem 'z' ".literal(".toList piece hpiece rest)
  induction name with
  | nil => exact hletter (by decide) rest
  | cons c name ih =>
      rw [List.flatMap_cons, List.append_assoc, absent_append]
      refine ⟨?_, ih fun hwithin => h (hwithin.trans (List.suffix_cons c name).isInfix)⟩
      obtain ⟨hchar, _, _⟩ | ⟨escape, hescape, hfree⟩ := quotedChar_cases c
      · rw [hchar]
        refine ⟨Option.eq_none_iff_forall_ne_some.mpr ?_, trivial⟩
        rintro ⟨replacement, later⟩ hfound
        obtain ⟨marked, _, _, _, first, hfirst, last, _, htext⟩ := lazyReference?_eq_some hfound
        have hwhole : "z.literal(".toList ++ first :: (Schema.markerLead.toList ++
            (marked ++ last :: ')' :: later)) =
            (c :: name).flatMap quotedChar ++ '"' :: (':' :: ' ' :: rest) := by
          rw [← htext, List.flatMap_cons, hchar]
          simp
        obtain rfl | rfl := List.mem_pair.mp hfirst
        · have hcall : ∀ c ∈ "z.literal(".toList, c ≠ '"' ∧ c ≠ '\\' :=
            forall_mem_of_all (by decide)
          have hlead := prefix_of_quote hcall ⟨[], (List.append_nil _).trans hwhole⟩
          exact absurd (List.cons_prefix_cons.mp hlead).1 (by decide)
        · have hplain : ∀ c ∈ apostropheMarker, c ≠ '"' ∧ c ≠ '\\' :=
            forall_mem_of_all (by decide)
          have hmarker : apostropheMarker <+: (c :: name).flatMap quotedChar ++
              '"' :: (':' :: ' ' :: rest) :=
            ⟨marked ++ last :: ')' :: later, hwhole⟩
          exact h (prefix_of_quoted hplain hmarker).isInfix
      · rw [hescape]
        exact hletter (List.not_mem_cons_of_ne_of_not_mem (by decide) hfree) _

/-- No marker begins in the label of a name that holds the beginning of none. -/
theorem absent_label {name : String} (h : ¬ apostropheMarker <:+: name.toList) (rest : List Char) :
    Absent lazyReference? (Piece.label name).text rest := by
  have htext : (Piece.label name).text =
      '"' :: (name.toList.flatMap quotedChar ++ ['"', ':', ' ']) := by
    simp [Piece.text, quotedText]
  rw [htext]
  exact ⟨rfl, absent_quoted h rest⟩

end Labels

/-! ## Texts of pieces -/

section Pieces

/-- No marker begins in a label, read with what follows the label. -/
def LabelsPassed : List Piece → Prop
  | [] => True
  | .label name :: rest =>
      Absent lazyReference? (Piece.label name).text (textOf rest) ∧ LabelsPassed rest
  | _ :: rest => LabelsPassed rest

/-- A test that does not fail at all characters of a piece succeeds somewhere first. -/
theorem exists_of_not_absent {α : Type} {test : List Char → Option α} {piece rest : List Char}
    (h : ¬ Absent test piece rest) : ∃ before left found, piece = before ++ left ∧ left ≠ [] ∧
      Absent test before (left ++ rest) ∧ test (left ++ rest) = some found := by
  induction piece with
  | nil => exact absurd trivial h
  | cons c piece ih =>
      cases hfound : test (c :: (piece ++ rest)) with
      | some found => exact ⟨[], c :: piece, found, rfl, List.cons_ne_nil _ _, trivial, hfound⟩
      | none =>
          obtain ⟨before, left, found, rfl, hne, habsent, hleft⟩ :=
            ih fun hlater => h ⟨hfound, hlater⟩
          refine ⟨c :: before, left, found, rfl, hne, ⟨?_, habsent⟩, hleft⟩
          rwa [List.append_assoc] at hfound

/-- A label in which a marker begins is changed. -/
theorem rewritten_label_ne {name : String} {rest : List Char}
    (h : ¬ Absent lazyReference? (Piece.label name).text rest) (others : List Char) :
    rewritten ((Piece.label name).text ++ rest) ≠ (Piece.label name).text ++ others := by
  obtain ⟨before, left, ⟨replacement, later⟩, hlabel, hne, habsent, hfound⟩ :=
    exists_of_not_absent h
  obtain ⟨marked, _, _, rfl, first, _, last, _, htext⟩ := lazyReference?_eq_some hfound
  -- The call does not go beyond the label, which ends with a blank.
  have hblank : ' ' ∈ left := by
    have hlast : (before ++ left).getLast? = some ' ' := by
      rw [← hlabel, Piece.text, List.getLast?_append]
      rfl
    rw [List.getLast?_append_of_ne_nil _ hne] at hlast
    exact List.mem_of_getLast? hlast
  have hcall : "z.literal(".toList <+: left := by
    obtain hcall | ⟨tail, _, _, heq⟩ := Request.prefix_append_cases ⟨_, htext.symm⟩
    · exact hcall
    · have hmem : ' ' ∈ "z.literal(".toList := heq ▸ List.mem_append_left _ hblank
      exact absurd hmem (by decide)
  obtain ⟨inner, rfl⟩ := hcall
  intro heq
  rw [hlabel, List.append_assoc, rewritten_of_absent habsent, rewritten_of_eq_some hfound,
    List.append_assoc before, List.append_right_inj] at heq
  have hletters : ['z', '.', 'l', 'a'] = ['z', '.', 'l', 'i'] := congrArg (List.take 4) heq
  exact absurd hletters (by decide)

variable {constants : List String} {Holds : String → Prop} {pieces : List Piece}

/-- Resolving the markers of a text writes its references, and nothing else, exactly if
no marker begins in a label. -/
theorem rewritten_textOf_iff (hsound : ∀ piece ∈ pieces, piece.Sound constants Holds)
    (hconstants : ∀ constant ∈ constants, IsAlphanumeric constant ∧ constant.toList ≠ []) :
    rewritten (textOf pieces) = directOf pieces ↔ LabelsPassed pieces := by
  induction pieces with
  | nil => exact iff_of_true rewritten_nil trivial
  | cons piece pieces ih =>
      obtain ⟨hpiece, hpieces⟩ := List.forall_mem_cons.mp hsound
      rw [Zod.textOf_cons, Zod.directOf_cons]
      cases piece with
      | code text =>
          have habsent : Absent lazyReference? text (textOf pieces) :=
            absent_lazyReference? (absent_of_clashes hpiece _)
          rw [LabelsPassed, ← ih hpieces, Piece.text, rewritten_of_absent habsent]
          · exact List.append_right_inj text
          · exact fun _ heq => by cases heq
      | label name =>
          by_cases habsent : Absent lazyReference? (Piece.label name).text (textOf pieces)
          · rw [LabelsPassed, ← ih hpieces, rewritten_of_absent habsent, and_iff_right habsent]
            exact List.append_right_inj (Piece.label name).text
          · exact iff_of_false (rewritten_label_ne habsent _) fun hpassed => habsent hpassed.1
      | reference constant =>
          obtain ⟨halpha, hne⟩ := hconstants constant hpiece
          rw [LabelsPassed, ← ih hpieces,
            rewritten_of_eq_some (lazyReference?_reference hne halpha _)]
          · exact List.append_right_inj _
          · exact fun _ heq => by cases heq

/-- No marker begins in a label if no name of a label holds the beginning of one. -/
theorem labelsPassed_of_sound
    (hsound : ∀ piece ∈ pieces, piece.Sound constants fun name =>
      ¬ apostropheMarker <:+: name.toList) : LabelsPassed pieces := by
  induction pieces with
  | nil => trivial
  | cons piece pieces ih =>
      obtain ⟨hpiece, hpieces⟩ := List.forall_mem_cons.mp hsound
      cases piece with
      | label name => exact ⟨absent_label hpiece _, ih hpieces⟩
      | code | reference => exact ih hpieces

theorem not_mem_newline_directOf (hsound : ∀ piece ∈ pieces, piece.Sound constants Holds)
    (hconstants : ∀ constant ∈ constants, IsAlphanumeric constant ∧ constant.toList ≠ [])
    (h : '\n' ∉ textOf pieces) : '\n' ∉ directOf pieces := by
  induction pieces with
  | nil => exact h
  | cons piece pieces ih =>
      obtain ⟨hpiece, hpieces⟩ := List.forall_mem_cons.mp hsound
      rw [Zod.textOf_cons, List.mem_append, not_or] at h
      rw [Zod.directOf_cons, List.mem_append, not_or]
      refine ⟨?_, ih hpieces h.2⟩
      cases piece with
      | code | label => exact h.1
      | reference constant =>
          have hline : '\n' ∉ constant.toList := fun hmem =>
            absurd ((hconstants constant hpiece).1 _ hmem) (by decide)
          simp [Piece.direct, Zod.call, hline]

end Pieces

end RequestShapes.Endpoint
