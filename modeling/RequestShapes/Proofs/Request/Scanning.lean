import RequestShapes.Proofs.Schema.Retarget
import RequestShapes.Request.Reader
import Mathlib.Data.List.Infix
import Mathlib.Data.List.TakeWhile

/-!
# Scanning a text that was put together

A search goes through a text from left to right, so what it finds depends on
all that stands before the find. Here a text is a row of pieces, and a piece is
passed over if the test of the search fails at each of its characters. A header
begins with its name and ends with its only brace, so a piece that ends with a
brace says by itself whether a header begins in it.
-/

namespace RequestShapes.Request

open Schema (after?_append)
open Text

/-- What holds of every character of a text is checked character by character.
Deciding it as it stands may go through the whole type of characters. -/
theorem forall_mem_of_all {P : Char → Prop} [DecidablePred P] {text : List Char}
    (h : text.all (fun c => decide (P c)) = true) : ∀ c ∈ text, P c := by
  simpa using h

section Run

variable {holds : Char → Bool} {run rest : List Char}

/-- The longest run of a class ends where the text does not go on with it. -/
theorem takeWhile_run (hrun : ∀ c ∈ run, holds c = true)
    (hrest : ∀ c ∈ rest.head?, holds c = false) : (run ++ rest).takeWhile holds = run := by
  rw [List.takeWhile_append_of_pos hrun]
  cases rest with
  | nil => simp
  | cons c rest => rw [List.takeWhile_cons_of_neg (by simp [hrest c rfl]), List.append_nil]

theorem dropWhile_run (hrun : ∀ c ∈ run, holds c = true)
    (hrest : ∀ c ∈ rest.head?, holds c = false) : (run ++ rest).dropWhile holds = rest := by
  rw [List.dropWhile_append_of_pos hrun]
  cases rest with
  | nil => rfl
  | cons c rest => rw [List.dropWhile_cons_of_neg (by simp [hrest c rfl])]

end Run

/-! ## Passing over a piece -/

/-- A test fails at every character of a piece that has the rest behind it. -/
def Absent {α : Type} (test : List Char → Option α) : List Char → List Char → Prop
  | [], _ => True
  | c :: piece, rest => test (c :: (piece ++ rest)) = none ∧ Absent test piece rest

section Absence

variable {α β : Type} {test : List Char → Option α} {piece later rest : List Char}

@[simp] theorem absent_append :
    Absent test (piece ++ later) rest ↔
      Absent test piece (later ++ rest) ∧ Absent test later rest := by
  induction piece with
  | nil => simp [Absent]
  | cons c piece ih => simp only [List.cons_append, Absent, List.append_assoc, ih, and_assoc]

/-- What a test passes over, a narrower one passes over. -/
theorem Absent.mono {narrower : List Char → Option β} (h : Absent test piece rest)
    (hle : ∀ text, test text = none → narrower text = none) : Absent narrower piece rest := by
  induction piece with
  | nil => trivial
  | cons c piece ih => exact ⟨hle _ h.1, ih h.2⟩

theorem firstAt?_absent (h : Absent test piece rest) :
    firstAt? test (piece ++ rest) = firstAt? test rest := by
  induction piece with
  | nil => rfl
  | cons c piece ih => rw [List.cons_append, firstAt?, h.1, Option.none_or, ih h.2]

theorem replaceAll_nil (match? : List Char → Option (List Char × List Char)) :
    replaceAll match? [] = [] := by
  rw [replaceAll]

/-- What holds no match stays as it is. -/
theorem replaceAll_absent {match? : List Char → Option (List Char × List Char)}
    (h : Absent match? piece rest) :
    replaceAll match? (piece ++ rest) = piece ++ replaceAll match? rest := by
  induction piece with
  | nil => rfl
  | cons c piece ih =>
      rw [List.cons_append, replaceAll, h.1]
      exact congrArg (c :: ·) (ih h.2)

/-- A match that is not empty is replaced, and the search goes on behind it. -/
theorem replaceAll_of_eq_some {match? : List Char → Option (List Char × List Char)}
    {text replacement : List Char} (h : match? text = some (replacement, rest))
    (hlt : rest.length < text.length) :
    replaceAll match? text = replacement ++ replaceAll match? rest := by
  cases text with
  | nil => cases hlt
  | cons c text =>
      rw [replaceAll, h]
      exact if_pos (Nat.le_of_lt_succ hlt)

theorem firstAt?_of_eq_some {text : List Char} {found : α} (h : test text = some found) :
    firstAt? test text = some found := by
  cases text <;> simp [firstAt?, h]

end Absence

/-- Whether no part of a piece agrees with a key as far as both go. -/
def clashes (key : List Char) (piece : List Char) : Bool :=
  piece.tails.all fun left => left.isEmpty || !(left.isPrefixOf key || key.isPrefixOf left)

theorem after?_eq_none_iff {key text : List Char} : after? key text = none ↔ ¬ key <+: text := by
  constructor
  · rintro h ⟨rest, rfl⟩
    rw [after?_append] at h
    cases h
  · intro h
    rw [Option.eq_none_iff_forall_ne_some]
    intro rest hrest
    exact h ⟨rest, (after?_eq_some hrest).symm⟩

/-- A key is not found in a piece that clashes with it. -/
theorem absent_of_clashes {key piece : List Char} (h : clashes key piece = true)
    (rest : List Char) : Absent (after? key) piece rest := by
  induction piece with
  | nil => trivial
  | cons c piece ih =>
      simp only [clashes, List.tails_cons, List.all_cons, Bool.and_eq_true, List.isEmpty_cons,
        Bool.false_or, Bool.not_eq_true', Bool.or_eq_false_iff] at h
      obtain ⟨⟨hfront, hback⟩, htails⟩ := h
      refine ⟨after?_eq_none_iff.mpr fun hkey => ?_, ih htails⟩
      have hboth := List.prefix_or_prefix_of_prefix hkey (List.prefix_append (c :: piece) rest)
      simp only [← List.isPrefixOf_iff_prefix, hfront, hback] at hboth
      simp at hboth

/-- What begins two texts put together begins the first, or goes on into the
second. -/
theorem prefix_append_cases {mark left right : List Char} (h : mark <+: left ++ right) :
    mark <+: left ∨ ∃ tail, tail ≠ [] ∧ tail <+: right ∧ mark = left ++ tail := by
  obtain hleft | ⟨tail, rfl⟩ := List.prefix_or_prefix_of_prefix h (List.prefix_append left right)
  · exact .inl hleft
  · by_cases htail : tail = []
    · exact .inl (by simp [htail])
    · exact .inr ⟨tail, htail, (List.prefix_append_right_inj left).mp h, rfl⟩

/-- What has no stop in it and begins a text begins what stands before the
stop. -/
theorem prefix_of_not_mem {mark left rest : List Char} {stop : Char} (hstop : stop ∉ mark)
    (h : mark <+: left ++ stop :: rest) : mark <+: left := by
  obtain hleft | ⟨tail, hne, ⟨later, htail⟩, rfl⟩ := prefix_append_cases h
  · exact hleft
  · cases tail with
    | nil => exact absurd rfl hne
    | cons c tail =>
        cases htail
        simp at hstop

/-- A key is not found in a text that does not hold it, if a character that is
not part of the key follows. -/
theorem absent_of_not_within {key text : List Char} {stop : Char} (hstop : stop ∉ key)
    (h : ¬ key <:+: text) (rest : List Char) : Absent (after? key) text (stop :: rest) := by
  induction text with
  | nil => trivial
  | cons c text ih =>
      refine ⟨after?_eq_none_iff.mpr fun hkey => h ?_, ih fun hkey => h ?_⟩
      · exact (prefix_of_not_mem hstop hkey).isInfix
      · exact hkey.trans (List.suffix_cons c text).isInfix

/-- What a search reads behind the first place of a key. -/
theorem firstAt?_after? {α : Type} {key before rest : List Char} {use : List Char → Option α}
    {found : α} (hbefore : Absent (after? key) before (key ++ rest))
    (huse : use rest = some found) :
    firstAt? (fun text => (after? key text).bind use) (before ++ (key ++ rest)) = some found := by
  have habsent : Absent (fun text => (after? key text).bind use) before (key ++ rest) :=
    hbefore.mono fun text hnone => by rw [hnone, Option.bind_none]
  rw [firstAt?_absent habsent]
  apply firstAt?_of_eq_some
  rw [after?_append, Option.bind_some, huse]

theorem absent_of_not_mem {c : Char} {key text : List Char} (h : c ∉ text) (rest : List Char) :
    Absent (after? (c :: key)) text rest := by
  induction text with
  | nil => trivial
  | cons d text ih =>
      simp only [List.mem_cons, not_or] at h
      exact ⟨by simp [after?, h.1], ih h.2⟩

/-- A text is split at a separator that does not begin before. -/
theorem cut?_append {separator text rest : List Char} (hne : separator ≠ [])
    (h : Absent (after? separator) text (separator ++ rest)) :
    cut? separator (text ++ (separator ++ rest)) = some (text, rest) := by
  induction text with
  | nil =>
      obtain ⟨c, separator, rfl⟩ := List.exists_cons_of_ne_nil hne
      have hfound := after?_append (c :: separator) rest
      rw [List.cons_append] at hfound
      rw [List.nil_append, List.cons_append, cut?, hfound]
  | cons c text ih => rw [List.cons_append, cut?, h.1, ih h.2, Option.map_some]

/-! ## Headers -/

/-- A text without braces. -/
def Braceless (text : List Char) : Prop :=
  '{' ∉ text ∧ '}' ∉ text

instance (text : List Char) : Decidable (Braceless text) :=
  inferInstanceAs (Decidable (_ ∧ _))

theorem Braceless.mono {text part : List Char} (h : Braceless text) (hpart : part ⊆ text) :
    Braceless part :=
  ⟨fun hmem => h.1 (hpart hmem), fun hmem => h.2 (hpart hmem)⟩

@[simp] theorem braceless_append {text later : List Char} :
    Braceless (text ++ later) ↔ Braceless text ∧ Braceless later := by
  simp only [Braceless, List.mem_append, not_or]
  exact and_and_and_comm

/-- A header of a name: the name, blanks, perhaps a colon, blanks and a brace. -/
def IsHeader (name header : List Char) : Prop :=
  ∃ gap colon tail, header = name ++ (gap ++ (colon ++ (tail ++ ['{']))) ∧
    (∀ c ∈ gap, isBlank c = true) ∧ (colon = [] ∨ colon = [':']) ∧ ∀ c ∈ tail, isBlank c = true

theorem takeColon_fst (text : List Char) :
    (takeColon text).1 = [] ∨ (takeColon text).1 = [':'] := by
  unfold takeColon
  split
  · exact .inr rfl
  · exact .inl rfl

/-- What is read as a header is one. -/
theorem isHeader_of_header? {name text header inside : List Char}
    (h : header? name text = some (header, inside)) : IsHeader name header := by
  simp only [header?, Option.bind_eq_bind, Option.bind_eq_some_iff] at h
  obtain ⟨rest, _, h⟩ := h
  split at h
  next =>
    simp only [Option.some.injEq, Prod.mk.injEq] at h
    refine ⟨rest.takeWhile isBlank, (takeColon (rest.dropWhile isBlank)).1,
      (takeColon (rest.dropWhile isBlank)).2.takeWhile isBlank, ?_,
      fun _ => List.mem_takeWhile_imp, takeColon_fst _, fun _ => List.mem_takeWhile_imp⟩
    rw [← h.1]
    simp only [List.append_assoc]
  next => cases h

/-- A header at the start of a text is read. -/
theorem header?_append_self {name header : List Char} (h : IsHeader name header)
    (inside : List Char) : header? name (header ++ inside) = some (header, inside) := by
  obtain ⟨gap, colon, tail, rfl, hgap, hcolon, htail⟩ := h
  have hbrace : isBlank '{' = false := by decide
  have hmark : isBlank ':' = false := by decide
  obtain rfl | rfl := hcolon <;>
    simp [header?, after?_append, takeColon, hbrace, hmark, List.dropWhile_append_of_pos hgap,
      List.takeWhile_append_of_pos hgap, List.dropWhile_append_of_pos htail,
      List.takeWhile_append_of_pos htail]

theorem header?_of_after? {name text : List Char} (h : after? name text = none) :
    header? name text = none := by
  simp [header?, h]

section Header

variable {name header : List Char}

/-- The only brace of a header is its last character. -/
theorem IsHeader.eq_append (h : IsHeader name header) (hname : Braceless name) :
    ∃ front, header = front ++ ['{'] ∧ Braceless front := by
  obtain ⟨gap, colon, tail, rfl, hgap, hcolon, htail⟩ := h
  have hblank : ∀ blanks : List Char, (∀ c ∈ blanks, isBlank c = true) → Braceless blanks :=
    fun blanks hall => ⟨fun hmem => absurd (hall _ hmem) (by decide),
      fun hmem => absurd (hall _ hmem) (by decide)⟩
  have hbare : Braceless colon := by
    obtain rfl | rfl := hcolon <;> decide
  refine ⟨name ++ (gap ++ (colon ++ tail)), by simp only [List.append_assoc], ?_⟩
  simp only [braceless_append]
  exact ⟨hname, hblank gap hgap, hbare, hblank tail htail⟩

/-- A text at whose start no header is read has none there with more text behind
it, unless the header goes on into that. -/
theorem header?_append_eq_none {text rest : List Char} (htext : header? name text = none)
    (hbeyond : ∀ tail, tail ≠ [] → tail <+: rest → ¬ IsHeader name (text ++ tail)) :
    header? name (text ++ rest) = none := by
  rw [Option.eq_none_iff_forall_ne_some]
  rintro ⟨header, inside⟩ hheader
  have hhead := isHeader_of_header? hheader
  obtain ⟨left, rfl⟩ | ⟨tail, hne, htail, rfl⟩ :=
    prefix_append_cases ⟨inside, header?_append hheader⟩
  · rw [header?_append_self hhead] at htext
    cases htext
  · exact hbeyond tail hne htail hhead

/-- A header that begins in a text does not go on beyond a brace of the text. -/
theorem header?_append_of_brace {text : List Char} (hname : Braceless name)
    (htext : header? name text = none) (hbrace : ¬ Braceless text) (rest : List Char) :
    header? name (text ++ rest) = none := by
  apply header?_append_eq_none htext
  intro tail hne _ hhead
  -- Without its last character a header has no brace, and the text is part of that.
  obtain ⟨front, heq, hfront⟩ := hhead.eq_append hname
  obtain ⟨tail, c, rfl⟩ := (List.eq_nil_or_concat tail).resolve_left hne
  rw [List.concat_eq_append, ← List.append_assoc] at heq
  obtain ⟨rfl, -⟩ := List.append_inj' heq rfl
  exact hbrace (hfront.mono (List.subset_append_left text tail))

/-- A header that begins in a text does not end in what has no opening brace. -/
theorem header?_append_of_not_mem {text gap : List Char} (hname : Braceless name)
    (htext : header? name text = none) (hgap : '{' ∉ gap) : header? name (text ++ gap) = none := by
  apply header?_append_eq_none htext
  intro tail hne htail hhead
  -- The last character of the header is a brace and would stand in the gap.
  obtain ⟨front, heq, -⟩ := hhead.eq_append hname
  have hlast := congrArg List.getLast? heq
  rw [List.getLast?_append_of_ne_nil _ hne, List.getLast?_concat] at hlast
  exact hgap (htail.subset (List.mem_of_getLast? hlast))

end Header

/-- No header of a name stands anywhere in a text. -/
def HeaderFree (name text : List Char) : Prop :=
  ∀ left ∈ text.tails, header? name left = none

instance (name text : List Char) : Decidable (HeaderFree name text) :=
  inferInstanceAs (Decidable (∀ left ∈ text.tails, header? name left = none))

section HeaderFree

variable {name text : List Char}

theorem headerFree_cons {c : Char} :
    HeaderFree name (c :: text) ↔ header? name (c :: text) = none ∧ HeaderFree name text := by
  simp [HeaderFree]

theorem header?_nil (name : List Char) : header? name [] = none := by
  rw [Option.eq_none_iff_forall_ne_some]
  rintro ⟨header, inside⟩ hheader
  obtain ⟨gap, colon, tail, rfl, -⟩ := isHeader_of_header? hheader
  have := header?_append hheader
  simp at this

theorem HeaderFree.append_of_not_mem {gap : List Char} (hname : Braceless name)
    (htext : HeaderFree name text) (hgap : '{' ∉ gap) : HeaderFree name (text ++ gap) := by
  induction text with
  | nil =>
      intro left hleft
      refine header?_append_of_not_mem hname (header?_nil name) ?_
      exact fun hmem => hgap (((List.mem_tails _ _).mp hleft).subset hmem)
  | cons c text ih =>
      obtain ⟨hhead, htail⟩ := headerFree_cons.mp htext
      exact headerFree_cons.mpr ⟨header?_append_of_not_mem hname hhead hgap, ih htail⟩

theorem headerFree_of_not_mem (hname : Braceless name) (htext : '{' ∉ text) :
    HeaderFree name text :=
  @HeaderFree.append_of_not_mem _ [] _ hname (by simp [HeaderFree, header?_nil]) htext

theorem HeaderFree.append_of_clashes {front : List Char} (hfront : clashes name front = true)
    (htext : HeaderFree name text) : HeaderFree name (front ++ text) := by
  -- The clash is a fact of the whole front; the induction needs it piece by piece.
  have habsent := absent_of_clashes hfront text
  clear hfront
  induction front with
  | nil => exact htext
  | cons c front ih =>
      exact headerFree_cons.mpr ⟨header?_of_after? habsent.1, ih habsent.2⟩

/-- Nothing is found in a text that has no header in it and ends with a brace. -/
theorem HeaderFree.absent {brace : Char} (hname : Braceless name)
    (h : HeaderFree name (text ++ [brace])) (hbrace : ¬ Braceless [brace]) (rest : List Char) :
    Absent (header? name) (text ++ [brace]) rest := by
  induction text with
  | nil => exact ⟨header?_append_of_brace hname (headerFree_cons.mp h).1 hbrace rest, trivial⟩
  | cons c text ih =>
      obtain ⟨hhead, htail⟩ := headerFree_cons.mp h
      refine ⟨header?_append_of_brace hname hhead (fun hnone => hbrace ?_) rest, ih htail⟩
      exact hnone.mono (List.subset_append_right (c :: text) [brace])

end HeaderFree

end RequestShapes.Request
