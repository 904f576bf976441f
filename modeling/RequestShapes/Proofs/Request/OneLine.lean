import RequestShapes.Proofs.Request.Entries
import RequestShapes.Proofs.Request.Reading
import RequestShapes.Proofs.Request.Samples
import RequestShapes.Proofs.Request.Scanning

/-!
# Values on the line of their key

The name and the address of a request are each read behind the first place of a
key, and are meant to be the trimmed rest of the line there. Blanks behind a key
are passed over with the line ends among them. So a key with nothing on its line
takes its value from a later line, if any text follows at all. In every other
case the value is the rest of the line, and no later line matters.
-/

namespace RequestShapes.Request

open Text

/-- The text up to its first line end. -/
def firstLine (text : List Char) : List Char :=
  text.takeWhile (· ≠ '\n')

/-- The first line of a text without the blanks around it. -/
def lineValue (text : List Char) : String :=
  String.ofList (trim (firstLine text))

/-- What is read from the text behind a key. -/
def valueBehind? (rest : List Char) : Option String :=
  match dropBlank rest with
  | [] => if rest.any (· ≠ '\n') then some "" else none
  | content => some (lineValue content)

theorem textAfter?_eq (key : String) (text : List Char) :
    textAfter? key text = firstAt? (fun left => (after? key.toList left).bind valueBehind?) text :=
  rfl

/-! ## Blank texts -/

section Blank

variable {text : List Char}

theorem exists_dropBlank (h : ∃ c ∈ text, isBlank c = false) :
    ∃ c content, dropBlank text = c :: content ∧ isBlank c = false := by
  cases hcontent : dropBlank text with
  | nil =>
      obtain ⟨c, hmem, hc⟩ := h
      rw [List.dropWhile_eq_nil_iff.mp hcontent c hmem] at hc
      cases hc
  | cons c content =>
      have hhead := List.head?_dropWhile_not isBlank text
      rw [← dropBlank, hcontent, List.head?_cons] at hhead
      exact ⟨c, content, rfl, by simpa using hhead⟩

theorem trim_eq_nil_iff : trim text = [] ↔ ∀ c ∈ text, isBlank c = true := by
  constructor
  · intro h c hmem
    by_contra hc
    obtain ⟨first, content, hcontent, hfirst⟩ := exists_dropBlank ⟨c, hmem, by simpa using hc⟩
    rw [trim, hcontent, List.reverse_eq_nil_iff, dropBlank, List.dropWhile_eq_nil_iff] at h
    rw [h first (by simp)] at hfirst
    cases hfirst
  · intro h
    rw [trim, dropBlank, dropBlank, List.dropWhile_eq_nil_iff.mpr h]
    rfl

theorem lineValue_eq_empty_iff : lineValue text = "" ↔ ∀ c ∈ firstLine text, isBlank c = true := by
  rw [← trim_eq_nil_iff, lineValue, ← String.toList_eq_nil_iff, String.toList_ofList]

end Blank

/-! ## Behind one key -/

section Behind

variable {rest : List Char}

/-- Blanks on the line of a value do not belong to it. -/
theorem lineValue_append {blanks text : List Char} (hblank : ∀ c ∈ blanks, isBlank c = true)
    (hline : '\n' ∉ blanks) : lineValue (blanks ++ text) = lineValue text := by
  have hkept : ∀ c ∈ blanks, decide (c ≠ '\n') = true := fun c hc =>
    decide_eq_true (ne_of_mem_of_not_mem hc hline)
  rw [lineValue, lineValue, firstLine, firstLine, List.takeWhile_append_of_pos hkept,
    trim_append_left hblank]

/-- What is on the line of the key is read, and nothing else. -/
theorem valueBehind?_of_line (h : ∃ c ∈ firstLine rest, isBlank c = false) :
    valueBehind? rest = some (lineValue rest) := by
  obtain ⟨c, hmem, hc⟩ := h
  have hprefix : firstLine rest <+: rest := List.takeWhile_prefix _
  -- The blanks in front end before the line does, or the line would be blank.
  have hline : '\n' ∉ rest.takeWhile isBlank := by
    intro hend
    obtain hwithin | hbeyond :=
      List.prefix_or_prefix_of_prefix hprefix (List.takeWhile_prefix isBlank)
    · rw [List.mem_takeWhile_imp (hwithin.subset hmem)] at hc
      cases hc
    · simpa using List.mem_takeWhile_imp (hbeyond.subset hend)
  have hvalue : lineValue rest = lineValue (dropBlank rest) := by
    conv_lhs => rw [← List.takeWhile_append_dropWhile (p := isBlank) (l := rest)]
    exact lineValue_append (fun _ => List.mem_takeWhile_imp) hline
  obtain ⟨first, content, hcontent, -⟩ := exists_dropBlank ⟨c, hprefix.subset hmem, hc⟩
  rw [valueBehind?, hvalue, hcontent]

/-- Behind a blank line the next line with text on it is read. -/
theorem valueBehind?_of_later (h : ∃ c ∈ rest, isBlank c = false) :
    valueBehind? rest = some (lineValue (dropBlank rest)) ∧ lineValue (dropBlank rest) ≠ "" := by
  obtain ⟨c, content, hcontent, hc⟩ := exists_dropBlank h
  rw [valueBehind?, hcontent]
  refine ⟨rfl, fun hempty => ?_⟩
  have hmem : c ∈ firstLine (c :: content) := by
    have hend : c ≠ '\n' := by
      rintro rfl
      cases hc
    simp [firstLine, hend]
  rw [lineValue_eq_empty_iff.mp hempty c hmem] at hc
  cases hc

/-- Blanks alone say nothing, and line ends alone are not even read. -/
theorem valueBehind?_of_blank (h : ∀ c ∈ rest, isBlank c = true) :
    valueBehind? rest = some "" ∨ valueBehind? rest = none ∧ ∀ c ∈ rest, c = '\n' := by
  rw [valueBehind?, dropBlank, List.dropWhile_eq_nil_iff.mpr h]
  by_cases hany : rest.any (· ≠ '\n') = true
  · exact .inl (if_pos hany)
  · exact .inr ⟨if_neg hany, by simpa using hany⟩

end Behind

/-! ## The first place of a key -/

theorem exists_cut? {separator text : List Char} (h : separator <:+: text) :
    ∃ before rest, cut? separator text = some (before, rest) := by
  induction text with
  | nil =>
      obtain rfl := List.infix_nil.mp h
      exact ⟨[], [], rfl⟩
  | cons c text ih =>
      rw [cut?]
      cases hafter : after? separator (c :: text) with
      | some rest => exact ⟨[], rest, rfl⟩
      | none =>
          obtain hprefix | hlater := List.infix_cons_iff.mp h
          · exact absurd hprefix (after?_eq_none_iff.mp hafter)
          · obtain ⟨before, rest, hcut⟩ := ih hlater
            exact ⟨c :: before, rest, by rw [hcut]; rfl⟩

/-- What is read behind the first place of a key is what is found. If nothing is
read there, there must be no second place. -/
theorem firstAt?_of_cut? {α : Type} {first : Char} {others text before rest : List Char}
    {use : List Char → Option α} (hothers : first ∉ others)
    (hcut : cut? (first :: others) text = some (before, rest))
    (hrest : use rest = none → first ∉ rest) :
    firstAt? (fun left => (after? (first :: others) left).bind use) text = use rest := by
  induction text generalizing before with
  | nil => cases hcut
  | cons c text ih =>
      rw [cut?] at hcut
      split at hcut
      next later hafter =>
        cases hcut
        rw [firstAt?, hafter, Option.bind_some]
        cases huse : use rest with
        | some found => rfl
        | none =>
            -- The key begins with a character that is found neither in it nor behind it.
            obtain ⟨rfl, htext⟩ := List.cons.inj (after?_eq_some hafter)
            have hnot : c ∉ text := by
              rw [htext]
              exact fun hmem => (List.mem_append.mp hmem).elim hothers (hrest huse)
            have habsent : Absent (fun left => (after? (c :: others) left).bind use) text [] :=
              (absent_of_not_mem hnot []).mono fun left hleft => by rw [hleft, Option.bind_none]
            have hnone := firstAt?_absent habsent
            rw [List.append_nil] at hnone
            rw [Option.none_or, hnone]
            rfl
      next hnone =>
        obtain ⟨⟨front, later⟩, hlater, heq⟩ := Option.map_eq_some_iff.mp hcut
        cases heq
        rw [firstAt?, hnone, Option.bind_none, Option.none_or, ih hlater]

/-! ## One line -/

/-- A value is the rest of the line on which a key first stands. On a blank line
it may also be a fallback, if nothing was read. -/
def ReadOnLine (key : String) (text : List Char) (fallback value : String) : Prop :=
  key.toList <:+: text → ∃ before rest, cut? key.toList text = some (before, rest) ∧
    (value = lineValue rest ∨
      lineValue rest = "" ∧ textAfter? key text = none ∧ value = fallback)

/-- The first place of a key has blanks on the rest of its line, and other text
on a later one. -/
def RunsOver (key : String) (text : List Char) : Prop :=
  ∃ before rest, cut? key.toList text = some (before, rest) ∧
    (∀ c ∈ firstLine rest, isBlank c = true) ∧ ∃ c ∈ rest, isBlank c = false

instance (key : String) (text : List Char) : Decidable (RunsOver key text) :=
  decidable_of_iff ((cut? key.toList text).any fun found =>
      (firstLine found.2).all isBlank && found.2.any fun c => !isBlank c) <| by
    rw [RunsOver]
    cases cut? key.toList text <;> simp [Prod.ext_iff]

section Key

variable {key : String} {first : Char} {others : List Char}

theorem readOnLine_iff (hkey : key.toList = first :: others) (hothers : first ∉ others)
    (hfirst : first ≠ '\n') (text : List Char) (fallback : String) :
    ReadOnLine key text fallback ((textAfter? key text).getD fallback) ↔ ¬ RunsOver key text := by
  -- What is read is read behind the first place of the key.
  have hread : ∀ before rest, cut? key.toList text = some (before, rest) →
      textAfter? key text = valueBehind? rest := by
    intro before rest hcut
    rw [hkey] at hcut
    rw [textAfter?_eq, hkey]
    refine firstAt?_of_cut? hothers hcut fun hnone hmem => ?_
    by_cases hblank : ∀ c ∈ rest, isBlank c = true
    · obtain hsome | ⟨-, hends⟩ := valueBehind?_of_blank hblank
      · rw [hsome] at hnone
        cases hnone
      · exact hfirst (hends first hmem)
    · rw [(valueBehind?_of_later (by simpa using hblank)).1] at hnone
      cases hnone
  constructor
  · rintro hline ⟨before, rest, hcut, hblank, htext⟩
    obtain ⟨before', rest', hcut', hvalue⟩ := hline ⟨before, rest, by
      simpa using cut?_eq_some hcut⟩
    obtain ⟨rfl, rfl⟩ := Prod.mk.inj (Option.some.inj (hcut'.symm.trans hcut))
    obtain ⟨hsome, hne⟩ := valueBehind?_of_later htext
    rw [hread _ _ hcut, hsome] at hvalue
    obtain heq | ⟨-, hnone, -⟩ := hvalue
    · exact hne (heq.trans (lineValue_eq_empty_iff.mpr hblank))
    · cases hnone
  · intro hrun hkeyed
    obtain ⟨before, rest, hcut⟩ := exists_cut? hkeyed
    refine ⟨before, rest, hcut, ?_⟩
    rw [hread _ _ hcut]
    by_cases hblank : ∀ c ∈ firstLine rest, isBlank c = true
    · have hempty := lineValue_eq_empty_iff.mpr hblank
      have hall : ∀ c ∈ rest, isBlank c = true := fun c hc =>
        Bool.of_not_eq_false fun hother => hrun ⟨before, rest, hcut, hblank, c, hc, hother⟩
      obtain hsome | ⟨hnone, -⟩ := valueBehind?_of_blank hall
      · exact .inl (by rw [hsome, hempty]; rfl)
      · exact .inr ⟨hempty, hnone, by rw [hnone]; rfl⟩
    · exact .inl (by rw [valueBehind?_of_line (by simpa using hblank)]; rfl)

end Key

theorem address_readOnLine_iff (text : List Char) :
    ReadOnLine "url:" text "" ((textAfter? "url:" text).getD "") ↔ ¬ RunsOver "url:" text :=
  @readOnLine_iff "url:" 'u' "rl:".toList rfl (by decide) (by decide) text ""

theorem name_readOnLine_iff (block : List Char) (stem : String) :
    ReadOnLine "name:" block stem ((textAfter? "name:" block).getD stem) ↔
      ¬ RunsOver "name:" block :=
  @readOnLine_iff "name:" 'n' "ame:".toList rfl (by decide) (by decide) block stem

/-- The address and the name of a document are read on one line each, unless
their key has nothing but blanks on its line and text on a later one. -/
theorem read_on_one_line_iff {path : Files.Path} {text : List Char} {document : Document}
    (h : Document.read path text = .ok document) :
    (ReadOnLine "url:" text "" document.url ↔ ¬ RunsOver "url:" text) ∧
      ∀ block, body? "meta" text = some block →
        (ReadOnLine "name:" block path.stem document.name ↔ ¬ RunsOver "name:" block) := by
  obtain ⟨responses, headers, query, params, -, -, -, -, rfl⟩ := Document.read_eq_ok_iff.mp h
  refine ⟨address_readOnLine_iff text, ?_⟩
  intro block hblock
  have hname : documentName path text = (textAfter? "name:" block).getD path.stem := by
    rw [documentName, hblock, Option.bind_some]
  rw [hname]
  exact name_readOnLine_iff block path.stem

/-- A request whose name and address stand behind their keys. -/
def profileText : List Char :=
  ("meta \x7b\n  name: Get profile \n\x7d\n\n" ++
    "get \x7b\n  url: \x7b\x7bhost\x7d\x7d/me\n  body: none\n\x7d\n").toList

theorem profileText_read_on_one_line : ∃ document block,
    Document.read (.ofString "me.bru") profileText = .ok document ∧
      body? "meta" profileText = some block ∧ document.name = "Get profile" ∧
      document.url = "\x7b\x7bhost\x7d\x7d/me" ∧
      ReadOnLine "url:" profileText "" document.url ∧
      ReadOnLine "name:" block "me" document.name := by
  have hread : Document.read (.ofString "me.bru") profileText =
      .ok { path := "me.bru", name := "Get profile", method := "get",
            url := "\x7b\x7bhost\x7d\x7d/me", body := .null, headers := none, query := none,
            params := none, responses := [] } ∧
      body? "meta" profileText = some "\n  name: Get profile \n".toList ∧
      ¬ RunsOver "url:" profileText ∧
      ¬ RunsOver "name:" "\n  name: Get profile \n".toList := by
    decide +kernel
  obtain ⟨hread, hmeta, hurl, hname⟩ := hread
  obtain ⟨hurlLine, hnameLine⟩ := read_on_one_line_iff hread
  exact ⟨_, _, hread, hmeta, rfl, rfl, hurlLine.mpr hurl, (hnameLine _ hmeta).mpr hname⟩

/-- A request whose address was left out. -/
def blankAddress : List Char :=
  "get \x7b\n  url:\n  body: none\n\x7d\n".toList

/-- The entry below an address that was left out is read for it. -/
theorem blankAddress_runs_over : ∃ document,
    Document.read (.ofString "a.bru") blankAddress = .ok document ∧
      document.url = "body: none" ∧ ¬ ReadOnLine "url:" blankAddress "" document.url := by
  have hread : Document.read (.ofString "a.bru") blankAddress =
        .ok { path := "a.bru", name := "a", method := "get", url := "body: none", body := .null,
              headers := none, query := none, params := none, responses := [] } ∧
      textAfter? "url:" blankAddress = some "body: none" ∧ RunsOver "url:" blankAddress := by
    decide +kernel
  obtain ⟨hread, hvalue, hover⟩ := hread
  have hline := address_readOnLine_iff blankAddress
  rw [hvalue, Option.getD_some] at hline
  exact ⟨_, hread, rfl, fun honline => hline.mp honline hover⟩

end RequestShapes.Request
