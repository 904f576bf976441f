import RequestShapes.Proofs.Request.Blocks
import RequestShapes.Proofs.Request.Entries
import RequestShapes.Proofs.Request.Reading

/-!
# Which texts can be read

A part of a document that does not fit is absent, so nearly every text is a
document. The one thing that stops a reading is an integer of more digits than
an integer may have: as the value of an entry, in a table of the request or in
the headers of a response that is kept, or as the status of an example.
-/

namespace RequestShapes.Request

open Schema (bind_eq_ok exists_bind_ok_iff exists_map_ok_iff)
open Text

/-! ## Values -/

section Values

variable {text digits : List Char} {negative : Bool}

/-- A text is overlong if it is an integer of too many digits: after an optional
sign there are digits, of any script, and nothing else. -/
def Overlong (text : List Char) : Prop :=
  (∀ c ∈ (takeSign text).2, isDigit c = true) ∧ digitLimit < (takeSign text).2.length

theorem exists_readInteger_iff :
    (∃ n, readInteger negative digits = .ok n) ↔ digits.length ≤ digitLimit := by
  unfold readInteger
  split
  next hlong => simp [hlong]
  next hshort => simpa using hshort

/-- What is read as the numeral of an integer is digits after an optional sign. -/
theorem takeSign_of_numeral? (h : numeral? text = some ⟨negative, digits, none, none⟩) :
    takeSign text = (negative, digits) ∧ ∀ c ∈ digits, isDigit c = true := by
  obtain ⟨hnegative, hwhole, hend⟩ := numeral?_eq_some h
  have hall := List.takeWhile_append_dropWhile (p := isDigit) (l := (takeSign text).2)
  rw [hend rfl rfl, List.append_nil, ← hwhole] at hall
  refine ⟨Prod.ext hnegative.symm hall.symm, fun c hc => ?_⟩
  rw [show digits = _ from hwhole] at hc
  exact List.mem_takeWhile_imp hc

/-- A numeral has a value unless it is an integer of too many digits. -/
theorem exists_value_iff {numeral : Numeral} :
    (∃ value, numeral.value = .ok value) ↔
      (numeral.fraction = none → numeral.exponent = none → numeral.whole.length ≤ digitLimit) := by
  unfold Numeral.value
  split
  next hinteger =>
    simp only [Bool.and_eq_true, Option.isNone_iff_eq_none] at hinteger
    rw [exists_map_ok_iff, exists_readInteger_iff]
    exact ⟨fun hfits _ _ => hfits, fun h => h hinteger.1 hinteger.2⟩
  next hfloat =>
    refine ⟨fun _ hfraction hexponent => ?_, fun _ => ⟨_, rfl⟩⟩
    exact absurd (by simp [hfraction, hexponent]) hfloat

/-- Everything but an overlong integer has a value. -/
theorem exists_valueOf_iff : (∃ value, valueOf text = .ok value) ↔ ¬ Overlong text := by
  -- The two words are too short to be overlong.
  have hword : ∀ word : List Char, (takeSign word).2.length ≤ digitLimit → ¬ Overlong word :=
    fun word hshort hlong => Nat.not_lt.mpr hshort hlong.2
  unfold valueOf
  split
  next heq => exact ⟨fun _ => heq ▸ hword _ (by decide), fun _ => ⟨_, rfl⟩⟩
  next =>
    split
    next heq => exact ⟨fun _ => heq ▸ hword _ (by decide), fun _ => ⟨_, rfl⟩⟩
    next =>
      split
      next numeral hnumeral =>
        rw [exists_value_iff]
        constructor
        · rintro hfits ⟨hdigits, hlong⟩
          have hne : (takeSign text).2 ≠ [] := List.length_pos_iff.mp (Nat.zero_lt_of_lt hlong)
          rw [numeral?_of_digits rfl hne hdigits] at hnumeral
          cases hnumeral
          exact Nat.not_lt.mpr (hfits rfl rfl) hlong
        · intro hshort hfraction hexponent
          obtain ⟨negative, whole, fraction, exponent⟩ := numeral
          obtain rfl : fraction = none := hfraction
          obtain rfl : exponent = none := hexponent
          obtain ⟨hsign, hdigits⟩ := takeSign_of_numeral? hnumeral
          rw [Overlong, hsign] at hshort
          exact Nat.not_lt.mp fun hlong => hshort ⟨hdigits, hlong⟩
      next hnumeral =>
        refine ⟨fun _ hlong => ?_, fun _ => ⟨_, rfl⟩⟩
        have hne : (takeSign text).2 ≠ [] := List.length_pos_iff.mp (Nat.zero_lt_of_lt hlong.2)
        rw [numeral?_of_digits rfl hne hlong.1] at hnumeral
        cases hnumeral

end Values

/-! ## Tables -/

section Tables

variable {text block : List Char} {name : String}

/-- No entry of a block has an overlong integer as its value. -/
def LegibleBlock (block : List Char) : Prop :=
  ∀ line ∈ lines block, ∀ key value, splitEntry? line = some (key, value) → ¬ Overlong value

theorem exists_entriesOf_iff {lines : List (List Char)} :
    (∃ entries, entriesOf lines = .ok entries) ↔
      ∀ line ∈ lines, ∀ key value, splitEntry? line = some (key, value) → ¬ Overlong value := by
  induction lines with
  | nil => simp [entriesOf]
  | cons line lines ih =>
      rw [List.forall_mem_cons, ← ih, entriesOf]
      cases hsplit : splitEntry? line with
      | none => simp
      | some entry =>
          obtain ⟨key, value⟩ := entry
          rw [exists_bind_ok_iff]
          constructor
          · rintro ⟨read, hvalue, hrest⟩
            obtain ⟨entries, hentries, -⟩ := exists_bind_ok_iff.mp hrest
            refine ⟨fun key' value' heq => ?_, entries, hentries⟩
            cases heq
            exact exists_valueOf_iff.mp ⟨read, hvalue⟩
          · rintro ⟨hline, entries, hentries⟩
            obtain ⟨read, hvalue⟩ := exists_valueOf_iff.mpr (hline key value rfl)
            exact ⟨read, hvalue, exists_bind_ok_iff.mpr ⟨entries, hentries, _, rfl⟩⟩

theorem exists_entries?_iff : (∃ table, entries? block = .ok table) ↔ LegibleBlock block := by
  rw [LegibleBlock, ← exists_entriesOf_iff, entries?, exists_bind_ok_iff]
  constructor
  · rintro ⟨entries, hentries, -⟩
    exact ⟨entries, hentries⟩
  · rintro ⟨entries, hentries⟩
    refine ⟨entries, hentries, ?_⟩
    split <;> exact ⟨_, rfl⟩

/-- The block of a name is legible, if there is one. -/
def LegibleTable (name : String) (text : List Char) : Prop :=
  ∀ block, body? name text = some block → LegibleBlock block

theorem exists_blockEntries_iff :
    (∃ table, blockEntries name text = .ok table) ↔ LegibleTable name text := by
  unfold blockEntries LegibleTable
  split
  next hnone => simp [hnone]
  next block hblock => simpa [hblock] using exists_entries?_iff

end Tables

/-! ## Examples -/

/-- The digits of the status of an example. -/
def statusDigits? (text : List Char) : Option (List Char) :=
  (body? "response" text).bind fun response =>
    (body? "status" response).bind (digitsAfter? "code:")

/-- The status of an example, whatever the number of its digits. -/
def writtenStatus? (text : List Char) : Option Nat :=
  (statusDigits? text).map digitsValue

/-- An example can be read behind others whose statuses were seen: its status
has not too many digits, and if it is kept its headers are legible. -/
structure LegibleExample (seen : List Nat) (text : List Char) : Prop where
  status : ∀ digits, statusDigits? text = some digits → digits.length ≤ digitLimit
  headers : ∀ response status, body? "response" text = some response →
    writtenStatus? text = some status → 0 < status → status ∉ seen →
      LegibleTable "headers" response

section Examples

variable {seen : List Nat} {text : List Char}

theorem exists_status?_iff {response : List Char} :
    (∃ status, status? response = .ok status) ↔
      ∀ digits, (body? "status" response).bind (digitsAfter? "code:") = some digits →
        digits.length ≤ digitLimit := by
  unfold status?
  split
  next hnone => simp [hnone]
  next digits hdigits =>
    rw [exists_map_ok_iff, exists_readInteger_iff, hdigits]
    simp

/-- The status that is read is the one that is written. -/
theorem writtenStatus?_of_status? {response : List Char} {status : Option Nat}
    (hresponse : body? "response" text = some response) (h : status? response = .ok status) :
    writtenStatus? text = status := by
  rw [writtenStatus?, statusDigits?, hresponse, Option.bind_some]
  unfold status? at h
  split at h
  next hnone =>
    cases h
    rw [hnone, Option.map_none]
  next digits hdigits =>
    rw [hdigits, Option.map_some]
    unfold readInteger at h
    split at h
    next => cases h
    next =>
      cases h
      simp

/-- The response of an example can be read if the example is legible. -/
theorem exists_response?_iff :
    (∃ response, response? seen text = .ok response) ↔ LegibleExample seen text := by
  unfold response?
  split
  next hnone =>
    refine ⟨fun _ => ⟨fun digits hdigits => ?_, fun response _ hresponse => ?_⟩, fun _ => ⟨_, rfl⟩⟩
    · rw [statusDigits?, hnone] at hdigits
      cases hdigits
    · rw [hnone] at hresponse
      cases hresponse
  next response hresponse =>
    have hstatus : (∃ status, status? response = .ok status) ↔
        ∀ digits, statusDigits? text = some digits → digits.length ≤ digitLimit := by
      rw [exists_status?_iff, statusDigits?, hresponse, Option.bind_some]
    rw [exists_bind_ok_iff]
    constructor
    · rintro ⟨status, hread, hrest⟩
      refine ⟨hstatus.mp ⟨status, hread⟩, fun response' code hresponse' hcode hpos hnew => ?_⟩
      rw [hresponse] at hresponse'
      cases hresponse'
      obtain rfl := (writtenStatus?_of_status? hresponse hread).symm.trans hcode
      simp only [dif_pos (show 0 < code ∧ code ∉ seen from ⟨hpos, hnew⟩)] at hrest
      obtain ⟨headers, hheaders, -⟩ := exists_bind_ok_iff.mp hrest
      exact exists_blockEntries_iff.mp ⟨headers, hheaders⟩
    · intro hlegible
      obtain ⟨status, hread⟩ := hstatus.mpr hlegible.status
      refine ⟨status, hread, ?_⟩
      split
      next => exact ⟨_, rfl⟩
      next code =>
        split
        next hkept =>
          have hcode := writtenStatus?_of_status? hresponse hread
          obtain ⟨headers, hheaders⟩ := exists_blockEntries_iff.mpr
            (hlegible.headers response code hresponse hcode hkept.1 hkept.2)
          exact exists_bind_ok_iff.mpr ⟨headers, hheaders, _, rfl⟩
        next => exact ⟨_, rfl⟩

/-- After an example its status was seen, and beyond that no status but zero. -/
theorem mem_seen_iff {found : Option Response} (h : response? seen text = .ok found) {status : Nat}
    (hpos : 0 < status) :
    status ∈ (found.map Response.status).toList ++ seen ↔
      writtenStatus? text = some status ∨ status ∈ seen := by
  have hwritten : found.map Response.status = writtenStatus? text ∨
      found = none ∧ ∀ code, writtenStatus? text = some code → code = 0 ∨ code ∈ seen := by
    unfold response? at h
    split at h
    next hnone =>
      cases h
      left
      rw [writtenStatus?, statusDigits?, hnone]
      rfl
    next response hresponse =>
      obtain ⟨code, hcode, h⟩ := bind_eq_ok h
      have hstatus := writtenStatus?_of_status? hresponse hcode
      split at h
      next =>
        cases h
        exact .inl hstatus.symm
      next code =>
        split at h
        next hkept =>
          obtain ⟨headers, -, h⟩ := bind_eq_ok h
          cases h
          exact .inl hstatus.symm
        next hskipped =>
          cases h
          refine .inr ⟨rfl, fun code' hcode' => ?_⟩
          cases hstatus.symm.trans hcode'
          simp only [not_and, not_not] at hskipped
          exact (Nat.eq_zero_or_pos code).imp_right hskipped
  obtain heq | ⟨rfl, hseen⟩ := hwritten
  · simp [← heq]
  · simp only [Option.map_none, Option.toList_none, List.nil_append, iff_or_self]
    exact fun hcode => (hseen status hcode).resolve_left hpos.ne'

theorem LegibleExample.mono {seen' : List Nat} (h : LegibleExample seen text)
    (hle : ∀ status, 0 < status → status ∈ seen → status ∈ seen') : LegibleExample seen' text where
  status := h.status
  headers := fun response status hresponse hstatus hpos hnew =>
    h.headers response status hresponse hstatus hpos fun hmem => hnew (hle status hpos hmem)

/-- Every example can be read behind those before it. -/
def LegibleExamples (seen : List Nat) (texts : List (List Char)) : Prop :=
  ∀ earlier text later, texts = earlier ++ text :: later →
    LegibleExample (earlier.filterMap writtenStatus? ++ seen) text

theorem legibleExamples_cons {texts : List (List Char)} {found : Option Response}
    (h : response? seen text = .ok found) :
    LegibleExamples seen (text :: texts) ↔
      LegibleExample seen text ∧
        LegibleExamples ((found.map Response.status).toList ++ seen) texts := by
  -- What was seen behind the example is what was written in it or seen before.
  have hmem : ∀ (earlier : List (List Char)) (status : Nat), 0 < status →
      (status ∈ (text :: earlier).filterMap writtenStatus? ++ seen ↔
        status ∈ earlier.filterMap writtenStatus? ++
          ((found.map Response.status).toList ++ seen)) := by
    intro earlier status hpos
    rw [List.mem_append, List.mem_append, mem_seen_iff h hpos]
    simp only [List.mem_filterMap, List.mem_cons, exists_eq_or_imp]
    rw [or_assoc]
    exact or_left_comm
  constructor
  · intro hall
    refine ⟨hall [] text texts rfl, fun earlier other later heq => ?_⟩
    refine (hall (text :: earlier) other later (by rw [heq]; rfl)).mono fun status hpos => ?_
    exact (hmem earlier status hpos).mp
  · rintro ⟨hfirst, hrest⟩ earlier other later heq
    cases earlier with
    | nil =>
        cases heq
        exact hfirst
    | cons first earlier =>
        cases heq
        exact (hrest earlier other later rfl).mono fun status hpos => (hmem earlier status hpos).mpr

theorem exists_responsesOf_iff {texts : List (List Char)} :
    (∃ responses, responsesOf seen texts = .ok responses) ↔ LegibleExamples seen texts := by
  induction texts generalizing seen with
  | nil =>
      refine ⟨fun _ earlier text later heq => ?_, fun _ => ⟨[], rfl⟩⟩
      simp at heq
  | cons text texts ih =>
      rw [responsesOf, exists_bind_ok_iff]
      constructor
      · rintro ⟨found, hfound, hread⟩
        refine (legibleExamples_cons hfound).mpr ⟨exists_response?_iff.mp ⟨found, hfound⟩, ih.mp ?_⟩
        cases found with
        | none => exact hread
        | some response =>
            obtain ⟨rest, hrest, -⟩ := exists_bind_ok_iff.mp hread
            exact ⟨rest, hrest⟩
      · intro hlegible
        have hfirst : LegibleExample seen text := hlegible [] text texts rfl
        obtain ⟨found, hfound⟩ := exists_response?_iff.mpr hfirst
        obtain ⟨rest, hrest⟩ := ih.mpr ((legibleExamples_cons hfound).mp hlegible).2
        refine ⟨found, hfound, ?_⟩
        cases found with
        | none => exact ⟨rest, hrest⟩
        | some response => exact exists_bind_ok_iff.mpr ⟨rest, hrest, _, rfl⟩

end Examples

/-! ## Documents -/

/-- A text is legible if its tables and its examples are. -/
structure Legible (text : List Char) : Prop where
  headers : LegibleTable "headers" (withoutBlocks "example" text)
  query : LegibleTable "params:query" (withoutBlocks "example" text)
  params : LegibleTable "params:path" (withoutBlocks "example" text)
  examples : LegibleExamples [] (bodies "example" text)

/-- Every block and every text is read but those that hold, where a value or a
status is read, an integer of too many digits. -/
theorem exists_read_iff (block : List Char) (path : Files.Path) (text : List Char) :
    ((∃ table, entries? block = .ok table) ↔ LegibleBlock block) ∧
      ((∃ document, Document.read path text = .ok document) ↔ Legible text) := by
  refine ⟨exists_entries?_iff, ?_⟩
  constructor
  · rintro ⟨document, hread⟩
    obtain ⟨responses, headers, query, params, hresponses, hheaders, hquery, hparams, -⟩ :=
      Document.read_eq_ok_iff.mp hread
    exact
      { headers := exists_blockEntries_iff.mp ⟨headers, hheaders⟩
        query := exists_blockEntries_iff.mp ⟨query, hquery⟩
        params := exists_blockEntries_iff.mp ⟨params, hparams⟩
        examples := exists_responsesOf_iff.mp ⟨responses, hresponses⟩ }
  · intro hlegible
    obtain ⟨responses, hresponses⟩ := exists_responsesOf_iff.mpr hlegible.examples
    obtain ⟨headers, hheaders⟩ := exists_blockEntries_iff.mpr hlegible.headers
    obtain ⟨query, hquery⟩ := exists_blockEntries_iff.mpr hlegible.query
    obtain ⟨params, hparams⟩ := exists_blockEntries_iff.mpr hlegible.params
    exact ⟨_, Document.read_eq_ok_iff.mpr
      ⟨responses, headers, query, params, hresponses, hheaders, hquery, hparams, rfl⟩⟩

/-! ## An entry that cannot be read -/

/-- An entry whose value is an integer with a digit too many. -/
def longEntry : List Char :=
  'n' :: ':' :: (List.replicate (digitLimit + 1) '1' ++ ['\n'])

theorem braceless_longEntry : Braceless longEntry := by
  simp [Braceless, longEntry, List.mem_replicate]

theorem not_legibleBlock_longEntry : ¬ LegibleBlock longEntry := by
  -- Everything here holds of any number of ones, so none of them is written out.
  generalize hones : List.replicate (digitLimit + 1) '1' = ones
  have hmem : ∀ c ∈ ones, c = '1' := fun c hc => List.eq_of_mem_replicate (hones ▸ hc)
  have hlength : digitLimit < ones.length := by simp [← hones]
  have hline : ∀ c ∈ 'n' :: ':' :: ones, isLineEnd c = false ∧ isBlank c = false := by
    intro c hc
    obtain rfl | rfl | hone := (List.mem_cons.mp hc).imp_right List.mem_cons.mp
    · decide
    · decide
    · rw [hmem c hone]
      decide
  have hlines : lines longEntry = ['n' :: ':' :: ones] := by
    have hfirst := linesFrom_append (fun c hc => (hline c hc).1) [] []
    rw [longEntry, hones, lines]
    simpa [linesFrom] using hfirst
  have hsplit : splitEntry? ('n' :: ':' :: ones) = some (['n'], ones) := by
    have hones : trim ones = ones := trim_of_forall fun c hc =>
      (hline c (List.mem_cons_of_mem _ (List.mem_cons_of_mem _ hc))).2
    have htrim := trim_of_forall fun c hc => (hline c hc).2
    rw [ splitEntry?, htrim]
    simp [isComment, after?, cut?, hones]
    rfl
  have hsign : takeSign ones = (false, ones) := by
    rw [takeSign.eq_def]
    split
    next hcons => cases hmem '-' List.mem_cons_self
    next hcons => cases hmem '+' List.mem_cons_self
    next => rfl
  intro hlegible
  refine hlegible _ (by rw [hlines]; exact List.mem_singleton_self _) _ _ hsplit ?_
  rw [Overlong, hsign]
  refine ⟨fun c hc => ?_, hlength⟩
  rw [hmem c hc]
  decide

/-- Neither the entry nor a document with headers of this one entry can be read. -/
theorem longEntry_unread :
    (¬ ∃ table, entries? longEntry = .ok table) ∧
      ¬ ∃ document, Document.read (.ofString "a.bru") (alone "headers" longEntry) =
        .ok document := by
  refine ⟨fun hread => not_legibleBlock_longEntry (exists_entries?_iff.mp hread), ?_⟩
  rintro ⟨document, hread⟩
  obtain ⟨-, headers, -, -, -, hheaders, -⟩ := Document.read_eq_ok_iff.mp hread
  have hname : Braceless "example".toList := by decide
  have hfree : HeaderFree "example".toList longEntry :=
    headerFree_of_not_mem hname braceless_longEntry.1
  have hrequest : withoutBlocks "example" (alone "headers" longEntry) =
      alone "headers" longEntry := by
    rw [withoutBlocks, blocksFrom_alone hname (by decide) hfree]
    rfl
  have hlegible := exists_blockEntries_iff.mp ⟨headers, hheaders⟩
  rw [hrequest] at hlegible
  exact not_legibleBlock_longEntry
    (hlegible longEntry (body?_alone braceless_longEntry.balanced))

end RequestShapes.Request
