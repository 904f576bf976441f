import Mathlib.Computability.Language
import RequestShapes.Proofs.Request.Scanning
import RequestShapes.Schema.Format

/-!
# Patterns of formats

Each format is a regular language. A scanner of a format goes through a text from
left to right without coming back, and takes off exactly what the language of the
format holds, provided that what follows cannot go on with it. From that, a text is
given a format if it is in its language, or is so but for a line feed at its end.
No two languages have a text in common, so the order of the formats is of no account.
-/

namespace RequestShapes.Format

open Request (after?_eq_none_iff dropWhile_run takeWhile_run)
open Schema (after?_append)
open Text
open scoped Computability

/-! ## Languages -/

/-- The texts of one character of a class. -/
def oneOf (holds : Char → Bool) : Language Char :=
  {text | ∃ c, text = [c] ∧ holds c = true}

/-- A text by itself. -/
def only (text : String) : Language Char :=
  {text.toList}

/-- The texts of a language, and the empty one. -/
def optional (pattern : Language Char) : Language Char :=
  1 + pattern

/-- At least so many characters of a class. -/
def atLeast (count : Nat) (holds : Char → Bool) : Language Char :=
  oneOf holds ^ count * (oneOf holds)∗

def datePattern : Language Char :=
  oneOf isDigit ^ 4 * only "-" * oneOf isDigit ^ 2 * only "-" * oneOf isDigit ^ 2

def clockPattern : Language Char :=
  oneOf isDigit ^ 2 * only ":" * oneOf isDigit ^ 2

def fractionPattern : Language Char :=
  only "." * atLeast 1 isDigit

def zonePattern : Language Char :=
  only "Z" + (only "+" + only "-") * clockPattern

def dateTimePattern : Language Char :=
  datePattern * only "T" * clockPattern * only ":" * oneOf isDigit ^ 2 *
    optional fractionPattern * optional zonePattern

def emailPattern : Language Char :=
  atLeast 1 isMailboxChar * only "@" * atLeast 1 isHostChar * only "." * atLeast 2 Char.isAlpha

def uuidPattern : Language Char :=
  oneOf isHexDigit ^ 8 * only "-" * oneOf isHexDigit ^ 4 * only "-" * oneOf isHexDigit ^ 4 *
    only "-" * oneOf isHexDigit ^ 4 * only "-" * oneOf isHexDigit ^ 12

def uriPattern : Language Char :=
  (only "http" * optional (only "s") + only "ftp") * only "://" * atLeast 1 fun c => !isBlank c

/-- The texts of a format. -/
def pattern : Format → Language Char
  | dateTime => dateTimePattern
  | date => datePattern
  | email => emailPattern
  | uuid => uuidPattern
  | uri => uriPattern

/-- What may stand behind a text in a format: nothing, or one line feed. -/
def lineEnd : Language Char :=
  optional (only "\n")

section Membership

variable {holds : Char → Bool} {text : List Char}

theorem mem_only {lead : String} : text ∈ only lead ↔ text = lead.toList :=
  Set.mem_singleton_iff

theorem mem_mul_lineEnd {pattern : Language Char} :
    text ∈ pattern * lineEnd ↔ text ∈ pattern ∨ ∃ taken ∈ pattern, text = taken ++ ['\n'] := by
  rw [lineEnd, optional, mul_add, mul_one, Language.mem_add, Language.mem_mul]
  simp [mem_only, eq_comm]

theorem mem_oneOf_pow {count : Nat} :
    text ∈ oneOf holds ^ count ↔ text.length = count ∧ ∀ c ∈ text, holds c = true := by
  induction count generalizing text with
  | zero =>
      rw [pow_zero, Language.mem_one, List.length_eq_zero_iff]
      constructor
      · rintro rfl
        exact ⟨rfl, List.forall_mem_nil _⟩
      · exact fun h => h.1
  | succ count ih =>
      rw [pow_succ', Language.mem_mul]
      constructor
      · rintro ⟨_, ⟨c, rfl, hc⟩, rest, hrest, rfl⟩
        obtain ⟨rfl, hall⟩ := ih.mp hrest
        exact ⟨rfl, List.forall_mem_cons.mpr ⟨hc, hall⟩⟩
      · rintro ⟨hlength, hall⟩
        obtain ⟨c, rest, rfl⟩ := List.exists_cons_of_length_eq_add_one hlength
        obtain ⟨hc, hrest⟩ := List.forall_mem_cons.mp hall
        exact ⟨[c], ⟨c, rfl, hc⟩, rest, ih.mpr ⟨Nat.succ.inj hlength, hrest⟩, rfl⟩

theorem mem_kstar_oneOf : text ∈ (oneOf holds)∗ ↔ ∀ c ∈ text, holds c = true := by
  rw [Language.kstar_eq_iSup_pow, Language.mem_iSup]
  simp only [mem_oneOf_pow, exists_eq_left']

theorem mem_atLeast {count : Nat} :
    text ∈ atLeast count holds ↔ count ≤ text.length ∧ ∀ c ∈ text, holds c = true := by
  rw [atLeast, Language.mem_mul]
  simp only [mem_oneOf_pow, mem_kstar_oneOf]
  constructor
  · rintro ⟨front, ⟨rfl, hfront⟩, back, hback, rfl⟩
    exact ⟨by simp, List.forall_mem_append.mpr ⟨hfront, hback⟩⟩
  · rintro ⟨hcount, hall⟩
    have hfront : ∀ c ∈ text.take count, holds c = true := fun c hc =>
      hall c (List.mem_of_mem_take hc)
    have hback : ∀ c ∈ text.drop count, holds c = true := fun c hc =>
      hall c (List.mem_of_mem_drop hc)
    exact ⟨text.take count, ⟨List.length_take_of_le hcount, hfront⟩, text.drop count, hback,
      List.take_append_drop _ _⟩

end Membership

/-! ## Scanners -/

/-- A scanner takes exactly the texts of a language off, if what follows is one of
the given rests. -/
def Reads (scan : List Char → Option (List Char)) (pattern rests : Language Char) : Prop :=
  ∀ text, ∀ rest ∈ rests, scan text = some rest ↔ ∃ taken ∈ pattern, taken ++ rest = text

/-- The texts that do not go on with a class. -/
def stops (holds : Char → Bool) : Language Char :=
  {rest | ∀ c ∈ rest.head?, holds c = false}

section Scanners

variable {first second scan : List Char → Option (List Char)}
  {left right pattern rests fewer : Language Char} {holds : Char → Bool}

theorem Reads.mono (h : Reads scan pattern rests) (hle : ∀ rest ∈ fewer, rest ∈ rests) :
    Reads scan pattern fewer :=
  fun text rest hrest => h text rest (hle rest hrest)

/-- One scanner after the other reads one language after the other. What follows
the first is a text of the second with its rest. -/
theorem Reads.bind (hfirst : Reads first left (right * rests))
    (hsecond : Reads second right rests) :
    Reads (fun text => (first text).bind second) (left * right) rests := by
  intro text rest hrest
  constructor
  · intro h
    obtain ⟨middle, hmiddle, h⟩ := Option.bind_eq_some_iff.mp h
    obtain ⟨back, hback, rfl⟩ := (hsecond middle rest hrest).mp h
    obtain ⟨front, hfront, rfl⟩ :=
      (hfirst text _ (Language.append_mem_mul hback hrest)).mp hmiddle
    exact ⟨front ++ back, Language.append_mem_mul hfront hback, List.append_assoc _ _ _⟩
  · rintro ⟨_, ⟨front, hfront, back, hback, rfl⟩, rfl⟩
    have hmiddle : first (front ++ back ++ rest) = some (back ++ rest) :=
      (hfirst _ _ (Language.append_mem_mul hback hrest)).mpr
        ⟨front, hfront, (List.append_assoc _ _ _).symm⟩
    have hlast : second (back ++ rest) = some rest := (hsecond _ rest hrest).mpr ⟨back, hback, rfl⟩
    exact Option.bind_eq_some_iff.mpr ⟨_, hmiddle, hlast⟩

/-- Of two scanners that never both succeed, the first that does is taken. -/
theorem Reads.or (hfirst : Reads first left rests) (hsecond : Reads second right rests)
    (hapart : ∀ text, first text = none ∨ second text = none) :
    Reads (fun text => (first text).or (second text)) (left + right) rests := by
  intro text rest hrest
  simp only [Option.or_eq_some_iff, hfirst text rest hrest, hsecond text rest hrest,
    Language.mem_add, or_and_right, exists_or]
  refine or_congr_right (and_iff_right_of_imp fun hright => ?_)
  refine (hapart text).resolve_right fun hnone => ?_
  rw [(hsecond text rest hrest).mpr hright] at hnone
  cases hnone

/-- What a scanner takes off, or nothing, if it takes nothing off the rests. -/
theorem Reads.getD (h : Reads scan pattern rests) (hnone : ∀ rest ∈ rests, scan rest = none) :
    Reads (fun text => some ((scan text).getD text)) (optional pattern) rests := by
  intro text rest hrest
  rw [Option.some.injEq]
  constructor
  · rintro rfl
    cases hscan : scan text with
    | none => exact ⟨[], .inl rfl, rfl⟩
    | some found =>
        rw [hscan] at hrest
        obtain ⟨taken, htaken, hwhole⟩ := (h text found hrest).mp hscan
        exact ⟨taken, .inr htaken, hwhole⟩
  · rintro ⟨taken, rfl | htaken, rfl⟩
    · rw [List.nil_append, hnone rest hrest, Option.getD_none]
    · rw [(h _ rest hrest).mpr ⟨taken, htaken, rfl⟩, Option.getD_some]

theorem reads_after? (lead : String) (rests : Language Char) :
    Reads (after? lead.toList) (only lead) rests := by
  intro text rest _
  simp only [mem_only, exists_eq_left]
  constructor
  · exact fun h => (after?_eq_some h).symm
  · rintro rfl
    exact after?_append _ _

theorem reads_exactly? (count : Nat) (holds : Char → Bool) (rests : Language Char) :
    Reads (exactly? count holds) (oneOf holds ^ count) rests := by
  intro text rest _
  induction count generalizing text with
  | zero => simp [exactly?, eq_comm]
  | succ count ih =>
      simp only [mem_oneOf_pow] at ih ⊢
      cases text with
      | nil => simp [exactly?]
      | cons c text =>
          by_cases hc : holds c = true
          · rw [exactly?, if_pos hc, ih]
            constructor
            · rintro ⟨taken, ⟨hlength, hall⟩, rfl⟩
              exact ⟨c :: taken, ⟨by simp [hlength], List.forall_mem_cons.mpr ⟨hc, hall⟩⟩, rfl⟩
            · rintro ⟨taken, ⟨hlength, hall⟩, htext⟩
              obtain ⟨d, taken, rfl⟩ := List.exists_cons_of_length_eq_add_one hlength
              obtain ⟨rfl, rfl⟩ := List.cons.inj htext
              exact ⟨taken, ⟨Nat.succ.inj hlength, (List.forall_mem_cons.mp hall).2⟩, rfl⟩
          · rw [exactly?, if_neg hc]
            refine iff_of_false (by simp) ?_
            rintro ⟨taken, ⟨hlength, hall⟩, htext⟩
            obtain ⟨d, taken, rfl⟩ := List.exists_cons_of_length_eq_add_one hlength
            obtain ⟨rfl, -⟩ := List.cons.inj htext
            exact hc (hall d List.mem_cons_self)

theorem nil_mem_stops : [] ∈ stops holds :=
  fun _ hc => nomatch hc

theorem cons_mem_stops {c : Char} {rest : List Char} :
    c :: rest ∈ stops holds ↔ holds c = false :=
  ⟨fun h => h c rfl, fun h _ hd => Option.some.inj hd ▸ h⟩

theorem lineEnd_stops (h : holds '\n' = false) : ∀ rest ∈ lineEnd, rest ∈ stops holds := by
  rintro _ (rfl | rfl)
  · exact nil_mem_stops
  · exact cons_mem_stops.mpr h

theorem reads_run? (holds : Char → Bool) : Reads (run? holds) (atLeast 1 holds) (stops holds) := by
  intro text rest hrest
  simp only [mem_atLeast]
  constructor
  · intro h
    rw [run?] at h
    split at h
    next => cases h
    next hne =>
      obtain rfl := Option.some.inj h
      refine ⟨text.takeWhile holds, ⟨?_, fun _ => List.mem_takeWhile_imp⟩,
        List.takeWhile_append_dropWhile⟩
      exact List.length_pos_iff.mpr (by simpa using hne)
  · rintro ⟨taken, ⟨hcount, hall⟩, rfl⟩
    rw [run?, takeWhile_run hall hrest, dropWhile_run hall hrest, if_neg]
    simpa using List.length_pos_iff.mp hcount

end Scanners

/-! ## The scanners of the formats -/

theorem reads_afterDate? (rests : Language Char) : Reads afterDate? datePattern rests := by
  rw [datePattern]
  simp only [mul_assoc]
  exact (reads_exactly? 4 isDigit _).bind <| (reads_after? "-" _).bind <|
    (reads_exactly? 2 isDigit _).bind <| (reads_after? "-" _).bind <| reads_exactly? 2 isDigit _

theorem reads_afterClock? (rests : Language Char) : Reads afterClock? clockPattern rests := by
  rw [clockPattern]
  simp only [mul_assoc]
  exact (reads_exactly? 2 isDigit _).bind <| (reads_after? ":" _).bind <| reads_exactly? 2 isDigit _

theorem reads_uuid (rests : Language Char) : Reads afterUuid? uuidPattern rests := by
  rw [uuidPattern]
  simp only [mul_assoc]
  exact (reads_exactly? 8 isHexDigit _).bind <| (reads_after? "-" _).bind <|
    (reads_exactly? 4 isHexDigit _).bind <| (reads_after? "-" _).bind <|
    (reads_exactly? 4 isHexDigit _).bind <| (reads_after? "-" _).bind <|
    (reads_exactly? 4 isHexDigit _).bind <| (reads_after? "-" _).bind <|
    reads_exactly? 12 isHexDigit _

/-- Of two leads neither of which begins the other at most one is found. -/
theorem after?_apart (lead other : List Char) (h : ¬ lead <+: other) (h' : ¬ other <+: lead)
    (text : List Char) : after? lead text = none ∨ after? other text = none := by
  rw [after?_eq_none_iff, after?_eq_none_iff, ← not_and_or]
  exact fun hboth => (List.prefix_or_prefix_of_prefix hboth.1 hboth.2).elim h h'

/-- A lead that is apart from each of two is apart from both. -/
theorem after?_apart_or (lead : List Char) {first second text : List Char}
    (hfirst : after? lead text = none ∨ after? first text = none)
    (hsecond : after? lead text = none ∨ after? second text = none) :
    after? lead text = none ∨ (after? first text).or (after? second text) = none := by
  obtain hlead | hfirst := hfirst
  · exact .inl hlead
  obtain hlead | hsecond := hsecond
  · exact .inl hlead
  · exact .inr (Option.or_eq_none_iff.mpr ⟨hfirst, hsecond⟩)

/-- What follows a time zone. -/
def zone? (text : List Char) : Option (List Char) :=
  (after? "Z".toList text).or
    (((after? "+".toList text).or (after? "-".toList text)).bind afterClock?)

theorem reads_zone? (rests : Language Char) : Reads zone? zonePattern rests := by
  have hsign := (reads_after? "+" (clockPattern * rests)).or (reads_after? "-" _)
    (after?_apart _ _ (by decide) (by decide))
  refine (reads_after? "Z" rests).or (hsign.bind (reads_afterClock? rests)) fun text => ?_
  obtain hzone | hnone := after?_apart_or "Z".toList
    (after?_apart "Z".toList "+".toList (by decide) (by decide) text)
    (after?_apart "Z".toList "-".toList (by decide) (by decide) text)
  · exact .inl hzone
  · exact .inr (by rw [hnone, Option.bind_none])

/-- A time zone, or the end of the text, begins with no digit and no point. -/
theorem head?_zone {rest : List Char} (h : rest ∈ optional zonePattern * lineEnd) :
    ∀ c ∈ rest.head?, isDigit c = false ∧ c ≠ '.' := by
  obtain ⟨_, rfl | rfl | ⟨_, rfl | rfl, _, -, rfl⟩, _, rfl | rfl, rfl⟩ := h <;>
    simp <;> decide

theorem reads_afterZone :
    Reads (fun text => some (afterZone text)) (optional zonePattern) lineEnd := by
  refine (reads_zone? lineEnd).getD ?_
  rintro _ (rfl | rfl) <;> rfl

theorem reads_afterFraction : Reads (fun text => some (afterFraction text))
    (optional fractionPattern) (optional zonePattern * lineEnd) := by
  have hdigits : Reads (run? isDigit) (atLeast 1 isDigit) (optional zonePattern * lineEnd) :=
    (reads_run? isDigit).mono fun rest hrest c hc => (head?_zone hrest c hc).1
  refine ((reads_after? "." _).bind hdigits).getD fun rest hrest => ?_
  cases rest with
  | nil => rfl
  | cons c rest =>
      have hpoint : after? ".".toList (c :: rest) = none :=
        if_neg (head?_zone hrest c rfl).2.symm
      rw [hpoint, Option.bind_none]

theorem reads_afterDateTime? : Reads afterDateTime? dateTimePattern lineEnd := by
  rw [dateTimePattern]
  simp only [mul_assoc]
  exact (reads_afterDate? _).bind <| (reads_after? "T" _).bind <| (reads_afterClock? _).bind <|
    (reads_after? ":" _).bind <| (reads_exactly? 2 isDigit _).bind <|
    reads_afterFraction.bind reads_afterZone

/-! ### Mail addresses -/

def hostPattern : Language Char :=
  atLeast 1 isHostChar * (only "." * atLeast 2 Char.isAlpha)

theorem isHostChar_of_mem {host : List Char} (h : host ∈ hostPattern) :
    ∀ c ∈ host, isHostChar c = true := by
  obtain ⟨front, hfront, _, ⟨_, rfl, label, hlabel, rfl⟩, rfl⟩ := h
  have halpha : ∀ c ∈ label, isHostChar c = true := fun c hc => by
    simp [isHostChar, Char.isAlphanum, (mem_atLeast.mp hlabel).2 c hc]
  have hpoint : ∀ c ∈ ".".toList, isHostChar c = true := by simp [isHostChar]
  exact List.forall_mem_append.mpr ⟨(mem_atLeast.mp hfront).2,
    List.forall_mem_append.mpr ⟨hpoint, halpha⟩⟩

/-- A host closes with a label exactly if it has a point in front of its last
letters, and something before that. -/
theorem closesWithLabel_iff {host : List Char} (h : ∀ c ∈ host, isHostChar c = true) :
    closesWithLabel host.reverse = true ↔ host ∈ hostPattern := by
  constructor
  · intro hcloses
    obtain ⟨hcount, hpoint⟩ := Bool.and_eq_true_iff.mp hcloses
    split at hpoint
    next c before hdrop =>
      have hreverse : host.reverse =
          host.reverse.takeWhile Char.isAlpha ++ '.' :: c :: before := by
        rw [← hdrop, List.takeWhile_append_dropWhile]
      have hhost := congrArg List.reverse hreverse
      rw [List.reverse_reverse] at hhost
      have hfront : ∀ d ∈ before.reverse ++ [c], isHostChar d = true := by
        intro d hd
        have hmem : d ∈ c :: before := by simpa [or_comm] using hd
        refine h d ?_
        rw [hhost, List.mem_reverse]
        exact List.mem_append_right _ (List.mem_cons_of_mem _ hmem)
      refine ⟨before.reverse ++ [c], mem_atLeast.mpr ⟨by simp, hfront⟩, _,
        ⟨".".toList, rfl, (host.reverse.takeWhile Char.isAlpha).reverse, ?_, rfl⟩, ?_⟩
      · refine mem_atLeast.mpr ⟨by simpa using hcount, fun d hd => ?_⟩
        exact List.mem_takeWhile_imp (List.mem_reverse.mp hd)
      · conv_rhs => rw [hhost]
        simp
    next => cases hpoint
  · rintro ⟨front, hfront, _, ⟨_, rfl, label, hlabel, rfl⟩, rfl⟩
    obtain ⟨hne, -⟩ := mem_atLeast.mp hfront
    obtain ⟨hcount, halpha⟩ := mem_atLeast.mp hlabel
    obtain ⟨c, others, hothers⟩ := List.exists_cons_of_ne_nil
      (l := front.reverse) (by simpa using List.length_pos_iff.mp hne)
    have hreverse : (front ++ (".".toList ++ label)).reverse =
        label.reverse ++ '.' :: c :: others := by
      simp [← hothers]
    have hstop : '.' :: c :: others ∈ stops Char.isAlpha := cons_mem_stops.mpr rfl
    have hletters : ∀ d ∈ label.reverse, d.isAlpha = true := fun d hd =>
      halpha d (List.mem_reverse.mp hd)
    rw [hreverse, closesWithLabel, takeWhile_run hletters hstop,
      dropWhile_run hletters hstop]
    simpa using hcount

/-- What follows a host that closes with a label. -/
def afterHost? (text : List Char) : Option (List Char) :=
  if closesWithLabel (text.takeWhile isHostChar).reverse then some (text.dropWhile isHostChar)
  else none

theorem reads_afterHost? {rests : Language Char} (h : ∀ rest ∈ rests, rest ∈ stops isHostChar) :
    Reads afterHost? hostPattern rests := by
  intro text rest hrest
  constructor
  · intro hsome
    rw [afterHost?] at hsome
    split at hsome
    next hcloses =>
      obtain rfl := Option.some.inj hsome
      have hhost : ∀ c ∈ text.takeWhile isHostChar, isHostChar c = true :=
        fun _ => List.mem_takeWhile_imp
      exact ⟨_, (closesWithLabel_iff hhost).mp hcloses, List.takeWhile_append_dropWhile⟩
    next => cases hsome
  · rintro ⟨taken, htaken, rfl⟩
    have hall := isHostChar_of_mem htaken
    rw [afterHost?, takeWhile_run hall (h rest hrest), dropWhile_run hall (h rest hrest),
      if_pos ((closesWithLabel_iff hall).mpr htaken)]

theorem reads_afterEmail? : Reads afterEmail? emailPattern lineEnd := by
  have hhost : Reads afterHost? hostPattern lineEnd := reads_afterHost? (lineEnd_stops rfl)
  have hmailbox : Reads (run? isMailboxChar) (atLeast 1 isMailboxChar)
      (only "@" * hostPattern * lineEnd) := by
    refine (reads_run? isMailboxChar).mono ?_
    rintro _ ⟨_, ⟨_, rfl, host, -, rfl⟩, rest, -, rfl⟩
    exact cons_mem_stops.mpr rfl
  rw [emailPattern]
  simp only [mul_assoc]
  exact hmailbox.bind ((reads_after? "@" _).bind hhost)

/-! ### Addresses -/

theorem only_mul_only (lead other : String) : only lead * only other = only (lead ++ other) := by
  ext text
  simp [Language.mem_mul, mem_only, eq_comm]

theorem uriScheme_eq : (only "http" * optional (only "s") + only "ftp") * only "://" =
    only "https://" + only "http://" + only "ftp://" := by
  rw [optional, mul_add, mul_one, add_mul, add_mul, only_mul_only, only_mul_only, only_mul_only,
    only_mul_only, add_comm (only ("http" ++ "://"))]
  rfl

/-- What follows one of the three schemes. -/
def afterScheme? (text : List Char) : Option (List Char) :=
  ((after? "https://".toList text).or (after? "http://".toList text)).or
    (after? "ftp://".toList text)

theorem reads_afterScheme? (rests : Language Char) : Reads afterScheme?
    ((only "http" * optional (only "s") + only "ftp") * only "://") rests := by
  rw [uriScheme_eq]
  have hweb := (reads_after? "https://" rests).or (reads_after? "http://" rests)
    (after?_apart _ _ (by decide) (by decide))
  refine hweb.or (reads_after? "ftp://" rests) fun text => Or.symm ?_
  refine after?_apart_or "ftp://".toList ?_ ?_
  · exact after?_apart "ftp://".toList "https://".toList (by decide) (by decide) text
  · exact after?_apart "ftp://".toList "http://".toList (by decide) (by decide) text

theorem reads_afterUri? : Reads afterUri? uriPattern lineEnd :=
  (reads_afterScheme? _).bind ((reads_run? _).mono (lineEnd_stops rfl))

theorem reads_rest? (format : Format) : Reads format.rest? format.pattern lineEnd := by
  cases format with
  | dateTime => exact reads_afterDateTime?
  | date => exact reads_afterDate? lineEnd
  | email => exact reads_afterEmail?
  | uuid => exact reads_uuid lineEnd
  | uri => exact reads_afterUri?

/-- A text fits a format if it is one of its texts, with or without a line feed
behind it. -/
theorem fits_iff (format : Format) (text : String) :
    format.fits text = true ↔ text.toList ∈ format.pattern * lineEnd := by
  have hend : format.fits text = true ↔ ∃ rest ∈ lineEnd, format.rest? text.toList = some rest := by
    rw [fits]
    split
    next hnil => exact iff_of_true rfl ⟨[], .inl rfl, hnil⟩
    next hfeed => exact iff_of_true rfl ⟨['\n'], .inr rfl, hfeed⟩
    next hnil hfeed =>
      refine iff_of_false (by simp) ?_
      rintro ⟨_, rfl | rfl, hrest⟩
      · exact hnil hrest
      · exact hfeed hrest
  rw [hend, Language.mem_mul]
  constructor
  · rintro ⟨rest, hrest, hread⟩
    obtain ⟨taken, htaken, htext⟩ := (reads_rest? format _ rest hrest).mp hread
    exact ⟨taken, htaken, rest, hrest, htext⟩
  · rintro ⟨taken, htaken, rest, hrest, htext⟩
    exact ⟨rest, hrest, (reads_rest? format _ rest hrest).mpr ⟨taken, htaken, htext⟩⟩

/-! ## Telling formats apart -/

/-- The texts of a language are made of a class of characters. -/
def Within (holds : Char → Bool) (pattern : Language Char) : Prop :=
  ∀ text ∈ pattern, ∀ c ∈ text, holds c = true

/-- Every text of a language holds a character. -/
def Needs (c : Char) (pattern : Language Char) : Prop :=
  ∀ text ∈ pattern, c ∈ text

/-- The texts of a language are all of one length. -/
def HasLength (length : Nat) (pattern : Language Char) : Prop :=
  ∀ text ∈ pattern, text.length = length

section Languages

variable {c : Char} {holds other : Char → Bool} {left right pattern : Language Char} {m n : Nat}

theorem Within.mul (hleft : Within holds left) (hright : Within holds right) :
    Within holds (left * right) := by
  rintro _ ⟨front, hfront, back, hback, rfl⟩
  exact List.forall_mem_append.mpr ⟨hleft front hfront, hright back hback⟩

theorem Within.add (hleft : Within holds left) (hright : Within holds right) :
    Within holds (left + right) :=
  fun text htext => htext.elim (hleft text) (hright text)

theorem Within.optional (h : Within holds pattern) : Within holds (optional pattern) := by
  rintro text (rfl | htext)
  · exact List.forall_mem_nil _
  · exact h text htext

theorem within_only {lead : String} (h : lead.toList.all holds = true) :
    Within holds (only lead) := by
  rintro _ rfl
  exact List.all_eq_true.mp h

theorem within_pow (h : ∀ c, other c = true → holds c = true) (count : Nat) :
    Within holds (oneOf other ^ count) :=
  fun _ htext c hc => h c ((mem_oneOf_pow.mp htext).2 c hc)

theorem within_atLeast (h : ∀ c, other c = true → holds c = true) (count : Nat) :
    Within holds (atLeast count other) :=
  fun _ htext c hc => h c ((mem_atLeast.mp htext).2 c hc)

theorem needs_only {lead : String} (h : c ∈ lead.toList) : Needs c (only lead) := by
  rintro _ rfl
  exact h

theorem Needs.mul_left (h : Needs c left) (right : Language Char) : Needs c (left * right) := by
  rintro _ ⟨front, hfront, back, -, rfl⟩
  exact List.mem_append_left back (h front hfront)

theorem Needs.mul_right (left : Language Char) (h : Needs c right) : Needs c (left * right) := by
  rintro _ ⟨front, -, back, hback, rfl⟩
  exact List.mem_append_right front (h back hback)

theorem HasLength.mul (hleft : HasLength m left) (hright : HasLength n right) :
    HasLength (m + n) (left * right) := by
  rintro _ ⟨front, hfront, back, hback, rfl⟩
  rw [List.length_append, hleft front hfront, hright back hback]

theorem hasLength_only (lead : String) : HasLength lead.toList.length (only lead) := by
  rintro _ rfl
  rfl

theorem hasLength_pow (holds : Char → Bool) (count : Nat) :
    HasLength count (oneOf holds ^ count) :=
  fun _ htext => (mem_oneOf_pow.mp htext).1

end Languages

/-- The characters that a text of a format may hold. -/
def mayHold : Format → Char → Bool
  | dateTime => fun c => isDigit c || "-T:.Z+".toList.contains c
  | date => fun c => isDigit c || c = '-'
  | email => fun c => isMailboxChar c || c = '@'
  | uuid => fun c => isHexDigit c || c = '-'
  | uri => fun c => !isBlank c

theorem within_datePattern {holds : Char → Bool} (hdigit : ∀ c, isDigit c = true → holds c = true)
    (hdash : holds '-' = true) : Within holds datePattern := by
  have hmark : Within holds (only "-") := within_only (by simpa using hdash)
  exact ((((within_pow hdigit 4).mul hmark).mul (within_pow hdigit 2)).mul hmark).mul
    (within_pow hdigit 2)

theorem within_dateTimePattern : Within (mayHold dateTime) dateTimePattern := by
  have hdigit : ∀ c, isDigit c = true → mayHold dateTime c = true := fun c hc => by
    simp [mayHold, hc]
  have hcolon : Within (mayHold dateTime) (only ":") := within_only (by decide)
  have hclock : Within (mayHold dateTime) clockPattern :=
    ((within_pow hdigit 2).mul hcolon).mul (within_pow hdigit 2)
  have hfraction : Within (mayHold dateTime) fractionPattern :=
    (within_only (by decide)).mul (within_atLeast hdigit 1)
  have hzone : Within (mayHold dateTime) zonePattern :=
    (within_only (by decide)).add
      (((within_only (by decide)).add (within_only (by decide))).mul hclock)
  exact ((((((within_datePattern hdigit (by decide)).mul (within_only (by decide))).mul hclock).mul
    hcolon).mul (within_pow hdigit 2)).mul hfraction.optional).mul hzone.optional

theorem isMailboxChar_of_isHostChar {c : Char} (h : isHostChar c = true) :
    isMailboxChar c = true := by
  simp only [isHostChar, Bool.or_eq_true, decide_eq_true_eq] at h
  obtain (halnum | rfl) | rfl := h
  · simp [isMailboxChar, halnum]
  · rfl
  · rfl

theorem within_emailPattern : Within (mayHold email) emailPattern := by
  have hmailbox : ∀ c, isMailboxChar c = true → mayHold email c = true := fun c hc => by
    simp [mayHold, hc]
  have hhost : ∀ c, isHostChar c = true → mayHold email c = true := fun c hc =>
    hmailbox c (isMailboxChar_of_isHostChar hc)
  have hletter : ∀ c, c.isAlpha = true → mayHold email c = true := fun c hc =>
    hmailbox c (by simp [isMailboxChar, Char.isAlphanum, hc])
  exact ((((within_atLeast hmailbox 1).mul (within_only (by decide))).mul
    (within_atLeast hhost 1)).mul (within_only (by decide))).mul (within_atLeast hletter 2)

theorem within_uuidPattern : Within (mayHold uuid) uuidPattern := by
  have hdigit : ∀ count, Within (mayHold uuid) (oneOf isHexDigit ^ count) :=
    within_pow fun c hc => by simp [mayHold, hc]
  have hdash : Within (mayHold uuid) (only "-") := within_only (by decide)
  exact ((((((((hdigit 8).mul hdash).mul (hdigit 4)).mul hdash).mul (hdigit 4)).mul hdash).mul
    (hdigit 4)).mul hdash).mul (hdigit 12)

theorem within_uriPattern : Within (mayHold uri) uriPattern := by
  have hscheme : Within (mayHold uri) (only "http" * optional (only "s") + only "ftp") :=
    ((within_only (by decide)).mul (within_only (by decide)).optional).add
      (within_only (by decide))
  exact (hscheme.mul (within_only (by decide))).mul (within_atLeast (fun _ hc => hc) 1)

theorem pattern_within (format : Format) : Within format.mayHold format.pattern := by
  cases format with
  | dateTime => exact within_dateTimePattern
  | date => exact within_datePattern (fun c hc => by simp [mayHold, hc]) (by decide)
  | email => exact within_emailPattern
  | uuid => exact within_uuidPattern
  | uri => exact within_uriPattern

theorem not_mem_of_pattern {format : Format} {text : List Char} {c : Char}
    (h : text ∈ format.pattern) (hc : format.mayHold c = false) : c ∉ text := by
  intro hmem
  rw [pattern_within format text h c hmem] at hc
  cases hc

/-- The only format that a text can have, by a few of its characters or its length. -/
def signature (text : List Char) : Format :=
  if '/' ∈ text then uri
  else if '@' ∈ text then email
  else if 'T' ∈ text then dateTime
  else if text.length = 10 then date
  else uuid

/-- A text in the language of a format tells the format. -/
theorem signature_of_mem {format : Format} {text : List Char} (h : text ∈ format.pattern) :
    signature text = format := by
  have hlacks : ∀ c, format.mayHold c = false → c ∉ text := fun c => not_mem_of_pattern h
  cases format with
  | uri =>
      have hslash : '/' ∈ text :=
        Needs.mul_left (Needs.mul_right _ (needs_only (by decide))) _ text h
      simp [signature, hslash]
  | email =>
      have hat : '@' ∈ text :=
        Needs.mul_left (Needs.mul_left (Needs.mul_left
          (Needs.mul_right _ (needs_only (by decide))) _) _) _ text h
      simp [signature, hlacks '/' (by decide), hat]
  | dateTime =>
      have hmark : 'T' ∈ text :=
        Needs.mul_left (Needs.mul_left (Needs.mul_left (Needs.mul_left (Needs.mul_left
          (Needs.mul_right _ (needs_only (by decide))) _) _) _) _) _ text h
      simp [signature, hlacks '/' (by decide), hlacks '@' (by decide), hmark]
  | date =>
      have hlength : text.length = 10 :=
        ((((hasLength_pow isDigit 4).mul (hasLength_only "-")).mul (hasLength_pow isDigit 2)).mul
          (hasLength_only "-")).mul (hasLength_pow isDigit 2) text h
      simp [signature, hlacks '/' (by decide), hlacks '@' (by decide), hlacks 'T' (by decide),
        hlength]
  | uuid =>
      have hlength : text.length = 36 :=
        ((((((((hasLength_pow isHexDigit 8).mul (hasLength_only "-")).mul
          (hasLength_pow isHexDigit 4)).mul (hasLength_only "-")).mul
          (hasLength_pow isHexDigit 4)).mul (hasLength_only "-")).mul
          (hasLength_pow isHexDigit 4)).mul (hasLength_only "-")).mul
          (hasLength_pow isHexDigit 12) text h
      simp [signature, hlacks '/' (by decide), hlacks '@' (by decide), hlacks 'T' (by decide),
        hlength]

/-! ## The format of a text -/

section Detection

variable {format other : Format} {text : String}

theorem newline_not_mem {chars : List Char} (h : chars ∈ format.pattern) : '\n' ∉ chars :=
  not_mem_of_pattern h (by cases format <;> decide)

/-- At most one format fits a text. -/
theorem eq_of_fits (h : format.fits text = true) (hother : other.fits text = true) :
    format = other := by
  rw [fits_iff, mem_mul_lineEnd] at h hother
  -- What is in a format has no line feed, so both formats take the same part of the text.
  obtain ⟨taken, htaken, hother⟩ : ∃ taken ∈ format.pattern, taken ∈ other.pattern := by
    obtain hwhole | ⟨taken, htaken, htext⟩ := h <;>
      obtain hwhole' | ⟨taken', htaken', htext'⟩ := hother
    · exact ⟨_, hwhole, hwhole'⟩
    · exact absurd (by simp [htext']) (newline_not_mem hwhole)
    · exact absurd (by simp [htext]) (newline_not_mem hwhole')
    · rw [htext, List.append_cancel_right_eq] at htext'
      exact ⟨taken, htaken, htext' ▸ htaken'⟩
  rw [← signature_of_mem htaken, signature_of_mem hother]

theorem detect?_eq_some : detect? text = some format ↔ format.fits text = true := by
  constructor
  · intro h
    simpa using List.find?_some h
  · intro h
    have hfound : (detect? text).isSome = true := by
      rw [detect?, List.find?_isSome]
      exact ⟨format, by cases format <;> decide, h⟩
    obtain ⟨found, hfound⟩ := Option.isSome_iff_exists.mp hfound
    have hfits : found.fits text = true := by simpa using List.find?_some hfound
    rw [hfound, eq_of_fits hfits h]

end Detection

/-- A text is given a format exactly if it is one of its texts, but for a line feed
behind it. So the format describes the text as a whole unless that ends with a line
feed. At most one format fits a text. -/
theorem detect?_whole_iff (text : String) :
    (∀ format, detect? text = some format ↔ text.toList ∈ format.pattern * lineEnd) ∧
      (∀ format, detect? text = some format →
        (text.toList ∈ format.pattern ↔ text.toList.getLast? ≠ some '\n')) ∧
      ∀ format other : Format,
        format.fits text = true → other.fits text = true → format = other := by
  have hiff : ∀ format, detect? text = some format ↔ text.toList ∈ format.pattern * lineEnd :=
    fun format => detect?_eq_some.trans (fits_iff format text)
  refine ⟨hiff, fun format h => ?_, fun format other => eq_of_fits⟩
  constructor
  · exact fun hmem hlast => newline_not_mem hmem (List.mem_of_getLast? hlast)
  · intro hlast
    obtain hwhole | ⟨taken, -, htext⟩ := mem_mul_lineEnd.mp ((hiff format).mp h)
    · exact hwhole
    · simp [htext] at hlast

theorem plainDate_whole : detect? "2024-01-01" = some date ∧
    "2024-01-01".toList ∈ pattern date := by
  have hdate : detect? "2024-01-01" = some date := by decide
  exact ⟨hdate, ((detect?_whole_iff "2024-01-01").2.1 date hdate).mpr (by decide)⟩

/-- A line feed behind a date is no part of the date. -/
theorem datedLine_not_whole : detect? "2024-01-01\n" = some date ∧
    "2024-01-01\n".toList ∉ pattern date :=
  ⟨by decide, fun hmem => newline_not_mem hmem (by decide)⟩

end RequestShapes.Format
