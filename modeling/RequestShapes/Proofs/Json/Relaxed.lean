import Mathlib.Algebra.Group.Nat.Defs
import RequestShapes.Json.Relaxed
import RequestShapes.Json.Writer
import RequestShapes.Proofs.Request.Scanning
import RequestShapes.Proofs.Schema.Inferring

/-!
# What relaxed JSON can hold

Reading goes from left to right, so what a reader leaves over is an end of the
text it began with. Every object that is read has distinct names, because a
repeated name is written over. Decimal integers have as many digits as may be
written at most; only a hexadecimal integer, which has no bound, may be too large
to be written.
-/

namespace RequestShapes

open Text

/-! ## Integers that are read can be written -/

theorem isDigit_of_isDigit {c : Char} (h : c.isDigit = true) : isDigit c = true := by
  have hascii : isAscii c = true := by
    simp only [Char.isDigit, Bool.and_eq_true, decide_eq_true_eq, ge_iff_le,
      UInt32.le_iff_toNat_le] at h
    have hhigh : c.toNat ≤ 57 := h.2
    exact decide_eq_true (by omega)
  rw [isDigit, if_pos hascii, h]

theorem digitValue_lt {c : Char} (h : isDigit c = true) : digitValue c < 10 := by
  unfold isDigit at h
  unfold digitValue
  split
  next hascii =>
    rw [if_pos hascii] at h
    simp only [Char.isDigit, Bool.and_eq_true, decide_eq_true_eq, ge_iff_le,
      UInt32.le_iff_toNat_le] at h
    have hhigh : c.toNat ≤ 57 := h.2
    have hzero : '0'.toNat = 48 := rfl
    omega
  next =>
    split
    · exact Nat.mod_lt _ (by decide)
    · decide

theorem digitsValue_lt {digits : List Char} (h : ∀ c ∈ digits, isDigit c = true) :
    digitsValue digits < 10 ^ digits.length := by
  -- The bound is kept by every digit, whatever was read before it.
  have hfold : ∀ (digits : List Char), (∀ c ∈ digits, isDigit c = true) → ∀ value count,
      value < 10 ^ count → digits.foldl (fun value c => 10 * value + digitValue c) value <
        10 ^ (count + digits.length) := by
    intro digits
    induction digits with
    | nil => exact fun _ value count hvalue => hvalue
    | cons c digits ih =>
        intro hdigits value count hvalue
        obtain ⟨hc, hrest⟩ := List.forall_mem_cons.mp hdigits
        have hstep : 10 * value + digitValue c < 10 ^ (count + 1) := by
          have := digitValue_lt hc
          rw [Nat.pow_succ]
          omega
        have hlast := ih hrest _ _ hstep
        rwa [List.length_cons, Nat.add_comm digits.length 1, ← Nat.add_assoc]
  simpa [digitsValue] using hfold digits h 0 0 (by decide)

/-- An integer that is read from decimal digits may be written. -/
theorem integerFits_of_readInteger {negative : Bool} {digits : List Char} {n : Int}
    (hdigits : ∀ c ∈ digits, isDigit c = true) (h : readInteger negative digits = .ok n) :
    integerFits n = true := by
  unfold readInteger at h
  split at h
  next => cases h
  next hlength =>
    have hvalue := digitsValue_lt hdigits
    have hbound : 10 ^ digits.length ≤ 10 ^ digitLimit :=
      Nat.pow_le_pow_right (by decide) (Nat.not_lt.mp hlength)
    cases h
    rw [integerFits, Nat.pow_eq, decide_eq_true_iff]
    split <;> simp only [Int.natAbs_neg, Int.natAbs_natCast] <;> omega

/-- The value of a numeral is a scalar that may be written. -/
theorem Numeral.value_spec {numeral : Numeral} {value : Json}
    (hdigits : ∀ c ∈ numeral.whole, isDigit c = true) (h : numeral.value = .ok value) :
    value.isContainer = false ∧ value.writable = true := by
  unfold Numeral.value at h
  split at h
  next =>
    cases hread : readInteger numeral.negative numeral.whole with
    | error fault =>
        rw [hread] at h
        cases h
    | ok n =>
        rw [hread] at h
        cases h
        exact ⟨rfl, integerFits_of_readInteger hdigits hread⟩
  next =>
    cases h
    exact ⟨rfl, rfl⟩

namespace Json

theorem itemsWritable_iff {items : List Json} :
    itemsWritable items = true ↔ ∀ item ∈ items, item.writable = true := by
  induction items with
  | nil => simp [itemsWritable]
  | cons item items ih => rw [itemsWritable, Bool.and_eq_true, ih, List.forall_mem_cons]

theorem membersWritable_iff {members : List (String × Json)} :
    membersWritable members = true ↔ ∀ entry ∈ members, entry.2.writable = true := by
  induction members with
  | nil => simp [membersWritable]
  | cons entry members ih => rw [membersWritable, Bool.and_eq_true, ih, List.forall_mem_cons]

end Json

/-! ## Tables of entries -/

namespace Table

variable {α : Type} {table entries : Table α}

theorem nodup_names_update (h : (names table).Nodup) : (names (update table entries)).Nodup := by
  induction entries generalizing table with
  | nil => exact h
  | cons entry entries ih => exact ih (nodup_names_set h)

theorem nodup_names_ofEntries : (names (ofEntries entries)).Nodup :=
  nodup_names_update List.nodup_nil

theorem mem_of_mem_update {entry : String × α} (h : entry ∈ update table entries) :
    entry ∈ table ∨ entry ∈ entries := by
  induction entries generalizing table with
  | nil => exact .inl h
  | cons first entries ih =>
      obtain hset | hrest := ih h
      · obtain heq | hold := mem_set hset
        · exact .inr (heq ▸ List.mem_cons_self)
        · exact .inl hold
      · exact .inr (List.mem_cons_of_mem _ hrest)

/-- Writing entries one after the other adds nothing else. -/
theorem mem_of_mem_ofEntries {entry : String × α} (h : entry ∈ ofEntries entries) :
    entry ∈ entries :=
  (mem_of_mem_update h).resolve_left List.not_mem_nil

end Table

namespace Json.Relaxed

/-! ## What a reader leaves over -/

section Leftover

variable {text rest : List Char}

theorem suffix_of_cons {c : Char} (h : rest <:+ text) : rest <:+ c :: text :=
  h.trans (List.suffix_cons c text)

theorem suffix_of_after? {key : List Char} (h : after? key text = some rest) : rest <:+ text :=
  ⟨key, (after?_eq_some h).symm⟩

theorem infix_of_after? {key : List Char} (h : after? key text = some rest) : key <:+: text :=
  ⟨[], rest, (after?_eq_some h).symm⟩

theorem afterComment?_suffix (h : afterComment? text = some rest) : rest <:+ text := by
  fun_induction afterComment? text with
  | case1 => cases h
  | case2 later =>
      cases h
      exact suffix_of_cons (suffix_of_cons List.suffix_rfl)
  | case3 c text _ ih => exact suffix_of_cons (ih h)

theorem skip_suffix (text : List Char) : skip text <:+ text := by
  fun_induction skip text with
  | case1 => exact List.suffix_rfl
  | case2 c rest _ ih => exact suffix_of_cons ih
  | case3 line _ ih =>
      exact suffix_of_cons (suffix_of_cons (ih.trans (List.dropWhile_suffix _)))
  | case4 comment later hcomment _ ih =>
      exact suffix_of_cons (suffix_of_cons (ih.trans (afterComment?_suffix hcomment)))
  | case5 | case6 | case7 => exact List.suffix_rfl

theorem readHex_suffix {value count code : Nat} (h : readHex value count text = some (code, rest)) :
    rest <:+ text := by
  induction count generalizing value text with
  | zero =>
      cases h
      exact List.suffix_rfl
  | succ count ih =>
      cases text with
      | nil => cases h
      | cons c text =>
          rw [readHex, Option.bind_eq_bind, Option.bind_eq_some_iff] at h
          obtain ⟨digit, _, h⟩ := h
          exact suffix_of_cons (ih h)

theorem readHex_map_suffix {count : Nat} {escaped : Option Nat}
    (h : ((readHex 0 count text).map fun (code, rest) => (some code, rest)) =
      some (escaped, rest)) : rest <:+ text := by
  simp only [Option.map_eq_some_iff, Prod.mk.injEq, Prod.exists] at h
  obtain ⟨code, later, hread, rfl, rfl⟩ := h
  exact readHex_suffix hread

theorem escape?_suffix {escaped : Option Nat} (h : escape? text = some (escaped, rest)) :
    rest <:+ text := by
  unfold escape? at h
  split at h
  case h_1 =>
    cases h
    exact suffix_of_cons (List.suffix_cons _ _)
  case h_2 | h_3 => exact suffix_of_cons (readHex_map_suffix h)
  case h_5 | h_6 | h_7 | h_8 | h_9 | h_10 =>
    cases h
    exact List.suffix_cons _ _
  case h_4 =>
    split at h
    · cases h
      exact List.suffix_cons _ _
    · cases h
  case h_11 =>
    split at h
    · cases h
      exact List.suffix_cons _ _
    · split at h
      · cases h
      · cases h
        exact List.suffix_cons _ _
  case h_12 => cases h

theorem readQuoted_suffix {quote : Char} {fuel : Nat} {codes : List Nat}
    (h : readQuoted quote fuel text = some (codes, rest)) : rest <:+ text := by
  induction fuel generalizing text codes with
  | zero => cases h
  | succ fuel ih =>
      cases text with
      | nil => cases h
      | cons c text =>
          rw [readQuoted] at h
          split at h
          · cases h
            exact List.suffix_cons _ _
          · split at h
            · simp only [Option.bind_eq_bind, Option.bind_eq_some_iff, Prod.exists] at h
              obtain ⟨escaped, later, hescape, inner, last, hinner, h⟩ := h
              cases h
              exact suffix_of_cons ((ih hinner).trans (escape?_suffix hescape))
            · split at h
              · cases h
              · simp only [Option.bind_eq_bind, Option.bind_eq_some_iff, Prod.exists] at h
                obtain ⟨inner, last, hinner, h⟩ := h
                cases h
                exact suffix_of_cons (ih hinner)

theorem readString_suffix {quote : Char} {value : String}
    (h : readString quote text = some (value, rest)) : rest <:+ text := by
  simp only [readString, Option.map_eq_some_iff, Prod.mk.injEq, Prod.exists] at h
  obtain ⟨codes, later, hread, rfl, rfl⟩ := h
  exact readQuoted_suffix hread

theorem nameCode?_suffix {allowed : Char → Bool} {code : Nat}
    (h : nameCode? allowed text = some (code, rest)) : rest <:+ text := by
  unfold nameCode? at h
  split at h
  next => exact suffix_of_cons (suffix_of_cons (readHex_suffix h))
  next =>
    split at h
    · cases h
      exact List.suffix_cons _ _
    · cases h
  next => cases h

theorem readNameRest_suffix (fuel : Nat) (text : List Char) :
    (readNameRest fuel text).2 <:+ text := by
  induction fuel generalizing text with
  | zero => exact List.suffix_rfl
  | succ fuel ih =>
      rw [readNameRest]
      split
      next => exact List.suffix_rfl
      next code later hcode => exact (ih later).trans (nameCode?_suffix hcode)

theorem readName_suffix {name : String} (h : readName text = some (name, rest)) :
    rest <:+ text := by
  unfold readName at h
  split at h
  next => exact suffix_of_cons (readString_suffix h)
  next => exact suffix_of_cons (readString_suffix h)
  next =>
    simp only [Option.bind_eq_bind, Option.bind_eq_some_iff, Prod.exists] at h
    obtain ⟨first, later, hfirst, h⟩ := h
    cases h
    exact (readNameRest_suffix _ _).trans (nameCode?_suffix hfirst)

theorem takeSign_suffix (text : List Char) : (takeSign text).2 <:+ text := by
  unfold takeSign
  split
  · exact List.suffix_cons _ _
  · exact List.suffix_cons _ _
  · exact List.suffix_rfl

theorem takeExponent?_suffix {isDigit : Char → Bool} {exponent : Int}
    (h : takeExponent? isDigit text = some (exponent, rest)) : rest <:+ text := by
  cases text with
  | nil => cases h
  | cons mark text =>
      simp only [takeExponent?] at h
      split at h
      · cases h
        exact suffix_of_cons ((List.dropWhile_suffix _).trans (takeSign_suffix text))
      · cases h

theorem readHexInteger_suffix {n : Nat} (h : readHexInteger text = some (n, rest)) :
    rest <:+ text := by
  simp only [readHexInteger] at h
  split at h
  · cases h
  · cases h
    exact List.dropWhile_suffix _

end Leftover

/-! ## What a reader yields -/

/-- A text without the mark of a hexadecimal integer. -/
def Unmarked (text : List Char) : Prop :=
  ¬ ['0', 'x'] <:+: text ∧ ¬ ['0', 'X'] <:+: text

theorem Unmarked.mono {text part : List Char} (h : Unmarked text) (hpart : part <:+: text) :
    Unmarked part :=
  ⟨fun hmark => h.1 (hmark.trans hpart), fun hmark => h.2 (hmark.trans hpart)⟩

/-- A value is regular for a text if no object in it has a name twice and, unless
the text has the mark of a hexadecimal integer, it can be written. -/
structure Regular (text : List Char) (value : Json) : Prop where
  distinct : Schema.Distinct value
  writable : Unmarked text → value.writable = true

section Yield

variable {text rest : List Char} {value : Json}

theorem Regular.mono (h : Regular rest value) (hrest : rest <:+ text) : Regular text value :=
  ⟨h.distinct, fun hunmarked => h.writable (hunmarked.mono hrest.isInfix)⟩

theorem regular_arr {items : List Json} (h : ∀ item ∈ items, Regular text item) :
    Regular text (.arr items) where
  distinct := .arr fun item hitem => (h item hitem).distinct
  writable := fun hunmarked =>
    itemsWritable_iff.mpr fun item hitem => (h item hitem).writable hunmarked

theorem regular_obj {members : List (String × Json)} (h : ∀ entry ∈ members, Regular text entry.2) :
    Regular text (.obj (Table.ofEntries members)) where
  distinct := .obj Table.nodup_names_ofEntries fun entry hentry =>
    (h entry (Table.mem_of_mem_ofEntries hentry)).distinct
  writable := fun hunmarked => membersWritable_iff.mpr fun entry hentry =>
    (h entry (Table.mem_of_mem_ofEntries hentry)).writable hunmarked

theorem readWord_regular (h : readWord text = some (value, rest)) :
    rest <:+ text ∧ Regular text value := by
  -- The three words differ in their value only.
  have hscalar : ∀ {word : List Char} {named : Json}, named.isContainer = false →
      named.writable = true →
      (after? word text).map (fun rest => (named, rest)) = some (value, rest) →
        rest <:+ text ∧ Regular text value := by
    intro word named hcontainer hwritable hmap
    obtain ⟨later, hafter, heq⟩ := Option.map_eq_some_iff.mp hmap
    cases heq
    exact ⟨suffix_of_after? hafter, .scalar hcontainer, fun _ => hwritable⟩
  simp only [readWord, Option.or_eq_some_iff] at h
  obtain hnull | ⟨-, htrue | ⟨-, hfalse⟩⟩ := h
  · exact hscalar rfl rfl hnull
  · exact hscalar rfl rfl htrue
  · exact hscalar rfl rfl hfalse

theorem takeWhole?_eq_some {whole : List Char} (h : takeWhole? text = some (whole, rest)) :
    whole = text.takeWhile Char.isDigit ∧ rest <:+ text := by
  simp only [takeWhole?] at h
  split at h
  · cases h
  · cases h
    exact ⟨rfl, List.dropWhile_suffix _⟩

theorem regular_of_value {negative : Bool} {fraction : Option (List Char)} {exponent : Option Int}
    {later : List Char}
    (h : (match (Numeral.mk negative (text.takeWhile Char.isDigit) fraction exponent).value with
      | .ok value => some (value, later)
      | .error _ => none) = some (value, rest)) :
    rest = later ∧ Regular text value := by
  have hdigits : ∀ c ∈ text.takeWhile Char.isDigit, isDigit c = true := fun c hc =>
    isDigit_of_isDigit (List.mem_takeWhile_imp hc)
  split at h
  next read hread =>
    cases h
    obtain ⟨hscalar, hwritable⟩ := Numeral.value_spec hdigits hread
    exact ⟨rfl, .scalar hscalar, fun _ => hwritable⟩
  next => cases h

theorem readDecimal_regular {negative : Bool} (h : readDecimal negative text = some (value, rest)) :
    rest <:+ text ∧ Regular text value := by
  obtain ⟨⟨whole, later⟩, hwhole, h⟩ := Option.bind_eq_some_iff.mp h
  obtain ⟨rfl, hlater⟩ := takeWhole?_eq_some hwhole
  split at h
  next whole' later' heq =>
    cases heq
    split at h
    next fraction behind hfraction =>
      have hbehind : behind <:+ text := by
        refine List.IsSuffix.trans ?_ hlater
        split at hfraction
        · cases hfraction
          exact suffix_of_cons (List.dropWhile_suffix _)
        · cases hfraction
          exact List.suffix_rfl
      simp only [Option.bind_eq_bind] at h
      split at h
      next => cases h
      next =>
        -- An exponent is read in one of two cases, and then the number has its value.
        have hexponent : ∀ {exponent : Option Int} {last : List Char}, last <:+ behind →
            (match (Numeral.mk negative (text.takeWhile Char.isDigit) fraction exponent).value with
              | .ok value => some (value, last)
              | .error _ => none) = some (value, rest) → rest <:+ text ∧ Regular text value := by
          intro exponent last hlast hvalue
          obtain ⟨rfl, hregular⟩ := regular_of_value hvalue
          exact ⟨hlast.trans hbehind, hregular⟩
        split at h
        case h_1 | h_2 =>
          obtain ⟨⟨exponent, last⟩, hmap, hvalue⟩ := Option.bind_eq_some_iff.mp h
          obtain ⟨⟨found, last'⟩, htake, heq⟩ := Option.map_eq_some_iff.mp hmap
          cases heq
          exact hexponent (takeExponent?_suffix htake) hvalue
        case h_3 => exact hexponent List.suffix_rfl h

theorem readNumber_regular (h : readNumber text = some (value, rest)) :
    rest <:+ text ∧ Regular text value := by
  have hunsigned := takeSign_suffix text
  simp only [readNumber] at h
  split at h
  next _ later hinfinity =>
    cases h
    exact ⟨(suffix_of_after? hinfinity).trans hunsigned, .scalar rfl, fun _ => rfl⟩
  next later _ hnan =>
    cases h
    exact ⟨(suffix_of_after? hnan).trans hunsigned, .scalar rfl, fun _ => rfl⟩
  next =>
    split at h
    next n later hhex =>
      cases h
      -- Only here an integer may be too large, and here the mark of a base stands.
      obtain ⟨digits, hmark, hdigits⟩ := Option.bind_eq_some_iff.mp hhex
      have hrest := readHexInteger_suffix hdigits
      obtain hsmall | ⟨-, hlarge⟩ := Option.or_eq_some_iff.mp hmark
      · refine ⟨(hrest.trans (suffix_of_after? hsmall)).trans hunsigned, .scalar rfl, ?_⟩
        exact fun hunmarked => absurd (infix_of_after? hsmall) (hunmarked.mono hunsigned.isInfix).1
      · refine ⟨(hrest.trans (suffix_of_after? hlarge)).trans hunsigned, .scalar rfl, ?_⟩
        exact fun hunmarked => absurd (infix_of_after? hlarge) (hunmarked.mono hunsigned.isInfix).2
    next =>
      obtain ⟨hrest, hregular⟩ := readDecimal_regular h
      exact ⟨hrest.trans hunsigned, hregular.mono hunsigned⟩

theorem regular_str (text : List Char) (content : String) : Regular text (.str content) :=
  ⟨.scalar rfl, fun _ => rfl⟩

/-- What a reader of values yields is regular. -/
def ValuesRegular (fuel : Nat) : Prop :=
  ∀ {depth : Nat} {text : List Char} {value : Json} {rest : List Char},
    readValue fuel depth text = some (value, rest) → rest <:+ text ∧ Regular text value

def ItemsRegular (fuel : Nat) : Prop :=
  ∀ {depth : Nat} {text : List Char} {items : List Json} {rest : List Char},
    readItems fuel depth text = some (items, rest) →
      rest <:+ text ∧ ∀ item ∈ items, Regular text item

def MembersRegular (fuel : Nat) : Prop :=
  ∀ {depth : Nat} {text : List Char} {members : List (String × Json)} {rest : List Char},
    readMembers fuel depth text = some (members, rest) →
      rest <:+ text ∧ ∀ entry ∈ members, Regular text entry.2

section Step

variable {fuel : Nat}

theorem suffix_of_skip {c : Char} {inside : List Char} (h : rest <:+ skip inside) :
    rest <:+ c :: inside :=
  suffix_of_cons (h.trans (skip_suffix inside))

theorem valuesRegular_succ (hitems : ItemsRegular fuel) (hmembers : MembersRegular fuel) :
    ValuesRegular (fuel + 1) := by
  intro depth text value rest h
  rw [readValue.eq_def] at h
  dsimp only at h
  split at h
  case h_1 inside | h_2 inside =>
    obtain ⟨⟨content, later⟩, hread, heq⟩ := Option.map_eq_some_iff.mp h
    cases heq
    exact ⟨suffix_of_cons (readString_suffix hread), regular_str _ content⟩
  case h_3 inside =>
    split at h
    next => cases h
    next later hclose =>
      cases h
      exact ⟨suffix_of_skip (hclose ▸ List.suffix_cons _ _), regular_arr (by simp)⟩
    next =>
      obtain ⟨⟨items, later⟩, hread, heq⟩ := Option.map_eq_some_iff.mp h
      cases heq
      obtain ⟨hrest, hall⟩ := hitems hread
      exact ⟨suffix_of_skip hrest, regular_arr fun item hitem =>
        (hall item hitem).mono (suffix_of_skip List.suffix_rfl)⟩
  case h_4 inside =>
    split at h
    next => cases h
    next later hclose =>
      cases h
      exact ⟨suffix_of_skip (hclose ▸ List.suffix_cons _ _), @regular_obj _ [] (by simp)⟩
    next =>
      obtain ⟨⟨members, later⟩, hread, heq⟩ := Option.map_eq_some_iff.mp h
      cases heq
      obtain ⟨hrest, hall⟩ := hmembers hread
      exact ⟨suffix_of_skip hrest, regular_obj fun entry hentry =>
        (hall entry hentry).mono (suffix_of_skip List.suffix_rfl)⟩
  case h_5 =>
    obtain hword | ⟨-, hnumber⟩ := Option.or_eq_some_iff.mp h
    · exact readWord_regular hword
    · exact readNumber_regular hnumber

theorem itemsRegular_succ (hvalues : ValuesRegular fuel) (hitems : ItemsRegular fuel) :
    ItemsRegular (fuel + 1) := by
  intro depth text items rest h
  rw [readItems] at h
  obtain ⟨⟨item, later⟩, hitem, h⟩ := Option.bind_eq_some_iff.mp h
  obtain ⟨hlater, hregular⟩ := hvalues hitem
  have hbehind := (skip_suffix later).trans hlater
  dsimp only at h
  split at h
  next behind hclose =>
    cases h
    rw [hclose] at hbehind
    exact ⟨(List.suffix_cons _ _).trans hbehind, by simpa using hregular⟩
  next behind hcomma =>
    rw [hcomma] at hbehind
    have hnext := (suffix_of_skip List.suffix_rfl).trans hbehind
    split at h
    next last hclose =>
      cases h
      rw [hclose] at hnext
      exact ⟨(List.suffix_cons _ _).trans hnext, by simpa using hregular⟩
    next =>
      obtain ⟨⟨others, last⟩, hread, heq⟩ := Option.map_eq_some_iff.mp h
      cases heq
      obtain ⟨hrest, hall⟩ := hitems hread
      exact ⟨hrest.trans hnext,
        List.forall_mem_cons.mpr ⟨hregular, fun other hother => (hall other hother).mono hnext⟩⟩
  next => cases h

theorem membersRegular_succ (hvalues : ValuesRegular fuel) (hmembers : MembersRegular fuel) :
    MembersRegular (fuel + 1) := by
  intro depth text members rest h
  rw [readMembers] at h
  obtain ⟨⟨name, later⟩, hname, h⟩ := Option.bind_eq_some_iff.mp h
  have hcolon := (skip_suffix later).trans (readName_suffix hname)
  dsimp only at h
  split at h
  next inside heq =>
    rw [heq] at hcolon
    have hinside := (suffix_of_skip List.suffix_rfl).trans hcolon
    obtain ⟨⟨value, after⟩, hvalue, h⟩ := Option.bind_eq_some_iff.mp h
    obtain ⟨hafter, hregular⟩ := hvalues hvalue
    have hbehind := ((skip_suffix after).trans hafter).trans hinside
    replace hregular := hregular.mono hinside
    dsimp only at h
    split at h
    next behind hclose =>
      cases h
      rw [hclose] at hbehind
      exact ⟨(List.suffix_cons _ _).trans hbehind, by simpa using hregular⟩
    next behind hcomma =>
      rw [hcomma] at hbehind
      have hnext := (suffix_of_skip List.suffix_rfl).trans hbehind
      split at h
      next last hclose =>
        cases h
        rw [hclose] at hnext
        exact ⟨(List.suffix_cons _ _).trans hnext, by simpa using hregular⟩
      next =>
        obtain ⟨⟨others, last⟩, hread, heq⟩ := Option.map_eq_some_iff.mp h
        cases heq
        obtain ⟨hrest, hall⟩ := hmembers hread
        exact ⟨hrest.trans hnext,
          List.forall_mem_cons.mpr ⟨hregular, fun other hother => (hall other hother).mono hnext⟩⟩
    next => cases h
  next => cases h

end Step

theorem readers_regular (fuel : Nat) :
    ValuesRegular fuel ∧ ItemsRegular fuel ∧ MembersRegular fuel := by
  induction fuel with
  | zero =>
      refine ⟨?_, ?_, ?_⟩ <;> intro _ _ _ _ h <;> cases h
  | succ fuel ih =>
      obtain ⟨hvalues, hitems, hmembers⟩ := ih
      exact ⟨valuesRegular_succ hitems hmembers, itemsRegular_succ hvalues hitems,
        membersRegular_succ hvalues hmembers⟩

/-- A value that is read from a whole text is regular for it. -/
theorem parse?_regular {text : List Char} {value : Json} (h : parse? text = some value) :
    Regular (trim text) value := by
  obtain ⟨⟨read, rest⟩, hread, h⟩ := Option.bind_eq_some_iff.mp h
  obtain ⟨-, hregular⟩ := (readers_regular _).1 hread
  dsimp only at h
  split at h
  next =>
    cases h
    exact hregular.mono (skip_suffix _)
  next => cases h

end Yield

end Json.Relaxed

end RequestShapes
