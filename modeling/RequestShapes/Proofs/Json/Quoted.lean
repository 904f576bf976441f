import Mathlib.Algebra.Group.Nat.Defs
import Mathlib.Tactic.SplitIfs
import RequestShapes.Json.Reader
import RequestShapes.Json.Writer

/-!
# Quoted texts

A quoted text is written in printable characters of ASCII, whatever it holds, and
is read back as it was. Characters beyond ASCII are written by their units, in four
hexadecimal digits each.
-/

namespace RequestShapes.Text

/-! ## Hexadecimal digits -/

theorem exists_digitChar_of_mem_toDigits {n : Nat} {c : Char} (h : c ∈ Nat.toDigits 16 n) :
    ∃ digit < 16, c = digit.digitChar := by
  induction n using Nat.strongRecOn with
  | ind n ih =>
      rw [Nat.toDigits_eq_if (by decide)] at h
      split at h
      next hlt => exact ⟨n, hlt, List.mem_singleton.mp h⟩
      next hle =>
        obtain hmem | hlast := List.mem_append.mp h
        · exact ih (n / 16) (by omega) hmem
        · exact ⟨n % 16, by omega, List.mem_singleton.mp hlast⟩

theorem exists_digitChar_of_mem_hexText {count value : Nat} {c : Char}
    (h : c ∈ hexText count value) : ∃ digit < 16, c = digit.digitChar := by
  obtain hzero | hdigit := List.mem_append.mp h
  · exact ⟨0, by decide, List.eq_of_mem_replicate hzero⟩
  · exact exists_digitChar_of_mem_toDigits hdigit

theorem hexValue?_digitChar : ∀ digit < 16, hexValue? digit.digitChar = some digit := by
  decide

/-- The last digit of a value stands behind the others. -/
theorem hexText_succ {count : Nat} (hcount : 0 < count) (value : Nat) :
    hexText (count + 1) value = hexText count (value / 16) ++ [(value % 16).digitChar] := by
  by_cases hlt : value < 16
  · have hzeros : List.replicate count '0' = List.replicate (count - 1) '0' ++ ['0'] := by
      rw [← List.replicate_succ', Nat.sub_add_cancel hcount]
    have hquotient : value / 16 = 0 := by omega
    have hrest : value % 16 = value := by omega
    simp [hexText, Nat.toDigits_of_lt_base hlt, hquotient, hrest, Nat.toDigits_zero, hzeros]
  · rw [hexText, hexText, Nat.toDigits_of_base_le (by decide) (by omega)]
    simp [Nat.add_sub_add_right]

theorem readHex_add (first second value : Nat) (text : List Char) :
    readHex value (first + second) text =
      (readHex value first text).bind fun (value, rest) => readHex value second rest := by
  induction first generalizing value text with
  | zero => simp [readHex]
  | succ first ih =>
      rw [Nat.succ_add]
      cases text with
      | nil => rfl
      | cons c text =>
          rw [readHex, readHex]
          cases hexValue? c with
          | none => rfl
          | some digit => exact ih _ _

/-- So many digits of a value that needs no more are read back. -/
theorem readHex_hexText {count value : Nat} (h : value < 16 ^ (count + 1)) (start : Nat)
    (rest : List Char) : readHex start (count + 1) (hexText (count + 1) value ++ rest) =
      some (16 ^ (count + 1) * start + value, rest) := by
  have hdigit (start : Nat) {digit : Nat} (hlt : digit < 16) (rest : List Char) :
      readHex start 1 (digit.digitChar :: rest) = some (16 * start + digit, rest) := by
    simp [readHex, hexValue?_digitChar digit hlt]
  induction count generalizing value rest with
  | zero =>
      have hlt : value < 16 := by omega
      simpa [hexText, Nat.toDigits_of_lt_base hlt] using hdigit start hlt rest
  | succ count ih =>
      have hlt : value / 16 < 16 ^ (count + 1) := by
        rw [Nat.pow_succ] at h
        omega
      rw [hexText_succ (by omega), List.append_assoc, readHex_add (count + 1) 1, ih hlt]
      simp only [Option.bind_some, List.singleton_append, hdigit _ (Nat.mod_lt value (by decide))]
      have hvalue : 16 * (16 ^ (count + 1) * start + value / 16) + value % 16 =
          16 ^ (count + 2) * start + value := by
        rw [Nat.mul_add, Nat.add_assoc, Nat.div_add_mod, ← Nat.mul_assoc, ← Nat.pow_succ']
      rw [hvalue]

/-! ## Printable characters -/

/-- Nothing but printable characters of ASCII, so in particular no line end. -/
def Printable (text : List Char) : Prop := ∀ c ∈ text, ' ' ≤ c ∧ c ≤ '~'

instance (text : List Char) : Decidable (Printable text) :=
  decidable_of_iff (text.all fun c => decide (' ' ≤ c ∧ c ≤ '~') = true) (by simp [Printable])

@[simp] theorem printable_nil : Printable [] := List.forall_mem_nil _

@[simp] theorem printable_cons {c : Char} {text : List Char} :
    Printable (c :: text) ↔ (' ' ≤ c ∧ c ≤ '~') ∧ Printable text :=
  List.forall_mem_cons

@[simp] theorem printable_append {text later : List Char} :
    Printable (text ++ later) ↔ Printable text ∧ Printable later :=
  List.forall_mem_append

theorem Printable.not_mem_newline {text : List Char} (h : Printable text) : '\n' ∉ text :=
  fun hmem => absurd (h '\n' hmem).1 (by decide)

theorem printable_digitChar : ∀ digit < 16, ' ' ≤ digit.digitChar ∧ digit.digitChar ≤ '~' := by
  decide

theorem printable_hexText (count value : Nat) : Printable (hexText count value) := by
  intro c hmem
  obtain ⟨digit, hlt, rfl⟩ := exists_digitChar_of_mem_hexText hmem
  exact printable_digitChar digit hlt

end RequestShapes.Text

namespace RequestShapes.Json

open Text

/-! ## Writing -/

theorem printable_unitEscape (unit : Nat) : Printable (unitEscape unit) := by
  simp only [unitEscape, printable_cons]
  exact ⟨by decide, by decide, printable_hexText 4 unit⟩

theorem printable_quotedChar (c : Char) : Printable (quotedChar c) := by
  unfold quotedChar
  split_ifs with hquote hbackslash hnewline hreturn htab hback hfeed hplain
  · decide
  · decide
  · decide
  · decide
  · decide
  · decide
  · decide
  · exact printable_cons.mpr ⟨hplain, printable_nil⟩
  · exact List.forall_mem_flatMap.mpr fun unit _ => printable_unitEscape unit

theorem printable_quotedText (text : String) : Printable (quotedText text) := by
  simp only [quotedText, printable_cons, printable_append]
  exact ⟨by decide, List.forall_mem_flatMap.mpr fun c _ => printable_quotedChar c,
    by decide, printable_nil⟩

/-! ## Reading -/

theorem readHex_unit {unit : Nat} (h : unit < 0x10000) (rest : List Char) :
    readHex 0 4 (hexText 4 unit ++ rest) = some (unit, rest) := by
  simpa using @readHex_hexText 3 unit h 0 rest

theorem toNat_lt_or_lt (c : Char) : c.toNat < 0xd800 ∨ 0xdfff < c.toNat ∧ c.toNat < 0x110000 :=
  c.valid

/-- A unit that is no surrogate is read as its character. -/
theorem readQuoted_unit {unit : Nat} (hhigh : isHighSurrogate unit = false)
    (hlow : isLowSurrogate unit = false) (h : unit < 0x10000) (fuel : Nat) (text : List Char) :
    readQuoted (fuel + 1) (unitEscape unit ++ text) =
      (readQuoted fuel text).map fun (characters, rest) =>
        (Char.ofNat unit :: characters, rest) := by
  simp only [unitEscape, List.cons_append, readQuoted, readHex_unit h, Option.bind_eq_bind,
    Option.bind_some, hhigh, charOfUnit, hlow]
  cases readQuoted fuel text <;> rfl

/-- Two units that form a pair are read as its character. -/
theorem readQuoted_pair {high low : Nat} (hhigh : isHighSurrogate high = true)
    (hlow : isLowSurrogate low = true) (fuel : Nat) (text : List Char) :
    readQuoted (fuel + 1) (unitEscape high ++ (unitEscape low ++ text)) =
      (readQuoted fuel text).map fun (characters, rest) =>
        (joinSurrogates high low :: characters, rest) := by
  have hhigh' : high < 0x10000 := by
    simp only [isHighSurrogate, Bool.and_eq_true, decide_eq_true_eq] at hhigh
    omega
  have hlow' : low < 0x10000 := by
    simp only [isLowSurrogate, Bool.and_eq_true, decide_eq_true_eq] at hlow
    omega
  have hpair : lowSurrogate? (unitEscape low ++ text) = some (low, text) := by
    simp only [lowSurrogate?, unitEscape, List.cons_append, after?, if_true, Option.bind_eq_bind,
      Option.bind_some, readHex_unit hlow', hlow]
  rw [unitEscape, List.cons_append, List.cons_append, readQuoted, readHex_unit hhigh']
  simp only [Option.bind_eq_bind, Option.bind_some, hhigh, if_true, hpair]
  cases readQuoted fuel text <;> rfl

/-- A character is read as its units were written. -/
theorem readQuoted_unitsOfChar (c : Char) (fuel : Nat) (text : List Char) :
    readQuoted (fuel + 1) ((unitsOfChar c).flatMap unitEscape ++ text) =
      (readQuoted fuel text).map fun (characters, rest) => (c :: characters, rest) := by
  have hvalid := toNat_lt_or_lt c
  unfold unitsOfChar
  split
  next hsmall =>
    have hhigh : isHighSurrogate c.toNat = false := by
      simp only [isHighSurrogate, Bool.and_eq_false_iff, decide_eq_false_iff_not]
      omega
    have hlow : isLowSurrogate c.toNat = false := by
      simp only [isLowSurrogate, Bool.and_eq_false_iff, decide_eq_false_iff_not]
      omega
    have hunit := readQuoted_unit hhigh hlow hsmall fuel text
    rw [Char.ofNat_toNat] at hunit
    rwa [List.flatMap_singleton]
  next hlarge =>
    have hhigh : isHighSurrogate (0xd800 + (c.toNat - 0x10000) / 0x400) = true := by
      simp only [isHighSurrogate, Bool.and_eq_true, decide_eq_true_eq]
      omega
    have hlow : isLowSurrogate (0xdc00 + (c.toNat - 0x10000) % 0x400) = true := by
      simp only [isLowSurrogate, Bool.and_eq_true, decide_eq_true_eq]
      omega
    have hjoined : joinSurrogates (0xd800 + (c.toNat - 0x10000) / 0x400)
        (0xdc00 + (c.toNat - 0x10000) % 0x400) = c := by
      have hcode : 0x10000 + (0xd800 + (c.toNat - 0x10000) / 0x400 - 0xd800) * 0x400 +
          (0xdc00 + (c.toNat - 0x10000) % 0x400 - 0xdc00) = c.toNat := by
        omega
      rw [joinSurrogates, hcode, Char.ofNat_toNat]
    have hpair := readQuoted_pair hhigh hlow fuel text
    rw [hjoined] at hpair
    rwa [List.flatMap_cons, List.flatMap_singleton, List.append_assoc]

/-- A character is read as it was written. -/
theorem readQuoted_quotedChar (c : Char) (fuel : Nat) (text : List Char) :
    readQuoted (fuel + 1) (quotedChar c ++ text) =
      (readQuoted fuel text).map fun (characters, rest) => (c :: characters, rest) := by
  have hnamed {letter : Char} (hletter : letter ≠ 'u') (h : namedEscape? letter = some c) :
      readQuoted (fuel + 1) ('\\' :: letter :: text) =
        (readQuoted fuel text).map fun (characters, rest) => (c :: characters, rest) := by
    rw [readQuoted, h]
    · cases readQuoted fuel text <;> rfl
    · exact hletter
  unfold quotedChar
  split_ifs with hquote hbackslash hnewline hreturn htab hback hfeed hplain
  · exact hnamed (by decide) (by rw [hquote]; rfl)
  · exact hnamed (by decide) (by rw [hbackslash]; rfl)
  · exact hnamed (by decide) (by rw [hnewline]; rfl)
  · exact hnamed (by decide) (by rw [hreturn]; rfl)
  · exact hnamed (by decide) (by rw [htab]; rfl)
  · exact hnamed (by decide) (by rw [hback]; rfl)
  · exact hnamed (by decide) (by rw [hfeed]; rfl)
  · rw [List.singleton_append, readQuoted, if_neg (Char.not_lt.mpr hplain.1)]
    · cases readQuoted fuel text <;> rfl
    · exact fun heq => hquote heq
    · exact fun _ heq => absurd heq hbackslash
    · exact fun _ _ heq => absurd heq hbackslash
  · exact readQuoted_unitsOfChar c fuel text

theorem readQuoted_flatMap {name : List Char} {fuel : Nat} (h : name.length < fuel)
    (rest : List Char) :
    readQuoted fuel (name.flatMap quotedChar ++ '"' :: rest) = some (name, rest) := by
  induction name generalizing fuel with
  | nil =>
      obtain ⟨fuel, rfl⟩ := Nat.exists_eq_add_one.mpr h
      rfl
  | cons c name ih =>
      obtain ⟨fuel, rfl⟩ := Nat.exists_eq_add_one.mpr (Nat.zero_lt_of_lt h)
      rw [List.flatMap_cons, List.append_assoc, readQuoted_quotedChar,
        ih (by simpa using h)]
      rfl

theorem unitsOfChar_ne_nil (c : Char) : unitsOfChar c ≠ [] := by
  unfold unitsOfChar
  split
  · exact List.cons_ne_nil _ _
  · exact List.cons_ne_nil _ _

theorem quotedChar_ne_nil (c : Char) : quotedChar c ≠ [] := by
  have hunits : (unitsOfChar c).flatMap unitEscape ≠ [] := by
    obtain ⟨unit, units, hcons⟩ := List.exists_cons_of_ne_nil (unitsOfChar_ne_nil c)
    rw [hcons, List.flatMap_cons, unitEscape]
    exact List.cons_ne_nil _ _
  unfold quotedChar
  split_ifs
  all_goals first | exact hunits | exact List.cons_ne_nil _ _

/-- Every character is written with at least one. -/
theorem length_le_flatMap_quotedChar (name : List Char) :
    name.length ≤ (name.flatMap quotedChar).length := by
  induction name with
  | nil => exact Nat.le_refl 0
  | cons c name ih =>
      have hpos := List.length_pos_iff.mpr (quotedChar_ne_nil c)
      simp only [List.flatMap_cons, List.length_append, List.length_cons]
      omega

/-- A quoted text is read back. -/
theorem readString_quotedText (name : String) (rest : List Char) :
    ∃ inner, quotedText name ++ rest = '"' :: inner ∧ readString inner = .ok (name, rest) := by
  refine ⟨name.toList.flatMap quotedChar ++ '"' :: rest, by simp [quotedText], ?_⟩
  have hlength := length_le_flatMap_quotedChar name.toList
  rw [readString, readQuoted_flatMap]
  · simp
  · simp only [List.length_append, List.length_cons]
    omega

end RequestShapes.Json
