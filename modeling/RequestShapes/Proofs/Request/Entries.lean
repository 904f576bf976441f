import RequestShapes.Proofs.Request.Scanning
import RequestShapes.Proofs.Schema.Forms
import Mathlib.Tactic.IntervalCases

/-!
# Reading written entries

A table whose keys and values are plain is written with one entry to a line.
Every line gives its entry back, so the block gives the table back.
-/

namespace RequestShapes.Table

variable {α : Type}

theorem set_of_not_mem {table : Table α} {name : String} (h : name ∉ names table) (value : α) :
    set table name value = table ++ [(name, value)] := by
  induction table with
  | nil => rfl
  | cons entry table ih =>
      simp only [names, List.map_cons, List.mem_cons, not_or] at h
      simp [set, Ne.symm h.1, ih h.2]

/-- Writing entries of new and distinct names appends them. -/
theorem update_of_nodup {table entries : Table α} (h : (names (table ++ entries)).Nodup) :
    update table entries = table ++ entries := by
  -- The table grows by the entries written, so the names stay distinct as a whole.
  induction entries generalizing table with
  | nil => simp [update]
  | cons entry entries ih =>
      have hnew : entry.1 ∉ names table := by
        simp only [names, List.map_append, List.map_cons, List.nodup_append] at h
        exact fun hmem => h.2.2 _ hmem _ List.mem_cons_self rfl
      have hset := set_of_not_mem hnew entry.2
      have hrest := @ih (set table entry.1 entry.2) (by rwa [hset, List.append_assoc])
      rw [hset, List.append_assoc] at hrest
      rw [update, List.foldl_cons, hset]
      exact hrest

theorem ofEntries_of_nodup {entries : Table α} (h : (names entries).Nodup) :
    ofEntries entries = entries :=
  update_of_nodup h

end RequestShapes.Table

namespace RequestShapes.Request

open Schema (after?_append ok_bind)
open Text

/-! ## Trimmed texts -/

section Trimming

variable {text front back : List Char}

theorem dropBlank_of_trim (h : trim text = text) : dropBlank text = text := by
  apply (List.dropWhile_suffix isBlank).eq_of_length_le
  calc text.length = (dropBlank (dropBlank text).reverse).length := by
        conv_lhs => rw [← h, trim, List.length_reverse]
    _ ≤ (dropBlank text).reverse.length := List.length_dropWhile_le isBlank _
    _ = (dropBlank text).length := List.length_reverse

theorem dropBlank_reverse_of_trim (h : trim text = text) :
    dropBlank text.reverse = text.reverse := by
  have htrim := h
  rw [trim, dropBlank_of_trim h] at htrim
  rw [← List.reverse_inj, htrim, List.reverse_reverse]

theorem dropBlank_append (h : dropBlank front = front) (hne : front ≠ []) :
    dropBlank (front ++ text) = front ++ text := by
  unfold dropBlank at h ⊢
  rw [List.dropWhile_append, h, if_neg (by simpa using hne)]

/-- A text is trimmed if it begins and ends with trimmed ones. -/
theorem trim_between (hfront : trim front = front) (hne : front ≠ []) (hback : trim back = back)
    (hne' : back ≠ []) : trim (front ++ (text ++ back)) = front ++ (text ++ back) := by
  have hreverse : (front ++ (text ++ back)).reverse =
      back.reverse ++ (text.reverse ++ front.reverse) := by
    simp
  rw [trim, dropBlank_append (dropBlank_of_trim hfront) hne, hreverse,
    dropBlank_append (dropBlank_reverse_of_trim hback) (by simpa using hne'), ← hreverse,
    List.reverse_reverse]

/-- Blanks in front are trimmed. -/
theorem trim_append_left (h : ∀ c ∈ front, isBlank c = true) :
    trim (front ++ text) = trim text := by
  simp only [trim, dropBlank, List.dropWhile_append_of_pos h]

/-- Blanks behind are trimmed. -/
theorem trim_append_right (h : ∀ c ∈ back, isBlank c = true) :
    trim (text ++ back) = trim text := by
  have hreverse : ∀ c ∈ back.reverse, isBlank c = true := by simpa using h
  simp only [trim, dropBlank, List.dropWhile_append]
  split
  next hempty =>
    rw [List.isEmpty_iff.mp hempty, List.dropWhile_eq_nil_iff.mpr h]
  next => rw [List.reverse_append, List.dropWhile_append_of_pos hreverse]

end Trimming

/-! ## Plain texts -/

/-- A text that stands on a line by itself: not empty, trimmed, without braces
and line ends. -/
structure Plain (text : List Char) : Prop where
  ne_nil : text ≠ []
  trimmed : trim text = text
  braceless : Braceless text
  oneLine : ∀ c ∈ text, isLineEnd c = false

instance (text : List Char) : Decidable (Plain text) :=
  decidable_of_iff
    (text ≠ [] ∧ trim text = text ∧ Braceless text ∧ text.all (fun c => !isLineEnd c) = true)
    ⟨fun h => ⟨h.1, h.2.1, h.2.2.1, by simpa using h.2.2.2⟩,
      fun h => ⟨h.ne_nil, h.trimmed, h.braceless, by simpa using h.oneLine⟩⟩

/-- A key is plain, has no colon and does not make its line a comment. -/
structure PlainKey (key : List Char) : Prop extends Plain key where
  colonless : ':' ∉ key
  meant : isComment key = false

instance (key : List Char) : Decidable (PlainKey key) :=
  decidable_of_iff (Plain key ∧ ':' ∉ key ∧ isComment key = false)
    ⟨fun h => ⟨h.1, h.2.1, h.2.2⟩, fun h => ⟨h.toPlain, h.colonless, h.meant⟩⟩

/-- How a value is written in an entry. -/
def valueText : Json → List Char
  | .bool true => "true".toList
  | .bool false => "false".toList
  | .int n => integerText n
  | .str text => text.toList
  | _ => []

/-- The values that are written as they are read: booleans, integers that may be
written out, and plain texts that are not written like another value. -/
def PlainValue : Json → Prop
  | .bool _ => True
  | .int n => integerFits n = true
  | .str text =>
      Plain text.toList ∧ text ≠ "true" ∧ text ≠ "false" ∧ numeral? text.toList = none
  | _ => False

instance : DecidablePred PlainValue
  | .bool _ => .isTrue trivial
  | .int n => inferInstanceAs (Decidable (integerFits n = true))
  | .str text => inferInstanceAs (Decidable (Plain text.toList ∧ _))
  | .null | .float _ | .arr _ | .obj _ => .isFalse id

/-! ## Integers -/

section Integers

/-- The digits of a decimal text, all of ASCII. -/
def asciiDigits : List Char := "0123456789".toList

theorem mem_asciiDigits_of_isDigit {c : Char} (h : c.isDigit = true) : c ∈ asciiDigits := by
  simp only [Char.isDigit, Bool.and_eq_true, decide_eq_true_eq, ge_iff_le, UInt32.le_iff_toNat_le]
    at h
  have hlow : 48 ≤ c.toNat := h.1
  have hhigh : c.toNat ≤ 57 := h.2
  rw [← Char.ofNat_toNat c]
  interval_cases c.toNat <;> decide

theorem mem_asciiDigits {n : Nat} {c : Char} (h : c ∈ Nat.toDigits 10 n) : c ∈ asciiDigits :=
  mem_asciiDigits_of_isDigit (Nat.isDigit_of_mem_toDigits (by decide) (Nat.le_refl 10) h)

theorem isDigit_of_mem_asciiDigits : ∀ c ∈ asciiDigits, isDigit c = true :=
  forall_mem_of_all (by decide)

theorem digitValue_of_mem_asciiDigits :
    ∀ c ∈ asciiDigits, digitValue c = c.toNat - '0'.toNat :=
  forall_mem_of_all (by decide)

/-- The digits of a number give the number back. -/
theorem digitsValue_toDigits (n : Nat) : digitsValue (Nat.toDigits 10 n) = n := by
  have hfold : ∀ digits : List Char, (∀ c ∈ digits, c ∈ asciiDigits) → ∀ value,
      digits.foldl (fun value c => 10 * value + digitValue c) value =
        Nat.ofDigitChars 10 digits value := by
    intro digits
    induction digits with
    | nil => intro _ value; rfl
    | cons c digits ih =>
        intro hdigits value
        obtain ⟨hc, hrest⟩ := List.forall_mem_cons.mp hdigits
        rw [List.foldl_cons, ih hrest, digitValue_of_mem_asciiDigits c hc]
        rfl
  rw [digitsValue, hfold _ fun c hc => mem_asciiDigits hc, Nat.ofDigitChars_ten_toDigits]

theorem integerText_of_nonneg {n : Int} (h : ¬ n < 0) :
    integerText n = Nat.toDigits 10 n.natAbs := by
  simp [integerText, h]

theorem integerText_of_neg {n : Int} (h : n < 0) :
    integerText n = '-' :: Nat.toDigits 10 n.natAbs := by
  simp [integerText, h]

/-- The limit on an integer is the limit on its digits. -/
theorem integerFits_iff {n : Int} :
    integerFits n = true ↔ (Nat.toDigits 10 n.natAbs).length ≤ digitLimit := by
  rw [integerFits, Nat.pow_eq, decide_eq_true_iff,
    Nat.length_toDigits_le_iff (by decide) (by decide)]

theorem integerFits_of_le {n : Nat} (h : 10 ^ digitLimit ≤ n) : integerFits n = false := by
  rw [Bool.eq_false_iff, ne_eq, integerFits_iff, Int.natAbs_natCast,
    Nat.length_toDigits_le_iff (by decide) (by decide)]
  intro hlt
  exact absurd h hlt.not_ge

theorem readInteger_toDigits {negative : Bool} {n : Nat}
    (h : (Nat.toDigits 10 n).length ≤ digitLimit) :
    readInteger negative (Nat.toDigits 10 n) = .ok (if negative then -(n : Int) else n) := by
  rw [readInteger, if_neg (Nat.not_lt.mpr h), digitsValue_toDigits]

theorem readInteger_of_lt {negative : Bool} {digits : List Char}
    (h : digitLimit < digits.length) :
    readInteger negative digits = .error ⟨some digits.length⟩ :=
  if_pos h

/-- Digits after an optional sign are the numeral of an integer. -/
theorem numeral?_of_digits {text digits : List Char} {negative : Bool}
    (hsign : takeSign text = (negative, digits)) (hne : digits ≠ [])
    (hdigits : ∀ c ∈ digits, isDigit c = true) :
    numeral? text = some ⟨negative, digits, none, none⟩ := by
  have htake : digits.takeWhile isDigit = digits := List.takeWhile_eq_self_iff.mpr hdigits
  have hdrop : digits.dropWhile isDigit = [] := List.dropWhile_eq_nil_iff.mpr hdigits
  simp [numeral?, hsign, htake, hdrop, hne]

/-- What is read as a numeral begins with its sign and its whole digits, and if it
has neither fraction nor exponent nothing follows. -/
theorem numeral?_eq_some {text : List Char} {numeral : Numeral} (h : numeral? text = some numeral) :
    numeral.negative = (takeSign text).1 ∧
      numeral.whole = (takeSign text).2.takeWhile isDigit ∧
      (numeral.fraction = none → numeral.exponent = none →
        (takeSign text).2.dropWhile isDigit = []) := by
  rw [numeral?] at h
  dsimp only at h
  split at h
  next behind hpoint =>
    split at h
    next => cases h
    next =>
      split at h
      next =>
        cases h
        exact ⟨rfl, rfl, fun hfraction => nomatch hfraction⟩
      next =>
        split at h
        next =>
          cases h
          exact ⟨rfl, rfl, fun hfraction => nomatch hfraction⟩
        next => cases h
  next =>
    split at h
    next => cases h
    next =>
      split at h
      next hend =>
        cases h
        exact ⟨rfl, rfl, fun _ _ => hend⟩
      next =>
        split at h
        next =>
          cases h
          exact ⟨rfl, rfl, fun _ hexponent => nomatch hexponent⟩
        next => cases h

theorem takeSign_integerText (n : Int) :
    takeSign (integerText n) = (decide (n < 0), Nat.toDigits 10 n.natAbs) := by
  by_cases h : n < 0
  · simp [integerText_of_neg h, takeSign, h]
  · rw [integerText_of_nonneg h]
    obtain ⟨c, digits, heq⟩ :=
      List.exists_cons_of_ne_nil (Nat.toDigits_ne_nil (b := 10) (n := n.natAbs))
    have hsign : ∀ c ∈ asciiDigits, c ≠ '-' ∧ c ≠ '+' := forall_mem_of_all (by decide)
    obtain ⟨hminus, hplus⟩ := hsign c (mem_asciiDigits (heq ▸ List.mem_cons_self))
    rw [heq, takeSign.eq_def]
    split
    next hcons => exact absurd (List.cons.inj hcons).1 hminus
    next hcons => exact absurd (List.cons.inj hcons).1 hplus
    next => simp [h]

theorem numeral?_integerText (n : Int) :
    numeral? (integerText n) = some ⟨decide (n < 0), Nat.toDigits 10 n.natAbs, none, none⟩ :=
  numeral?_of_digits (takeSign_integerText n) Nat.toDigits_ne_nil
    fun c hc => isDigit_of_mem_asciiDigits c (mem_asciiDigits hc)

/-- The characters of an integer. -/
theorem mem_integerText {n : Int} {c : Char} (h : c ∈ integerText n) : c ∈ '-' :: asciiDigits := by
  unfold integerText at h
  split at h
  · exact List.mem_cons.mpr ((List.mem_cons.mp h).imp id mem_asciiDigits)
  · exact List.mem_cons_of_mem _ (mem_asciiDigits h)

theorem integerText_ne_nil (n : Int) : integerText n ≠ [] := by
  unfold integerText
  split
  · exact List.cons_ne_nil _ _
  · exact Nat.toDigits_ne_nil

end Integers

/-! ## Values -/

/-- A text without blanks is trimmed. -/
theorem trim_of_forall {text : List Char} (h : ∀ c ∈ text, isBlank c = false) :
    trim text = text := by
  have hdrop : ∀ text : List Char, (∀ c ∈ text, isBlank c = false) → dropBlank text = text := by
    intro text htext
    cases text with
    | nil => rfl
    | cons c text => simp [dropBlank, htext c List.mem_cons_self]
  rw [trim, hdrop text h, hdrop text.reverse (by simpa using h), List.reverse_reverse]

theorem plain_of_forall {text : List Char} (hne : text ≠ [])
    (h : ∀ c ∈ text, isBlank c = false ∧ isLineEnd c = false ∧ Braceless [c]) : Plain text where
  ne_nil := hne
  trimmed := trim_of_forall fun c hc => (h c hc).1
  braceless := ⟨fun hmem => (h _ hmem).2.2.1 List.mem_cons_self,
    fun hmem => (h _ hmem).2.2.2 List.mem_cons_self⟩
  oneLine := fun c hc => (h c hc).2.1

/-- A plain value is written as a plain text. -/
theorem PlainValue.plain {value : Json} (h : PlainValue value) : Plain (valueText value) := by
  cases value with
  | bool b => cases b <;> exact plain_of_forall (by decide) (forall_mem_of_all (by decide))
  | int n =>
      have hcharacters : ∀ c ∈ '-' :: asciiDigits,
          isBlank c = false ∧ isLineEnd c = false ∧ Braceless [c] := forall_mem_of_all (by decide)
      exact plain_of_forall (integerText_ne_nil n) fun c hc => hcharacters c (mem_integerText hc)
  | str text => exact h.1
  | null | float | arr | obj => exact absurd h id

theorem signed_natAbs (n : Int) : (if n < 0 then -(n.natAbs : Int) else n.natAbs) = n := by
  split <;> omega

theorem valueOf_integerText {n : Int} (h : integerFits n = true) :
    valueOf (integerText n) = .ok (.int n) := by
  -- A boolean begins with a letter, an integer with a sign or a digit.
  have hletters : ∀ word : List Char, word.head? = some 't' ∨ word.head? = some 'f' →
      integerText n ≠ word := by
    rintro word hword rfl
    have hmem : ∀ c, (integerText n).head? = some c → c ∈ '-' :: asciiDigits :=
      fun c hc => mem_integerText (List.mem_of_mem_head? hc)
    obtain hhead | hhead := hword <;> exact absurd (hmem _ hhead) (by decide)
  rw [valueOf, if_neg (hletters _ (.inl rfl)), if_neg (hletters _ (.inr rfl)),
    numeral?_integerText]
  simp only [Numeral.value, Option.isNone_none, Bool.and_self, if_true,
    readInteger_toDigits (integerFits_iff.mp h)]
  simp only [Except.map, decide_eq_true_eq, signed_natAbs]

/-- A plain value is read as it is written. -/
theorem PlainValue.valueOf_eq {value : Json} (h : PlainValue value) :
    valueOf (valueText value) = .ok value := by
  cases value with
  | bool b => cases b <;> rfl
  | int n =>
      simp only [PlainValue] at h
      simp only [valueText, valueOf_integerText h]
  | str text =>
      obtain ⟨-, htrue, hfalse, hnumeral⟩ := h
      have hne : ∀ word : String, text ≠ word → text.toList ≠ word.toList :=
        fun word hword heq => hword (String.toList_injective heq)
      simp only [valueText, valueOf, if_neg (hne _ htrue), if_neg (hne _ hfalse), hnumeral,
        String.ofList_toList]
  | null | float | arr | obj => exact absurd h id

/-! ## Tables -/

/-- A table that can be written: every key and every value is plain. -/
structure Entries where
  table : Table Json
  nodup : table.names.Nodup
  keys : ∀ entry ∈ table, PlainKey entry.1.toList
  values : ∀ entry ∈ table, PlainValue entry.2

/-- The line of an entry, indented. -/
def entryLine (indent : List Char) (entry : String × Json) : List Char :=
  indent ++ (entry.1.toList ++ (": ".toList ++ valueText entry.2))

/-- The text of a block of entries, from the brace on which it opens to the one
that closes it. -/
def Entries.text (entries : Entries) (indent closing : List Char) : List Char :=
  '\n' :: (entries.table.flatMap (fun entry => entryLine indent entry ++ ['\n']) ++ closing)

/-- What is read from a block of entries: a table without entries is none. -/
def Entries.read (entries : Entries) : Option (Table Json) :=
  if entries.table = [] then none else some entries.table

theorem PlainKey.entryLine_trim {indent : List Char} {entry : String × Json}
    (hkey : PlainKey entry.1.toList) (hvalue : PlainValue entry.2)
    (hindent : ∀ c ∈ indent, isBlank c = true) :
    trim (entryLine indent entry) = entryLine [] entry := by
  have hplain := hvalue.plain
  rw [entryLine, trim_append_left hindent,
    trim_between hkey.trimmed hkey.ne_nil hplain.trimmed hplain.ne_nil]
  rfl

/-- A key that is no comment begins no comment. -/
theorem PlainKey.not_isComment {key : List Char} (h : PlainKey key) (rest : List Char) :
    isComment (key ++ ':' :: rest) = false := by
  have hmeant := h.meant
  simp only [isComment, Bool.or_eq_false_iff, Option.isSome_eq_false_iff, Option.isNone_iff_eq_none,
    after?_eq_none_iff] at hmeant ⊢
  exact ⟨fun hslash => hmeant.1 (prefix_of_not_mem (by decide) hslash),
    fun hhash => hmeant.2 (prefix_of_not_mem (by decide) hhash)⟩

/-- The line of an entry gives its key and the text of its value. -/
theorem splitEntry?_entryLine {indent : List Char} {entry : String × Json}
    (hkey : PlainKey entry.1.toList) (hvalue : PlainValue entry.2)
    (hindent : ∀ c ∈ indent, isBlank c = true) :
    splitEntry? (entryLine indent entry) = some (entry.1.toList, valueText entry.2) := by
  have hline : entryLine [] entry = entry.1.toList ++ ([':'] ++ ' ' :: valueText entry.2) := rfl
  have hcomment := hkey.not_isComment (' ' :: valueText entry.2)
  have hcut := cut?_append (List.cons_ne_nil ':' [])
    (absent_of_not_mem hkey.colonless (':' :: ' ' :: valueText entry.2))
  have hspace : trim (' ' :: valueText entry.2) = trim (valueText entry.2) :=
    @trim_append_left _ [' '] (forall_mem_of_all (by decide))
  simp only [ splitEntry?, hkey.entryLine_trim hvalue hindent, hline, List.singleton_append]
    at hcut ⊢
  simp only [hcomment, hcut, Option.map_some, hspace, hkey.trimmed, hvalue.plain.trimmed]
  rfl

theorem splitEntry?_blank {line : List Char} (h : ∀ c ∈ line, isBlank c = true) :
    splitEntry? line = none := by
  have htrim : trim line = [] := by
    rw [← List.append_nil line, trim_append_left h]
    rfl
  rw [ splitEntry?, htrim]
  rfl

/-- The lines of entries, with blank lines around them, give the entries back. -/
theorem entriesOf_lines {indent : List Char} {table : Table Json} {last : List (List Char)}
    (hkeys : ∀ entry ∈ table, PlainKey entry.1.toList)
    (hvalues : ∀ entry ∈ table, PlainValue entry.2)
    (hindent : ∀ c ∈ indent, isBlank c = true) (hlast : entriesOf last = .ok []) :
    entriesOf (table.map (entryLine indent) ++ last) = .ok table := by
  induction table with
  | nil => exact hlast
  | cons entry table ih =>
      obtain ⟨hkey, hkeys⟩ := List.forall_mem_cons.mp hkeys
      obtain ⟨hvalue, hvalues⟩ := List.forall_mem_cons.mp hvalues
      rw [List.map_cons, List.cons_append, entriesOf, splitEntry?_entryLine hkey hvalue hindent]
      simp only [hvalue.valueOf_eq, ih hkeys hvalues, ok_bind, String.ofList_toList]

/-! ## Lines -/

theorem linesFrom_append {line : List Char} (h : ∀ c ∈ line, isLineEnd c = false)
    (started rest : List Char) :
    linesFrom started (line ++ '\n' :: rest) = (started.reverse ++ line) :: linesFrom [] rest := by
  induction line generalizing started with
  | nil => simp [linesFrom, isLineEnd]
  | cons c line ih =>
      obtain ⟨hc, hline⟩ := List.forall_mem_cons.mp h
      have hreturn : c ≠ '\r' := by
        rintro rfl
        exact absurd hc (by decide)
      rw [List.cons_append, linesFrom, if_neg (by simp [hc]), ih hline]
      · simp
      · exact fun _ heq => absurd heq hreturn

theorem linesFrom_flatMap {α : Type} {line : α → List Char} {items : List α}
    (h : ∀ item ∈ items, ∀ c ∈ line item, isLineEnd c = false) (rest : List Char) :
    linesFrom [] (items.flatMap (fun item => line item ++ ['\n']) ++ rest) =
      items.map line ++ linesFrom [] rest := by
  induction items with
  | nil => rfl
  | cons item items ih =>
      obtain ⟨hitem, hitems⟩ := List.forall_mem_cons.mp h
      have hline := linesFrom_append hitem []
        (items.flatMap (fun item => line item ++ ['\n']) ++ rest)
      simp only [List.reverse_nil, List.nil_append, ih hitems] at hline
      simpa using hline

theorem linesFrom_of_oneLine {text : List Char} (h : ∀ c ∈ text, isLineEnd c = false)
    (started : List Char) :
    linesFrom started text = [] ∨ linesFrom started text = [started.reverse ++ text] := by
  induction text generalizing started with
  | nil => cases started <;> simp [linesFrom]
  | cons c text ih =>
      obtain ⟨hc, htext⟩ := List.forall_mem_cons.mp h
      have hreturn : c ≠ '\r' := by
        rintro rfl
        exact absurd hc (by decide)
      rw [linesFrom, if_neg (by simp [hc])]
      · simpa using ih htext (c :: started)
      · exact fun _ heq => absurd heq hreturn

theorem Entries.braceless_text (entries : Entries) {indent closing : List Char}
    (hindent : Braceless indent) (hclosing : Braceless closing) :
    Braceless (entries.text indent closing) := by
  have hlines : ∀ table : Table Json, (∀ entry ∈ table, PlainKey entry.1.toList) →
      (∀ entry ∈ table, PlainValue entry.2) →
      Braceless (table.flatMap fun entry => entryLine indent entry ++ ['\n']) := by
    intro table hkeys hvalues
    induction table with
    | nil => exact (by decide : Braceless [])
    | cons entry table ih =>
        obtain ⟨hkey, hkeys⟩ := List.forall_mem_cons.mp hkeys
        obtain ⟨hvalue, hvalues⟩ := List.forall_mem_cons.mp hvalues
        simp only [List.flatMap_cons, entryLine, braceless_append]
        exact ⟨⟨⟨hindent, hkey.braceless, by decide, hvalue.plain.braceless⟩, by decide⟩,
          ih hkeys hvalues⟩
  have hbody := braceless_append.mpr ⟨hlines _ entries.keys entries.values, hclosing⟩
  exact braceless_append.mpr ⟨(by decide : Braceless ['\n']), hbody⟩

/-- A block of entries is read as its table. -/
theorem Entries.entries?_text (entries : Entries) {indent closing : List Char}
    (hindent : ∀ c ∈ indent, c = ' ') (hclosing : ∀ c ∈ closing, c = ' ') :
    entries? (entries.text indent closing) = .ok entries.read := by
  have hblank : ∀ text : List Char, (∀ c ∈ text, c = ' ') → ∀ c ∈ text, isBlank c = true := by
    intro text htext c hc
    rw [htext c hc]
    decide
  have honeLine : ∀ text : List Char, (∀ c ∈ text, c = ' ') → ∀ c ∈ text, isLineEnd c = false := by
    intro text htext c hc
    rw [htext c hc]
    decide
  have hline : ∀ entry ∈ entries.table, ∀ c ∈ entryLine indent entry, isLineEnd c = false := by
    intro entry hentry
    simp only [entryLine, List.forall_mem_append]
    exact ⟨honeLine _ hindent, (entries.keys entry hentry).oneLine,
      forall_mem_of_all (by decide),
      (entries.values entry hentry).plain.oneLine⟩
  have hlines : lines (entries.text indent closing) =
      [] :: (entries.table.map (entryLine indent) ++ linesFrom [] closing) := by
    rw [← linesFrom_flatMap hline]
    exact linesFrom_append (List.forall_mem_nil _) [] _
  have hlast : entriesOf (linesFrom [] closing) = .ok [] := by
    obtain hnone | hone := linesFrom_of_oneLine (honeLine _ hclosing) []
    · rw [hnone]
      rfl
    · rw [hone, entriesOf, splitEntry?_blank (by simpa using hblank _ hclosing)]
      rfl
  rw [entries?, hlines, entriesOf, splitEntry?_blank (List.forall_mem_nil _)]
  simp only [entriesOf_lines entries.keys entries.values (hblank _ hindent) hlast, ok_bind,
    Table.ofEntries_of_nodup entries.nodup]
  rw [Entries.read]
  split
  next hnil => rw [if_pos hnil]
  next table hcons => rw [if_neg hcons]

end RequestShapes.Request
