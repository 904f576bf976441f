import Mathlib
import RequestShapes.Identifier

/-!
# What identifiers are made of

Identifiers hold letters and digits of ASCII only. Casing an identifier once
more changes at most its first character, and only if that is a small letter,
which it is if it stood behind an underscore.
-/

namespace RequestShapes.Identifier

/-- Nothing but letters and digits of ASCII. -/
def IsAlphanumeric (text : String) : Prop := ∀ c ∈ text.toList, c.isAlphanum = true

theorem isAlphanum_toUpper {c : Char} (h : c.isAlphanum = true) : c.toUpper.isAlphanum = true := by
  by_cases hlower : c.isLower = true
  · simp [Char.isAlphanum, Char.isAlpha, hlower]
  · rwa [Char.toUpper_eq_of_not_isLower hlower]

theorem isAlphanum_of_mem_raiseWords {inWord : Bool} {text : List Char} {c : Char}
    (h : c ∈ raiseWords inWord text) : c.isAlphanum = true := by
  induction text generalizing inWord with
  | nil => cases h
  | cons first rest ih =>
      rw [raiseWords] at h
      split at h
      next hfirst =>
        rcases List.mem_cons.mp h with rfl | hrest
        · split
          · exact hfirst
          · exact isAlphanum_toUpper hfirst
        · exact ih hrest
      next => exact ih h

theorem isAlphanumeric_pascalCase (text : String) : IsAlphanumeric (pascalCase text) :=
  fun _ hmem => isAlphanum_of_mem_raiseWords (by simpa [pascalCase] using hmem)

theorem isAlphanumeric_ofUrl (url : String) : IsAlphanumeric (ofUrl url) :=
  fun _ hmem => isAlphanum_of_mem_raiseWords (by simpa [ofUrl] using hmem)

theorem IsAlphanumeric.append {first second : String} (hfirst : IsAlphanumeric first)
    (hsecond : IsAlphanumeric second) : IsAlphanumeric (first ++ second) := by
  intro c hmem
  rw [String.toList_append, List.mem_append] at hmem
  exact hmem.elim (hfirst c) (hsecond c)

theorem isDigit_of_mem_toString {number : Nat} {c : Char} (h : c ∈ (toString number).toList) :
    c.isDigit = true := by
  refine @Nat.isDigit_of_mem_toDigits 10 number c (by decide) (Nat.le_refl 10) ?_
  rwa [← Nat.toList_repr]

theorem isAlphanumeric_toString (number : Nat) : IsAlphanumeric (toString number) :=
  fun _ hmem => by simp [Char.isAlphanum, isDigit_of_mem_toString hmem]

/-! ## Casing identifiers -/

/-- The first character is a small letter. -/
def beginsSmall (text : String) : Bool := text.toList.head?.any Char.isLower

/-- There is a first character, which is no small letter. -/
def BeginsLarge (text : String) : Prop :=
  ∃ c, text.toList.head? = some c ∧ c.isLower = false

theorem beginsLarge_iff {text : String} : BeginsLarge text ↔ text ≠ "" ∧ beginsSmall text = false := by
  rw [BeginsLarge, beginsSmall, ne_eq, ← String.toList_eq_nil_iff]
  cases text.toList <;> simp

theorem BeginsLarge.append {text : String} (h : BeginsLarge text) (other : String) :
    BeginsLarge (text ++ other) := by
  obtain ⟨c, hhead, hlarge⟩ := h
  exact ⟨c, by rw [String.toList_append, List.head?_append, hhead, Option.some_or], hlarge⟩

theorem raiseWords_true {text : List Char} (h : ∀ c ∈ text, c.isAlphanum = true) :
    raiseWords true text = text := by
  induction text with
  | nil => rfl
  | cons first rest ih =>
      obtain ⟨hfirst, hrest⟩ := List.forall_mem_cons.mp h
      rw [raiseWords, if_pos hfirst, if_pos rfl, ih hrest]

section Casing

variable {text other : String}

/-- Casing an identifier raises its first character. -/
theorem toList_pascalCase (h : IsAlphanumeric text) :
    (pascalCase text).toList = text.toList.modifyHead Char.toUpper := by
  rw [IsAlphanumeric] at h
  rw [pascalCase, String.toList_ofList]
  cases hlist : text.toList with
  | nil => rfl
  | cons first rest =>
      rw [hlist] at h
      obtain ⟨hfirst, hrest⟩ := List.forall_mem_cons.mp h
      rw [raiseWords, if_pos hfirst, raiseWords_true hrest]
      rfl

theorem pascalCase_eq_self_iff (h : IsAlphanumeric text) :
    pascalCase text = text ↔ beginsSmall text = false := by
  rw [← String.toList_inj, toList_pascalCase h, beginsSmall]
  cases text.toList with
  | nil => simp
  | cons first rest =>
      simp only [List.modifyHead_cons, List.cons.injEq, and_true, List.head?_cons, Option.any_some]
      constructor
      · intro heq
        rw [← heq, Char.isLower_toUpper_eq_false]
      · exact fun hlower => Char.toUpper_eq_of_not_isLower (by simp [hlower])

theorem beginsSmall_pascalCase (h : IsAlphanumeric text) : beginsSmall (pascalCase text) = false := by
  rw [beginsSmall, toList_pascalCase h]
  cases text.toList with
  | nil => rfl
  | cons first rest => simp

theorem pascalCase_pascalCase (h : IsAlphanumeric text) :
    pascalCase (pascalCase text) = pascalCase text :=
  (pascalCase_eq_self_iff (isAlphanumeric_pascalCase text)).mpr (beginsSmall_pascalCase h)

/-- What follows a name stays when it is cased, if it begins with no small letter. -/
theorem pascalCase_append (h : IsAlphanumeric text) (hother : IsAlphanumeric other)
    (hlarge : beginsSmall other = false) : pascalCase (text ++ other) = pascalCase text ++ other := by
  rw [← String.toList_inj, toList_pascalCase (h.append hother), String.toList_append,
    String.toList_append, toList_pascalCase h]
  cases hlist : text.toList with
  | nil =>
      have hcased := congrArg String.toList ((pascalCase_eq_self_iff hother).mpr hlarge)
      rw [toList_pascalCase hother] at hcased
      exact hcased
  | cons first rest => rfl

theorem toList_schemaConstant (h : IsAlphanumeric text) :
    (schemaConstant (pascalCase text)).toList =
      text.toList.modifyHead Char.toLower ++ "Schema".toList := by
  have hcamel : camelCase (pascalCase text) = String.ofList (lowerFirst (pascalCase text).toList) := by
    rw [camelCase, pascalCase_pascalCase h]
  rw [schemaConstant, hcamel, String.toList_append, String.toList_ofList, toList_pascalCase h]
  cases text.toList with
  | nil => rfl
  | cons first rest => simp [lowerFirst]

theorem toUpper_eq_iff {c d : Char} : c.toUpper = d.toUpper ↔ c.toLower = d.toLower := by
  constructor <;> intro heq
  · rw [← Char.toLower_toUpper_eq_toLower, heq, Char.toLower_toUpper_eq_toLower]
  · rw [← Char.toUpper_toLower_eq_toUpper, heq, Char.toUpper_toLower_eq_toUpper]

/-- Two identifiers have one type exactly if they have one constant. -/
theorem pascalCase_eq_iff_schemaConstant_eq (h : IsAlphanumeric text)
    (hother : IsAlphanumeric other) :
    pascalCase text = pascalCase other ↔
      schemaConstant (pascalCase text) = schemaConstant (pascalCase other) := by
  rw [← String.toList_inj, ← String.toList_inj, toList_schemaConstant h,
    toList_schemaConstant hother, List.append_cancel_right_eq, toList_pascalCase h,
    toList_pascalCase hother]
  cases text.toList <;> cases other.toList <;> simp [toUpper_eq_iff]

end Casing

/-! ## Casing twice -/

/-- The first letter or digit of a text is a small letter right behind an
underscore. It does not begin a word there, so casing does not raise it, and the
underscore is dropped. -/
def BeginsBehindUnderscore (text : List Char) : Prop :=
  ∃ before c rest, text = before ++ '_' :: c :: rest ∧
    (∀ d ∈ before, d.isAlphanum = false) ∧ c.isLower = true

section Twice

theorem isAlphanum_of_isLower {c : Char} (h : c.isLower = true) : c.isAlphanum = true := by
  simp [Char.isAlphanum, Char.isAlpha, h]

theorem not_beginsBehindUnderscore_nil : ¬ BeginsBehindUnderscore [] := by
  rintro ⟨before, c, rest, htext, -⟩
  simp at htext

/-- A character before the first letter or digit matters only if it is an
underscore and the next one is that letter. -/
theorem beginsBehindUnderscore_cons {c : Char} {rest : List Char} :
    BeginsBehindUnderscore (c :: rest) ↔ c.isAlphanum = false ∧
      (BeginsBehindUnderscore rest ∨ c = '_' ∧ rest.head?.any Char.isLower = true) := by
  constructor
  · rintro ⟨before, small, later, htext, hbefore, hsmall⟩
    cases before with
    | nil =>
        obtain ⟨rfl, rfl⟩ := List.cons.inj htext
        exact ⟨by decide, .inr ⟨rfl, by simpa using hsmall⟩⟩
    | cons d before =>
        obtain ⟨rfl, rfl⟩ := List.cons.inj htext
        obtain ⟨hc, hbefore⟩ := List.forall_mem_cons.mp hbefore
        exact ⟨hc, .inl ⟨before, small, later, rfl, hbefore, hsmall⟩⟩
  · rintro ⟨hc, ⟨before, small, later, rfl, hbefore, hsmall⟩ | ⟨rfl, hhead⟩⟩
    · exact ⟨c :: before, small, later, rfl, List.forall_mem_cons.mpr ⟨hc, hbefore⟩, hsmall⟩
    · cases rest with
      | nil => cases hhead
      | cons small later =>
          exact ⟨[], small, later, rfl, List.forall_mem_nil _, by simpa using hhead⟩

/-- The first character of a cased text is a small letter if it stood in a word
already, or behind an underscore. -/
theorem head?_raiseWords {inWord : Bool} {text : List Char} :
    (raiseWords inWord text).head?.any Char.isLower = true ↔
      BeginsBehindUnderscore text ∨ inWord = true ∧ text.head?.any Char.isLower = true := by
  induction text generalizing inWord with
  | nil => simp [raiseWords, not_beginsBehindUnderscore_nil]
  | cons c rest ih =>
      rw [raiseWords, beginsBehindUnderscore_cons]
      by_cases hc : c.isAlphanum = true
      · cases inWord <;> simp [hc]
      · have hlower : c.isLower = false :=
          Bool.eq_false_iff.mpr fun hlower => hc (isAlphanum_of_isLower hlower)
        simp [hc, hlower, ih, isWordChar]

theorem beginsSmall_pascalCase_iff {text : String} :
    beginsSmall (pascalCase text) = true ↔ BeginsBehindUnderscore text.toList := by
  rw [beginsSmall, pascalCase, String.toList_ofList, head?_raiseWords]
  simp

/-- Lowering the first character forgets how it was cased. -/
theorem lowerFirst_modifyHead (text : List Char) :
    lowerFirst (text.modifyHead Char.toUpper) = lowerFirst text := by
  cases text with
  | nil => rfl
  | cons first rest => simp [lowerFirst]

/-- Casing a name once more leaves it as it is, unless its first letter is a small
one that stood behind an underscore. The constant of a name is the same in any
case, and so is the name after the second time. -/
theorem pascalCase_stable_iff (text : String) :
    (pascalCase (pascalCase text) = pascalCase text ↔ ¬ BeginsBehindUnderscore text.toList) ∧
      schemaConstant (pascalCase text) = schemaConstant text ∧
      pascalCase (pascalCase (pascalCase text)) = pascalCase (pascalCase text) := by
  have halnum := isAlphanumeric_pascalCase text
  refine ⟨?_, ?_, pascalCase_pascalCase halnum⟩
  · rw [pascalCase_eq_self_iff halnum, ← beginsSmall_pascalCase_iff, Bool.not_eq_true]
  · rw [schemaConstant, schemaConstant, camelCase, camelCase, toList_pascalCase halnum,
      lowerFirst_modifyHead]

/-- A key with an underscore in front is cased to a name with a small first letter,
which casing raises the next time. -/
theorem underscoreId_raised_later :
    pascalCase "_id" = "id" ∧ pascalCase (pascalCase "_id") ≠ pascalCase "_id" := by
  decide

end Twice

/-! ## Legal identifiers -/

/-- The first character is a letter. -/
def beginsLetter (text : String) : Bool := text.toList.head?.any Char.isAlpha

/-- A letter, followed by letters and digits of ASCII. -/
structure IsLegal (text : String) : Prop where
  first : beginsLetter text = true
  rest : IsAlphanumeric text

section Legality

variable {text other : String}

theorem not_isAlpha_of_isDigit {c : Char} (h : c.isDigit = true) : c.isAlpha = false := by
  simp [Char.isDigit, Char.isAlpha, Char.isLower, Char.isUpper] at h ⊢
  grind

theorem beginsLetter_toString (number : Nat) : beginsLetter (toString number) = false := by
  rw [beginsLetter]
  cases hdigits : (toString number).toList with
  | nil => rfl
  | cons c rest =>
      exact not_isAlpha_of_isDigit (isDigit_of_mem_toString (hdigits ▸ List.mem_cons_self))

theorem beginsLetter_append (h : beginsLetter text = true) :
    beginsLetter (text ++ other) = true := by
  unfold beginsLetter at h ⊢
  rw [String.toList_append]
  cases hlist : text.toList with
  | nil =>
      rw [hlist] at h
      cases h
  | cons first rest => simpa [hlist] using h

theorem isAlphanum_toLower {c : Char} (h : c.isAlphanum = true) : c.toLower.isAlphanum = true := by
  by_cases hupper : c.isUpper = true
  · simp [Char.isAlphanum, Char.isAlpha, hupper]
  · rwa [Char.toLower_eq_of_not_isUpper hupper]

theorem isAlphanumeric_schemaConstant (typeName : String) :
    IsAlphanumeric (schemaConstant typeName) := by
  refine IsAlphanumeric.append (fun c hmem => ?_) (by simp [IsAlphanumeric])
  have hcased := isAlphanumeric_pascalCase typeName
  rw [IsAlphanumeric] at hcased
  rw [camelCase, String.toList_ofList] at hmem
  cases hlist : (pascalCase typeName).toList with
  | nil =>
      rw [hlist] at hmem
      cases hmem
  | cons first rest =>
      rw [hlist] at hmem hcased
      obtain ⟨hfirst, hrest⟩ := List.forall_mem_cons.mp hcased
      obtain rfl | hmem := List.mem_cons.mp hmem
      · exact isAlphanum_toLower hfirst
      · exact hrest c hmem

theorem beginsLetter_pascalCase (h : IsAlphanumeric text) :
    beginsLetter (pascalCase text) = beginsLetter text := by
  rw [beginsLetter, beginsLetter, toList_pascalCase h]
  cases text.toList with
  | nil => rfl
  | cons first rest => simp

/-- The constant and the type of a name are legal exactly if the name begins with a
letter. -/
theorem isLegal_iff (h : IsAlphanumeric text) :
    IsLegal (schemaConstant (pascalCase text)) ∧ IsLegal (pascalCase text) ↔
      beginsLetter text = true := by
  constructor
  · intro hlegal
    rw [← beginsLetter_pascalCase h]
    exact hlegal.2.first
  · intro hletter
    refine ⟨⟨?_, ?_⟩, by rwa [beginsLetter_pascalCase h], isAlphanumeric_pascalCase text⟩
    · rw [beginsLetter] at hletter ⊢
      rw [toList_schemaConstant h]
      cases hlist : text.toList with
      | nil =>
          rw [hlist] at hletter
          cases hletter
      | cons first rest =>
          rw [hlist] at hletter
          simpa using hletter
    · exact isAlphanumeric_schemaConstant _

end Legality

end RequestShapes.Identifier
