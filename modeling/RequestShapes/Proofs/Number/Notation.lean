import Mathlib.Tactic.SplitIfs
import RequestShapes.Number.Integer
import RequestShapes.Number.Shortest

/-!
# How numbers are written

The text of an integer and the shortest text of a finite double are written as JSON
writes numbers: a sign, whole digits without needless zeros in front, and perhaps a
fraction and an exponent, neither without a digit.
-/

namespace RequestShapes

/-! ## The notation -/

/-- Digits, at least one. -/
def Digits (text : List Char) : Prop := text ≠ [] ∧ ∀ c ∈ text, c.isDigit = true

/-- Digits that begin with no zero. -/
def Significant (text : List Char) : Prop := Digits text ∧ text.head? ≠ some '0'

/-- The whole part of a number: a zero, or digits that begin with none. -/
inductive WholePart : List Char → Prop
  | zero : WholePart ['0']
  | significant {text : List Char} : Significant text → WholePart text

/-- A fraction, if there is one. -/
inductive FractionPart : List Char → Prop
  | none : FractionPart []
  | digits {places : List Char} : Digits places → FractionPart ('.' :: places)

/-- An exponent, if there is one. -/
inductive ExponentPart : List Char → Prop
  | none : ExponentPart []
  | digits {mark : Char} {sign places : List Char} : mark ∈ ['e', 'E'] →
      sign ∈ [[], ['+'], ['-']] → Digits places → ExponentPart (mark :: (sign ++ places))

/-- A number as JSON writes it. -/
inductive NumberText : List Char → Prop
  | parts {sign whole fraction exponent : List Char} : sign ∈ [[], ['-']] → WholePart whole →
      FractionPart fraction → ExponentPart exponent →
      NumberText (sign ++ (whole ++ (fraction ++ exponent)))

/-- The characters of numbers. -/
def NumberChar (c : Char) : Prop := c.isDigit = true ∨ c ∈ ['-', '+', '.', 'e', 'E']

theorem Digits.numberChar {text : List Char} (h : Digits text) : ∀ c ∈ text, NumberChar c :=
  fun c hmem => .inl (h.2 c hmem)

theorem digits_zero : Digits ['0'] :=
  ⟨List.cons_ne_nil _ _, List.forall_mem_singleton.mpr (by decide)⟩

theorem WholePart.digits {text : List Char} (h : WholePart text) : Digits text := by
  cases h with
  | zero => exact digits_zero
  | significant hdigits => exact hdigits.1

theorem NumberText.numberChar {text : List Char} (h : NumberText text) :
    ∀ c ∈ text, NumberChar c := by
  have hmarks : ∀ mark ∈ ['e', 'E'], mark ∈ ['-', '+', '.', 'e', 'E'] := by simp
  have hsigns : ∀ sign ∈ [[], ['+'], ['-']], ∀ c ∈ sign, c ∈ ['-', '+', '.', 'e', 'E'] := by simp
  have hminus : ∀ sign ∈ [[], ['-']], ∀ c ∈ sign, c ∈ ['-', '+', '.', 'e', 'E'] := by simp
  obtain ⟨hsign, hwhole, hfraction, hexponent⟩ := h
  refine List.forall_mem_append.mpr ⟨fun c hmem => .inr (hminus _ hsign c hmem),
    List.forall_mem_append.mpr ⟨hwhole.digits.numberChar, List.forall_mem_append.mpr ⟨?_, ?_⟩⟩⟩
  · cases hfraction with
    | none => exact List.forall_mem_nil _
    | digits hplaces => exact List.forall_mem_cons.mpr ⟨.inr (by decide), hplaces.numberChar⟩
  · cases hexponent with
    | none => exact List.forall_mem_nil _
    | digits hmark hsign hplaces =>
        exact List.forall_mem_cons.mpr ⟨.inr (hmarks _ hmark), List.forall_mem_append.mpr
          ⟨fun c hmem => .inr (hsigns _ hsign c hmem), hplaces.numberChar⟩⟩

/-! ## Digits -/

theorem digits_append {text later : List Char} (h : Digits text)
    (hlater : ∀ c ∈ later, c.isDigit = true) : Digits (text ++ later) :=
  ⟨List.append_ne_nil_of_left_ne_nil h.1 _, List.forall_mem_append.mpr ⟨h.2, hlater⟩⟩

theorem significant_append {text later : List Char} (h : Significant text)
    (hlater : ∀ c ∈ later, c.isDigit = true) : Significant (text ++ later) := by
  refine ⟨digits_append h.1 hlater, ?_⟩
  obtain ⟨digit, rest, rfl⟩ := List.exists_cons_of_ne_nil h.1.1
  exact h.2

theorem digits_take {text : List Char} (h : Digits text) {count : Nat} (hpos : 0 < count) :
    Digits (text.take count) := by
  refine ⟨?_, fun c hmem => h.2 c (List.mem_of_mem_take hmem)⟩
  have := List.length_pos_iff.mpr h.1
  rw [← List.length_pos_iff, List.length_take]
  omega

theorem wholePart_take {text : List Char} (h : WholePart text) {count : Nat} (hpos : 0 < count) :
    WholePart (text.take count) := by
  cases h with
  | zero =>
      rw [List.take_of_length_le hpos]
      exact .zero
  | significant h =>
      refine .significant ⟨digits_take h.1 hpos, ?_⟩
      rw [List.head?_take, if_neg (by omega)]
      exact h.2

theorem digits_drop {text : List Char} (h : Digits text) {count : Nat}
    (hlt : count < text.length) : Digits (text.drop count) := by
  refine ⟨?_, fun c hmem => h.2 c (List.mem_of_mem_drop hmem)⟩
  rw [← List.length_pos_iff, List.length_drop]
  omega

theorem isDigit_of_mem_replicate {count : Nat} :
    ∀ c ∈ List.replicate count '0', c.isDigit = true := by
  intro c hmem
  rw [List.eq_of_mem_replicate hmem]
  rfl

theorem digits_toDigits (n : Nat) : Digits (Nat.toDigits 10 n) :=
  ⟨Nat.toDigits_ne_nil, fun _ hmem => Nat.isDigit_of_mem_toDigits (by decide) (Nat.le_refl 10) hmem⟩

theorem significant_toDigits {n : Nat} (hpos : 0 < n) : Significant (Nat.toDigits 10 n) := by
  induction n using Nat.strongRecOn with
  | ind n ih =>
      have hdigit : ∀ digit < 10, 0 < digit → digit.digitChar ≠ '0' := by decide
      have hdigits : ∀ digit < 10, digit.digitChar.isDigit = true := by decide
      by_cases hlt : n < 10
      · refine ⟨digits_toDigits n, ?_⟩
        rw [Nat.toDigits_of_lt_base hlt]
        exact fun h => hdigit n hlt hpos (Option.some.inj h)
      · have hlast : (n % 10).digitChar.isDigit = true :=
          hdigits (n % 10) (Nat.mod_lt n (by decide))
        rw [Nat.toDigits_of_base_le (by decide) (by omega)]
        exact significant_append (ih (n / 10) (by omega) (by omega))
          (List.forall_mem_singleton.mpr hlast)

theorem wholePart_toDigits (n : Nat) : WholePart (Nat.toDigits 10 n) := by
  obtain rfl | hpos := Nat.eq_zero_or_pos n
  · exact .zero
  · exact .significant (significant_toDigits hpos)

/-- An integer is written as a number. -/
theorem numberText_integerText (n : Int) : NumberText (integerText n) := by
  have hparts (sign : List Char) (hsign : sign ∈ [[], ['-']]) :
      NumberText (sign ++ Nat.toDigits 10 n.natAbs) := by
    simpa using NumberText.parts hsign (wholePart_toDigits n.natAbs) .none .none
  unfold integerText
  dsimp only
  split
  · exact hparts ['-'] (by decide)
  · exact hparts [] (by decide)

/-! ## Decimals -/

namespace Decimal

/-- The digits of a decimal begin with no zero, or they are one zero in the first place
before the point. -/
inductive Proper : Decimal → Prop
  | zero : Proper ⟨['0'], 1⟩
  | significant {d : Decimal} : Significant d.digits → Proper d

theorem Proper.wholePart {d : Decimal} (h : Proper d) : WholePart d.digits := by
  cases h with
  | zero => exact .zero
  | significant h => exact .significant h

theorem proper_ofScaled {significand : Nat} (hpos : 0 < significand) (exponent : Int) :
    Proper (ofScaled significand exponent) := by
  obtain ⟨⟨hne, hdigits⟩, hhead⟩ := significant_toDigits hpos
  obtain ⟨digit, rest, hcons⟩ := List.exists_cons_of_ne_nil hne
  have hdigit : digit ≠ '0' := by
    intro hzero
    rw [hcons, hzero] at hhead
    exact hhead rfl
  -- The first digit stops the removal of closing zeros.
  have hkept : ∃ kept, (ofScaled significand exponent).digits = digit :: kept ∧
      ∀ c ∈ kept, c ∈ rest := by
    refine ⟨(rest.reverse.dropWhile (· = '0')).reverse, ?_, fun c hmem => ?_⟩
    · simp only [ofScaled, hcons, List.reverse_cons, List.dropWhile_append]
      split
      next hempty =>
        simp [List.isEmpty_iff.mp hempty, hdigit]
      next => simp
    · exact List.mem_reverse.mp (List.dropWhile_subset _ (List.mem_reverse.mp hmem))
  obtain ⟨kept, hkept, hsubset⟩ := hkept
  rw [hcons] at hdigits
  refine .significant ⟨⟨?_, ?_⟩, ?_⟩
  · rw [hkept]
    exact List.cons_ne_nil _ _
  · rw [hkept]
    exact List.forall_mem_cons.mpr ⟨hdigits digit List.mem_cons_self,
      fun c hmem => hdigits c (List.mem_cons_of_mem _ (hsubset c hmem))⟩
  · rw [hkept]
    exact fun h => hdigit (Option.some.inj h)

end Decimal

namespace Binary64

/-! ## The shortest decimal -/

theorem decode_significand_pos {magnitude : Nat} (hpos : 0 < magnitude) :
    0 < (decode magnitude).1 := by
  unfold decode
  dsimp only
  split
  next hzero =>
    rw [Nat.mod_eq_of_lt (Nat.div_eq_zero_iff.mp hzero |>.resolve_left (by decide))]
    exact hpos
  next => exact Nat.add_pos_right _ (by decide)

theorem shiftRatio_pos (exponent : Int) : 0 < (shiftRatio 1 1 exponent).1 := by
  unfold shiftRatio
  split
  · exact Nat.mul_pos (by decide) (Nat.pow_pos (by decide))
  · exact Nat.one_pos

theorem interval_low_pos {magnitude : Nat} (hpos : 0 < magnitude) :
    0 < (interval magnitude).low := by
  have hsignificand := decode_significand_pos hpos
  have hscale := shiftRatio_pos (2 - (decode magnitude).2)
  unfold interval
  dsimp only
  split
  · exact Nat.mul_pos (by omega) hscale
  · exact Nat.mul_pos (by omega) hscale

/-- A ratio that rounds to a positive value is positive. -/
theorem pos_of_holds {range : Interval} {a b : Nat} (hlow : 0 < range.low) (hb : 0 < b)
    (h : range.holds a b = true) : 0 < a := by
  obtain rfl | hpos := Nat.eq_zero_or_pos a
  · have hlow := Nat.mul_pos hlow hb
    simp only [Interval.holds, Nat.zero_mul] at h
    split at h
    · simp only [Bool.and_eq_true, decide_eq_true_eq] at h
      omega
    · simp only [Bool.and_eq_true, decide_eq_true_eq] at h
      omega
  · exact hpos

theorem proper_of_decimal? {range : Interval} (hlow : 0 < range.low) {leading : Int} {count : Nat}
    {d : Decimal} (h : range.decimal? leading count = some d) : d.Proper := by
  have hchoice {p : Prop} [Decidable p] {first second : Nat} (hfirst : 0 < first)
      (hsecond : 0 < second) : 0 < if p then first else second := by
    split
    · exact hfirst
    · exact hsecond
  have hup (exponent : Int) : 0 < if exponent < 0 then Nat.pow 10 exponent.natAbs else 1 :=
    hchoice (Nat.pow_pos (by decide)) Nat.one_pos
  simp only [Interval.decimal?] at h
  split at h
  next hbelow _ =>
    have hpos := Nat.pos_of_mul_pos_right (pos_of_holds hlow (hup _) hbelow)
    obtain rfl := Option.some.inj h
    exact Decimal.proper_ofScaled (hchoice hpos (Nat.succ_pos _)) _
  next hbelow _ =>
    have hpos := Nat.pos_of_mul_pos_right (pos_of_holds hlow (hup _) hbelow)
    obtain rfl := Option.some.inj h
    exact Decimal.proper_ofScaled hpos _
  next =>
    obtain rfl := Option.some.inj h
    exact Decimal.proper_ofScaled (Nat.succ_pos _) _
  next => cases h

theorem proper_shortestDecimal {magnitude : Nat} (hpos : 0 < magnitude) :
    (shortestDecimal magnitude).Proper := by
  unfold shortestDecimal
  dsimp only
  cases hfound : (List.range 17).findSome? fun n =>
      (interval magnitude).decimal? (leadingExponent (interval magnitude).value
        (interval magnitude).denominator) (n + 1) with
  | none => exact .zero
  | some d =>
      obtain ⟨n, _, hdecimal⟩ := List.exists_of_findSome?_eq_some hfound
      exact proper_of_decimal? (interval_low_pos hpos) hdecimal

/-! ## Its text -/

theorem exponentPart_signed (exponent : Int) : ExponentPart ('e' :: signedExponent exponent) := by
  have hdigits := digits_toDigits exponent.natAbs
  have hparts {sign : Char} (hsign : [sign] ∈ [[], ['+'], ['-']]) {places : List Char}
      (hplaces : Digits places) : ExponentPart ('e' :: (sign :: places)) :=
    .digits (by decide) hsign hplaces
  have hplaces : Digits (if (Nat.toDigits 10 exponent.natAbs).length < 2
      then '0' :: Nat.toDigits 10 exponent.natAbs else Nat.toDigits 10 exponent.natAbs) := by
    split
    · exact ⟨List.cons_ne_nil _ _, List.forall_mem_cons.mpr ⟨rfl, hdigits.2⟩⟩
    · exact hdigits
  unfold signedExponent
  dsimp only
  split
  · exact hparts (by decide) hplaces
  · exact hparts (by decide) hplaces

/-- A decimal is written as a number without a sign. -/
theorem exists_parts_signed {d : Decimal} (h : d.Proper) :
    ∃ whole fraction exponent, DecimalStyle.signed.text d = whole ++ (fraction ++ exponent) ∧
      WholePart whole ∧ FractionPart fraction ∧ ExponentPart exponent := by
  have hwhole := h.wholePart
  have hdigits := hwhole.digits
  unfold DecimalStyle.text
  dsimp only
  split_ifs with hnear hbefore hcount hempty
  · exact ⟨['0'], '.' :: (List.replicate d.point.natAbs '0' ++ d.digits), [], by simp, .zero,
      .digits ⟨List.append_ne_nil_of_right_ne_nil _ hdigits.1,
        List.forall_mem_append.mpr ⟨isDigit_of_mem_replicate, hdigits.2⟩⟩, .none⟩
  · refine ⟨d.digits ++ List.replicate (d.point.natAbs - d.digits.length) '0', ['.', '0'], [],
      by simp, ?_, .digits digits_zero, .none⟩
    cases h with
    | zero => exact .zero
    | significant h => exact .significant (significant_append h isDigit_of_mem_replicate)
  · exact ⟨d.digits.take d.point.natAbs, '.' :: d.digits.drop d.point.natAbs, [], by simp,
      wholePart_take hwhole (by omega), .digits (digits_drop hdigits (by omega)), .none⟩
  · exact ⟨d.digits.take 1, [], 'e' :: signedExponent (d.point - 1),
      by simp [DecimalStyle.signed], wholePart_take hwhole Nat.one_pos, .none,
      exponentPart_signed _⟩
  · have hlength : 1 < d.digits.length := by
      rw [List.isEmpty_iff, List.drop_eq_nil_iff] at hempty
      omega
    exact ⟨d.digits.take 1, '.' :: d.digits.drop 1, 'e' :: signedExponent (d.point - 1),
      by simp [DecimalStyle.signed], wholePart_take hwhole Nat.one_pos,
      .digits (digits_drop hdigits hlength), exponentPart_signed _⟩

/-- A finite double is written as a number. -/
theorem numberText_finiteText (x : Binary64) : NumberText (x.finiteText .signed) := by
  have hparts : ∃ whole fraction exponent,
      (if x.isZero then ['0', '.', '0']
        else DecimalStyle.signed.text (shortestDecimal x.magnitude)) = whole ++ (fraction ++ exponent) ∧
      WholePart whole ∧ FractionPart fraction ∧ ExponentPart exponent := by
    split
    next => exact ⟨['0'], ['.', '0'], [], rfl, .zero, .digits digits_zero, .none⟩
    next hzero =>
      have hpos : 0 < x.magnitude := by
        simp only [isZero, decide_eq_true_eq] at hzero
        omega
      exact exists_parts_signed (proper_shortestDecimal hpos)
  obtain ⟨whole, fraction, exponent, htext, hwhole, hfraction, hexponent⟩ := hparts
  unfold finiteText
  dsimp only
  rw [htext]
  split
  · exact @NumberText.parts ['-'] _ _ _ (by decide) hwhole hfraction hexponent
  · exact @NumberText.parts [] _ _ _ (by decide) hwhole hfraction hexponent

end Binary64

end RequestShapes
