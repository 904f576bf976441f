import Mathlib.Data.List.Nodup
import Mathlib.Data.List.Perm.Subperm
import RequestShapes.Schema.FreshName

/-!
# Numbered names are fresh

Different attempts at a name differ, so among one attempt more than there are
taken names one is free.
-/

namespace RequestShapes.Schema

theorem toString_nat_injective {m n : Nat} (h : toString m = toString n) : m = n := by
  have hdigits : Nat.toDigits 10 m = Nat.toDigits 10 n := by
    rw [← Nat.toList_repr, ← Nat.toList_repr]
    exact congrArg String.toList h
  rw [← Nat.ofDigitChars_ten_toDigits (n := m), hdigits, Nat.ofDigitChars_ten_toDigits]

theorem numbered_injective {name : String} {first second : Nat} (hfirst : 1 ≤ first)
    (hsecond : 1 ≤ second) (h : numbered name first = numbered name second) :
    first = second := by
  have hlonger (attempt : Nat) : name ≠ name ++ toString attempt := fun heq => by
    have hlength := congrArg String.length heq
    have hpos : 0 < (toString attempt).length := Nat.length_repr_pos
    rw [String.length_append] at hlength
    omega
  unfold numbered at h
  split at h <;> split at h
  · omega
  · exact absurd h (hlonger second)
  · exact absurd h.symm (hlonger first)
  · exact toString_nat_injective (String.append_right_inj name |>.mp h)

/-- What is answered is one of the attempts, and all before it were refused. -/
theorem firstNumbered_eq (accepts : String → Bool) (name : String) (fuel attempt : Nat) :
    ∃ final, attempt ≤ final ∧ final ≤ attempt + fuel ∧
      firstNumbered accepts name fuel attempt = numbered name final ∧
      (final < attempt + fuel → accepts (numbered name final) = true) ∧
      ∀ earlier, attempt ≤ earlier → earlier < final →
        accepts (numbered name earlier) = false := by
  induction fuel generalizing attempt with
  | zero => exact ⟨attempt, Nat.le_refl _, Nat.le_refl _, rfl, by omega, by omega⟩
  | succ fuel ih =>
      simp only [firstNumbered]
      by_cases haccepts : accepts (numbered name attempt) = true
      · rw [if_pos haccepts]
        exact ⟨attempt, Nat.le_refl _, by omega, rfl, fun _ => haccepts, by omega⟩
      · rw [if_neg haccepts]
        obtain ⟨final, hlower, hupper, heq, hfinal, hearlier⟩ := ih (attempt + 1)
        refine ⟨final, by omega, by omega, heq, fun hlt => hfinal (by omega), ?_⟩
        intro earlier hge hlt
        rcases Nat.eq_or_lt_of_le hge with rfl | hgt
        · exact Bool.not_eq_true _ ▸ haccepts
        · exact hearlier earlier hgt hlt

/-- If every refused name is taken, as many attempts as there are taken names
lead to an accepted one. -/
theorem firstNumbered_accepted {accepts : String → Bool} {taken : List String}
    (hrefused : ∀ candidate, accepts candidate = false → candidate ∈ taken) (name : String) :
    accepts (firstNumbered accepts name taken.length 1) = true := by
  obtain ⟨final, hlower, hupper, heq, hfinal, hearlier⟩ :=
    firstNumbered_eq accepts name taken.length 1
  rw [heq]
  by_contra hnot
  have hlast : final = taken.length + 1 := by
    by_contra hne
    exact hnot (hfinal (by omega))
  have hall : ∀ attempt, 1 ≤ attempt → attempt ≤ taken.length + 1 →
      numbered name attempt ∈ taken := by
    intro attempt hge hle
    apply hrefused
    rcases Nat.lt_or_ge attempt final with hlt | hge'
    · exact hearlier attempt hge hlt
    · obtain rfl : attempt = final := by omega
      exact Bool.not_eq_true _ ▸ hnot
  have hnodup : ((List.range' 1 (taken.length + 1)).map (numbered name)).Nodup := by
    apply List.Nodup.map_on _ List.nodup_range'
    intro first hfirst second hsecond
    rw [List.mem_range'_1] at hfirst hsecond
    exact numbered_injective hfirst.1 hsecond.1
  have hsubset : (List.range' 1 (taken.length + 1)).map (numbered name) ⊆ taken := by
    intro candidate hmem
    obtain ⟨attempt, hattempt, rfl⟩ := List.mem_map.mp hmem
    rw [List.mem_range'_1] at hattempt
    exact hall attempt hattempt.1 (by omega)
  have hlength := (List.subperm_of_subset hnodup hsubset).length_le
  rw [List.length_map, List.length_range'] at hlength
  omega

/-- A fresh name is not taken. -/
theorem freshName_not_mem (taken : List String) (name : String) :
    freshName taken name ∉ taken := by
  have hrefused : ∀ candidate, (!taken.contains candidate) = false → candidate ∈ taken := by simp
  have haccepted := firstNumbered_accepted hrefused name
  simpa [freshName] using haccepted

/-- A fresh name is the name that was asked for, perhaps with a number. -/
theorem freshName_eq_numbered (taken : List String) (name : String) :
    ∃ attempt, 1 ≤ attempt ∧ freshName taken name = numbered name attempt := by
  obtain ⟨final, hlower, _, heq, _⟩ :=
    firstNumbered_eq (fun candidate => !taken.contains candidate) name taken.length 1
  exact ⟨final, hlower, heq⟩

/-- A name that is free is taken as it is. -/
theorem freshName_of_not_mem {taken : List String} {name : String} (h : name ∉ taken) :
    freshName taken name = name := by
  have haccepts : (!taken.contains (numbered name 1)) = true := by simpa [numbered] using h
  unfold freshName
  cases taken with
  | nil => rfl
  | cons first rest =>
      rw [List.length_cons, firstNumbered, if_pos haccepts]
      rfl

end RequestShapes.Schema
