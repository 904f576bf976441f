import RequestShapes.Proofs.Request.Isolation

/-!
# The division of a text into blocks

A text falls into blocks of a name in one way. Each block is the first whose
header begins behind the previous block, its body balances, and what is left at
the end has no header or one whose brace is never closed. All three ways to read
blocks follow this division.
-/

namespace RequestShapes.Request

section Headers

variable {name front text : List Char}

/-- A header of a name begins a text that stands behind a front. -/
def Opens (name front text : List Char) : Prop :=
  mayPrecede front.getLast? = true ∧ ∃ header, IsHeader name header ∧ header <+: text

/-- No header of a name begins in a piece that stands behind a front and has a
rest behind it. -/
def Skips (name front piece rest : List Char) : Prop :=
  ∀ left right, left ++ right = piece → right ≠ [] → ¬ Opens name (front ++ left) (right ++ rest)

/-- The brace in front of a text is never closed. -/
def NeverCloses (text : List Char) : Prop :=
  ∀ body rest, body ++ '}' :: rest = text → ¬ Balanced body

theorem header?_eq_none_iff :
    header? name text = none ↔ ¬ ∃ header, IsHeader name header ∧ header <+: text := by
  constructor
  · rintro hnone ⟨header, hheader, rest, rfl⟩
    rw [header?_append_self hheader] at hnone
    cases hnone
  · intro habsent
    rw [Option.eq_none_iff_forall_ne_some]
    rintro ⟨header, inside⟩ hheader
    exact habsent ⟨header, isHeader_of_header? hheader, inside, header?_append hheader⟩

theorem skips_nil (rest : List Char) : Skips name front [] rest := by
  intro left right heq hright
  exact absurd (List.append_eq_nil_iff.mp heq).2 hright

theorem skips_cons {c : Char} {piece rest : List Char} :
    Skips name front (c :: piece) rest ↔
      ¬ Opens name front (c :: (piece ++ rest)) ∧ Skips name (front ++ [c]) piece rest := by
  constructor
  · intro h
    refine ⟨by simpa using h [] (c :: piece) rfl (by simp), fun left right heq hright => ?_⟩
    simpa using h (c :: left) right (by simp [heq]) hright
  · rintro ⟨hhere, hlater⟩ left right heq hright
    cases left with
    | nil =>
        obtain rfl : right = c :: piece := heq
        simpa using hhere
    | cons d left =>
        obtain ⟨rfl, hpiece⟩ := List.cons.inj heq
        simpa using hlater left right hpiece hright

/-- A text has a first header, or none. -/
theorem exists_first_header (name front text : List Char) :
    Skips name front text [] ∨ ∃ gap header inside, text = gap ++ (header ++ inside) ∧
      Skips name front gap (header ++ inside) ∧ IsHeader name header ∧
      mayPrecede (front ++ gap).getLast? = true := by
  induction text generalizing front with
  | nil => exact .inl (skips_nil [])
  | cons c text ih =>
      by_cases hopens : Opens name front (c :: text)
      · obtain ⟨hedge, header, hheader, inside, htext⟩ := hopens
        exact .inr ⟨[], header, inside, htext.symm, skips_nil _, hheader, by simpa using hedge⟩
      · rcases ih (front ++ [c]) with hnone | ⟨gap, header, inside, rfl, hskips, hheader, hedge⟩
        · exact .inl (skips_cons.mpr ⟨by simpa using hopens, hnone⟩)
        · exact .inr ⟨c :: gap, header, inside, rfl, skips_cons.mpr ⟨hopens, hskips⟩, hheader,
            by simpa using hedge⟩

end Headers

/-! ## Closing a brace -/

/-- Up to the closing brace a text closes what it opens and as many braces more
as are open. -/
theorem counts_of_close? {depth : Nat} {text body rest : List Char}
    (h : close? depth text = some (body, rest)) :
    (∀ front, front <+: body → front.count '}' ≤ depth + front.count '{') ∧
      body.count '}' = depth + body.count '{' := by
  -- One more character moves the depth and both counts together, so the statement on
  -- fronts only shifts. The three kinds of character differ in this step alone.
  have hcons {c : Char} {depth depth' : Nat} {inner : List Char}
      (hstep : ∀ part : List Char, (c :: part).count '}' + depth' + part.count '{' =
        part.count '}' + depth + (c :: part).count '{')
      (hinner : (∀ front, front <+: inner → front.count '}' ≤ depth' + front.count '{') ∧
        inner.count '}' = depth' + inner.count '{') :
      (∀ front, front <+: c :: inner → front.count '}' ≤ depth + front.count '{') ∧
        (c :: inner).count '}' = depth + (c :: inner).count '{' := by
    refine ⟨fun front hfront => ?_, by have := hstep inner; omega⟩
    cases front with
    | nil => simp
    | cons d front =>
        obtain ⟨rfl, hrest⟩ := List.cons_prefix_cons.mp hfront
        have := hstep front
        have := hinner.1 front hrest
        omega
  fun_induction close? depth text generalizing body rest with
  | case1 => cases h
  | case2 depth text ih =>
      simp only [Option.map_eq_some_iff, Prod.mk.injEq, Prod.exists] at h
      obtain ⟨inner, later, hinner, rfl, rfl⟩ := h
      exact hcons (fun part => by simp; omega) (ih hinner)
  | case3 text =>
      cases h
      simp
  | case4 depth text ih =>
      simp only [Option.map_eq_some_iff, Prod.mk.injEq, Prod.exists] at h
      obtain ⟨inner, later, hinner, rfl, rfl⟩ := h
      exact hcons (fun part => by simp; omega) (ih hinner)
  | case5 depth c text hopen hclose hlast ih =>
      simp only [Option.map_eq_some_iff, Prod.mk.injEq, Prod.exists] at h
      obtain ⟨inner, later, hinner, rfl, rfl⟩ := h
      have hne : c ≠ '}' := by
        rintro rfl
        cases depth with
        | zero => exact hclose rfl rfl
        | succ depth => exact hlast depth rfl rfl
      have hne' : c ≠ '{' := fun heq => hopen heq
      exact hcons (fun part => by simp [hne, hne', Nat.add_comm]) (ih hinner)

theorem close?_eq_some_iff {text body rest : List Char} :
    close? 0 text = some (body, rest) ↔ body ++ '}' :: rest = text ∧ Balanced body := by
  constructor
  · intro h
    obtain ⟨hopened, hsettled⟩ := counts_of_close? h
    exact ⟨close?_append h, by simpa using hopened, by simpa using hsettled⟩
  · rintro ⟨rfl, hbody⟩
    exact hbody.close?_eq rest

theorem close?_eq_none_iff {text : List Char} : close? 0 text = none ↔ NeverCloses text := by
  rw [Option.eq_none_iff_forall_ne_some]
  constructor
  · intro h body rest heq hbody
    exact h (body, rest) (close?_eq_some_iff.mpr ⟨heq, hbody⟩)
  · rintro h ⟨body, rest⟩ hclose
    obtain ⟨heq, hbody⟩ := close?_eq_some_iff.mp hclose
    exact h body rest heq hbody

/-! ## Divisions -/

/-- A text behind a front is divided into the blocks of a name and what is left
at the end. -/
inductive Divides (name : List Char) :
    List Char → List Char → List Block → List Char → Prop
  | done {front text : List Char} : Skips name front text [] → Divides name front text [] text
  | unclosed {front gap header inside : List Char} :
      Skips name front gap (header ++ inside) → IsHeader name header →
      mayPrecede (front ++ gap).getLast? = true → NeverCloses inside →
      Divides name front (gap ++ (header ++ inside)) [] (gap ++ (header ++ inside))
  | block {front gap header body rest last : List Char} {blocks : List Block} :
      Skips name front gap (header ++ (body ++ '}' :: rest)) → IsHeader name header →
      mayPrecede (front ++ gap).getLast? = true → Balanced body →
      Divides name (front ++ (gap ++ (header ++ (body ++ ['}'])))) rest blocks last →
      Divides name front (gap ++ (header ++ (body ++ '}' :: rest))) (⟨gap, header, body⟩ :: blocks)
        last

section Search

variable {name front gap header : List Char}

/-- The search passes over what it skips. -/
theorem firstBlock?_of_skips {rest : List Char} (h : Skips name front gap rest) :
    firstBlock? name front.getLast? (gap ++ rest) =
      (firstBlock? name (front ++ gap).getLast? rest).map fun found =>
        ({ found.1 with before := gap ++ found.1.before }, found.2) := by
  induction gap generalizing front with
  | nil => simp
  | cons c gap ih =>
      obtain ⟨hhere, hlater⟩ := skips_cons.mp h
      have hnone : (if mayPrecede front.getLast? = true then header? name (c :: (gap ++ rest))
          else none) = none := by
        split
        next hedge => exact header?_eq_none_iff.mpr fun hheader => hhere ⟨hedge, hheader⟩
        next => rfl
      have hlast : (front ++ [c]).getLast? = some c := List.getLast?_concat
      rw [List.cons_append, firstBlock?, hnone, ← hlast, ih hlater]
      simp [Function.comp_def]

/-- At a header the search takes the body, if its brace is closed. -/
theorem firstBlock?_of_header {previous : Option Char} (hheader : IsHeader name header)
    (hedge : mayPrecede previous = true) (inside : List Char) :
    firstBlock? name previous (header ++ inside) =
      (close? 0 inside).map fun found => (⟨[], header, found.1⟩, found.2) := by
  have hfound := header?_append_self hheader inside
  -- The search looks at a first character, so the header is taken apart.
  obtain ⟨c, tail, rfl⟩ : ∃ c tail, header = c :: tail := by
    obtain ⟨gap, colon, tail, rfl, -⟩ := hheader
    exact List.exists_cons_of_ne_nil (by simp)
  rw [List.cons_append] at hfound ⊢
  rw [firstBlock?, if_pos hedge, hfound]

theorem firstBlock?_of_first_header {inside : List Char}
    (hskips : Skips name front gap (header ++ inside)) (hheader : IsHeader name header)
    (hedge : mayPrecede (front ++ gap).getLast? = true) :
    firstBlock? name front.getLast? (gap ++ (header ++ inside)) =
      (close? 0 inside).map fun found => (⟨gap, header, found.1⟩, found.2) := by
  rw [firstBlock?_of_skips hskips, firstBlock?_of_header hheader hedge]
  simp [Function.comp_def]

/-- The scan for blocks follows a division. -/
theorem Divides.blocksFrom_eq {text last : List Char} {blocks : List Block}
    (h : Divides name front text blocks last) :
    blocksFrom name front.getLast? text = (blocks, last) := by
  induction h with
  | @done front text hskips =>
      apply blocksFrom_of_none
      simpa [firstBlock?] using firstBlock?_of_skips hskips
  | unclosed hskips hheader hedge hopen =>
      apply blocksFrom_of_none
      rw [firstBlock?_of_first_header hskips hheader hedge, close?_eq_none_iff.mpr hopen]
      rfl
  | @block front gap header body rest last blocks hskips hheader hedge hbody _ ih =>
      have hfirst := firstBlock?_of_first_header hskips hheader hedge
      rw [hbody.close?_eq, Option.map_some] at hfirst
      have hlast : (front ++ (gap ++ (header ++ (body ++ ['}'])))).getLast? = some '}' := by
        simp only [← List.append_assoc, List.getLast?_concat]
      rw [blocksFrom_of_some hfirst, ← hlast, ih]

/-- Every text has a division. -/
theorem exists_divides (name front text : List Char) :
    ∃ blocks last, Divides name front text blocks last := by
  induction hlength : text.length using Nat.strong_induction_on generalizing front text with
  | _ length ih =>
      rcases exists_first_header name front text with
        hnone | ⟨gap, header, inside, rfl, hskips, hheader, hedge⟩
      · exact ⟨[], text, .done hnone⟩
      · cases hclose : close? 0 inside with
        | none => exact ⟨[], _, .unclosed hskips hheader hedge (close?_eq_none_iff.mp hclose)⟩
        | some found =>
            obtain ⟨body, rest⟩ := found
            obtain ⟨rfl, hbody⟩ := close?_eq_some_iff.mp hclose
            have hshorter : rest.length < length := by
              rw [← hlength]
              simp only [List.length_append, List.length_cons]
              omega
            obtain ⟨blocks, last, hrest⟩ := ih rest.length hshorter
              (front ++ (gap ++ (header ++ (body ++ ['}'])))) rest rfl
            exact ⟨_, last, .block hskips hheader hedge hbody hrest⟩

/-- Nothing of a divided text is lost. -/
theorem Divides.text_eq {text last : List Char} {blocks : List Block}
    (h : Divides name front text blocks last) : blocks.flatMap Block.text ++ last = text := by
  induction h with
  | done => rfl
  | unclosed => rfl
  | block _ _ _ _ _ ih => simp [Block.text, ih]

end Search

/-- Every text falls in exactly one way into blocks of a name, each with what
stands before it, and what is left at the end. All bodies, the body of the first
block and the text without blocks are read from this division. -/
theorem exists_unique_division (name : String) (text : List Char) :
    ∃ blocks last, Divides name.toList [] text blocks last ∧
      (∀ others rest, Divides name.toList [] text others rest → others = blocks ∧ rest = last) ∧
      blocks.flatMap Block.text ++ last = text ∧
      bodies name text = blocks.map Block.body ∧
      withoutBlocks name text = blocks.flatMap Block.before ++ last ∧
      body? name text = blocks.head?.map Block.body := by
  obtain ⟨blocks, last, hdivides⟩ := exists_divides name.toList [] text
  have hblocks : blocksFrom name.toList none text = (blocks, last) := hdivides.blocksFrom_eq
  refine ⟨blocks, last, hdivides, fun others rest hothers => ?_, hdivides.text_eq, ?_, ?_, ?_⟩
  · have hsame : blocksFrom name.toList none text = (others, rest) := hothers.blocksFrom_eq
    rw [hblocks, Prod.mk.injEq] at hsame
    exact ⟨hsame.1.symm, hsame.2.symm⟩
  · rw [bodies, hblocks]
  · rw [withoutBlocks, hblocks]
  · rw [body?]
    cases hfirst : firstBlock? name.toList none text with
    | none =>
        rw [blocksFrom_of_none hfirst, Prod.mk.injEq] at hblocks
        rw [← hblocks.1]
        rfl
    | some found =>
        rw [blocksFrom_of_some hfirst, Prod.mk.injEq] at hblocks
        rw [← hblocks.1]
        rfl

end RequestShapes.Request
