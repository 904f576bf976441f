import RequestShapes.Endpoint.Module
import RequestShapes.Proofs.Request.Scanning

/-!
# Resolving markers line by line

A marker begins and ends on one line. So the lines of a text are rewritten one by one,
what has no marker in it stays as it is, and a module is rewritten segment by segment
if each of its segments is one line.
-/

namespace RequestShapes.Endpoint

open Request (Absent replaceAll_absent replaceAll_nil replaceAll_of_eq_some)
open Text

/-! ## One marker -/

section Marker

variable {text rest later : List Char}

theorem after?_append_newline {lead : List Char} (hlead : '\n' ∉ lead) (text rest : List Char) :
    after? lead (text ++ '\n' :: rest) = (after? lead text).map (· ++ '\n' :: rest) := by
  induction lead generalizing text with
  | nil => rfl
  | cons l lead ih =>
      rw [List.mem_cons, not_or] at hlead
      cases text with
      | nil => exact if_neg (Ne.symm hlead.1)
      | cons c text =>
          rw [List.cons_append, after?, after?]
          split
          · exact ih hlead.2 text
          · rfl

theorem afterQuote?_append_newline (text rest : List Char) :
    afterQuote? (text ++ '\n' :: rest) = (afterQuote? text).map (· ++ '\n' :: rest) := by
  rw [afterQuote?, afterQuote?, after?_append_newline (by decide),
    after?_append_newline (by decide)]
  cases after? ['"'] text <;> rfl

theorem markedName?_append_newline (text rest : List Char) :
    markedName? (text ++ '\n' :: rest) =
      (markedName? text).map fun (name, later) => (name, later ++ '\n' :: rest) := by
  induction text with
  | nil => rfl
  | cons c text ih =>
      rw [List.cons_append, markedName?, markedName?]
      split
      · rfl
      · rw [afterQuote?_append_newline, ih]
        cases afterQuote? text with
        | none => cases markedName? text <;> rfl
        | some closing =>
            simp only [Option.map_some, Option.bind_some,
              @after?_append_newline [')'] (by decide)]
            cases after? [')'] closing with
            | none => cases markedName? text <;> rfl
            | some later => rfl

/-- A marker does not go beyond the end of its line. -/
theorem lazyReference?_append_newline (text rest : List Char) :
    lazyReference? (text ++ '\n' :: rest) =
      (lazyReference? text).map fun (replacement, later) =>
        (replacement, later ++ '\n' :: rest) := by
  simp only [lazyReference?, Option.bind_eq_bind]
  rw [after?_append_newline (by decide)]
  cases after? "z.literal(".toList text with
  | none => rfl
  | some inner =>
      rw [Option.map_some, Option.bind_some, Option.bind_some, afterQuote?_append_newline]
      cases afterQuote? inner with
      | none => rfl
      | some inner =>
          rw [Option.map_some, Option.bind_some, Option.bind_some,
            after?_append_newline (by decide)]
          cases after? Schema.markerLead.toList inner with
          | none => rfl
          | some inner =>
              rw [Option.map_some, Option.bind_some, Option.bind_some, markedName?_append_newline]
              cases markedName? inner <;> rfl

theorem afterQuote?_eq_some (h : afterQuote? text = some rest) :
    ∃ quote ∈ ['"', '\''], text = quote :: rest := by
  rw [afterQuote?, Option.or_eq_some_iff] at h
  obtain h | ⟨_, h⟩ := h
  · exact ⟨'"', by decide, after?_eq_some h⟩
  · exact ⟨'\'', by decide, after?_eq_some h⟩

/-- The name of a marker stands on one line, before a quote and a parenthesis. -/
theorem markedName?_eq_some {name : List Char} (h : markedName? text = some (name, rest)) :
    name ≠ [] ∧ '\n' ∉ name ∧ ∃ quote ∈ ['"', '\''], text = name ++ quote :: ')' :: rest := by
  induction text generalizing name with
  | nil => cases h
  | cons c text ih =>
      rw [markedName?] at h
      split at h
      next => cases h
      next hne =>
        split at h
        next found hfound =>
          obtain ⟨rfl, rfl⟩ := Prod.mk.inj (Option.some.inj h)
          obtain ⟨closing, hquote, hclosing⟩ := Option.bind_eq_some_iff.mp hfound
          obtain ⟨quote, hmem, rfl⟩ := afterQuote?_eq_some hquote
          exact ⟨List.cons_ne_nil _ _, by simpa using Ne.symm hne,
            quote, hmem, by rw [after?_eq_some hclosing]; rfl⟩
        next =>
          obtain ⟨⟨name, later⟩, hlater, heq⟩ := Option.map_eq_some_iff.mp h
          obtain ⟨rfl, rfl⟩ := Prod.mk.inj heq
          obtain ⟨_, hname, quote, hmem, rfl⟩ := ih hlater
          exact ⟨List.cons_ne_nil _ _, by simpa using ⟨Ne.symm hne, hname⟩, quote, hmem, rfl⟩

/-- A marker is a literal in quotes of either kind. -/
theorem lazyReference?_eq_some {replacement : List Char}
    (h : lazyReference? text = some (replacement, rest)) :
    ∃ name, name ≠ [] ∧ '\n' ∉ name ∧ replacement = "z.lazy(() => ".toList ++ name ++ [')'] ∧
      ∃ first ∈ ['"', '\''], ∃ last ∈ ['"', '\''], text = "z.literal(".toList ++
        first :: (Schema.markerLead.toList ++ (name ++ last :: ')' :: rest)) := by
  simp only [lazyReference?, Option.bind_eq_bind, Option.bind_eq_some_iff] at h
  obtain ⟨opened, hopened, quoted, hquoted, led, hled, ⟨name, later⟩, hname, heq⟩ := h
  obtain ⟨rfl, rfl⟩ := Prod.mk.inj (Option.some.inj heq)
  obtain ⟨first, hfirst, rfl⟩ := afterQuote?_eq_some hquoted
  obtain ⟨hne, hline, last, hlast, rfl⟩ := markedName?_eq_some hname
  refine ⟨name, hne, hline, rfl, first, hfirst, last, hlast, ?_⟩
  rw [after?_eq_some hopened, after?_eq_some hled]

theorem length_lt_of_lazyReference? {replacement : List Char}
    (h : lazyReference? text = some (replacement, rest)) : rest.length < text.length := by
  obtain ⟨name, _, _, _, first, _, last, _, rfl⟩ := lazyReference?_eq_some h
  simp only [List.length_append, List.length_cons]
  omega

end Marker

/-! ## All markers of a text -/

/-- The text with every marker turned into a lazy reference. -/
def rewritten (text : List Char) : List Char := replaceAll lazyReference? text

theorem resolveMarkers_eq (text : String) :
    resolveMarkers text = String.ofList (rewritten text.toList) := rfl

section Text

variable {text rest : List Char}

theorem rewritten_nil : rewritten [] = [] :=
  replaceAll_nil lazyReference?

theorem rewritten_cons {c : Char} (h : lazyReference? (c :: text) = none) :
    rewritten (c :: text) = c :: rewritten text := by
  rw [rewritten, replaceAll, h]
  rfl

theorem rewritten_of_eq_some {replacement : List Char}
    (h : lazyReference? text = some (replacement, rest)) :
    rewritten text = replacement ++ rewritten rest :=
  replaceAll_of_eq_some h (length_lt_of_lazyReference? h)

/-- A text is empty, begins with a marker, or begins with a character that is none. -/
theorem rewriting_induction {motive : List Char → Prop} (nil : motive [])
    (marker : ∀ text replacement rest, lazyReference? text = some (replacement, rest) →
      motive rest → motive text)
    (other : ∀ c text, lazyReference? (c :: text) = none → motive text → motive (c :: text))
    (text : List Char) : motive text := by
  induction hlength : text.length using Nat.strongRecOn generalizing text with
  | ind length ih =>
      subst hlength
      cases hmarker : lazyReference? text with
      | some found =>
          exact marker text found.1 found.2 hmarker
            (ih _ (length_lt_of_lazyReference? hmarker) found.2 rfl)
      | none =>
          cases text with
          | nil => exact nil
          | cons c text => exact other c text hmarker (ih _ (Nat.lt_succ_self _) text rfl)

/-- What holds no marker stays as it is. -/
theorem rewritten_of_absent {piece : List Char} (h : Absent lazyReference? piece rest) :
    rewritten (piece ++ rest) = piece ++ rewritten rest :=
  replaceAll_absent h

theorem absent_lazyReference? {piece : List Char}
    (h : Absent (after? "z.literal(".toList) piece rest) : Absent lazyReference? piece rest :=
  h.mono fun text hnone => by
    simp only [lazyReference?, hnone]
    rfl

/-- A line is rewritten by itself. -/
theorem rewritten_append_newline (text rest : List Char) :
    rewritten (text ++ '\n' :: rest) = rewritten text ++ '\n' :: rewritten rest := by
  induction text using rewriting_induction with
  | nil =>
      rw [List.nil_append, rewritten_cons (lazyReference?_append_newline [] rest), rewritten_nil,
        List.nil_append]
  | marker text replacement later hmarker ih =>
      have hlocal := lazyReference?_append_newline text rest
      rw [hmarker, Option.map_some] at hlocal
      rw [rewritten_of_eq_some hlocal, rewritten_of_eq_some hmarker, ih, List.append_assoc]
  | other c text hmarker ih =>
      have hlocal := lazyReference?_append_newline (c :: text) rest
      rw [hmarker, Option.map_none, List.cons_append] at hlocal
      rw [List.cons_append, rewritten_cons hlocal, rewritten_cons hmarker, ih, List.cons_append]

theorem not_mem_newline_rewritten (h : '\n' ∉ text) : '\n' ∉ rewritten text := by
  induction text using rewriting_induction with
  | nil => rwa [rewritten_nil]
  | marker text replacement later hmarker ih =>
      obtain ⟨name, _, hname, rfl, first, _, last, _, rfl⟩ := lazyReference?_eq_some hmarker
      have hframe : '\n' ∉ "z.lazy(() => ".toList := by decide
      rw [rewritten_of_eq_some hmarker]
      simp only [List.mem_append, List.mem_cons, not_or] at h ⊢
      exact ⟨⟨⟨hframe, hname⟩, by decide⟩, ih h.2.2.2.2.2.2⟩
  | other c text hmarker ih =>
      rw [List.mem_cons, not_or] at h
      rw [rewritten_cons hmarker, List.mem_cons, not_or]
      exact ⟨h.1, ih h.2⟩

end Text

/-! ## Modules of lines -/

/-- Texts with an empty line between them. -/
def spaced (texts : List (List Char)) : List Char := ['\n', '\n'].intercalate texts

theorem rewritten_spaced (texts : List (List Char)) :
    rewritten (spaced texts) = spaced (texts.map rewritten) := by
  induction texts with
  | nil => exact rewritten_nil
  | cons text texts ih =>
      cases texts with
      | nil => rw [spaced, spaced, List.intercalate_singleton, List.map_singleton,
          List.intercalate_singleton]
      | cons next later =>
          have hblank := rewritten_append_newline [] (spaced (next :: later))
          rw [List.nil_append, rewritten_nil, List.nil_append, ih] at hblank
          rw [spaced, List.intercalate_cons_cons, List.append_assoc, List.cons_append,
            rewritten_append_newline, List.singleton_append]
          exact congrArg (rewritten text ++ '\n' :: ·) hblank |>.trans (by
            simp [spaced, List.intercalate_cons_cons])

theorem line_inj {line other rest later : List Char} (hline : '\n' ∉ line) (hother : '\n' ∉ other)
    (h : line ++ '\n' :: rest = other ++ '\n' :: later) : line = other ∧ rest = later := by
  induction line generalizing other with
  | nil =>
      cases other with
      | nil => exact ⟨rfl, (List.cons.inj h).2⟩
      | cons c other => exact absurd ((List.cons.inj h).1 ▸ List.mem_cons_self) hother
  | cons c line ih =>
      cases other with
      | nil => exact absurd ((List.cons.inj h).1 ▸ List.mem_cons_self) hline
      | cons d other =>
          obtain ⟨rfl, hrest⟩ := List.cons.inj h
          obtain ⟨rfl, hlater⟩ := ih (List.not_mem_of_not_mem_cons hline)
            (List.not_mem_of_not_mem_cons hother) hrest
          exact ⟨rfl, hlater⟩

/-- Lines with an empty line between them are told apart. -/
theorem spaced_inj {lines others : List (List Char)} (hlength : lines.length = others.length)
    (hlines : ∀ line ∈ lines, '\n' ∉ line) (hothers : ∀ line ∈ others, '\n' ∉ line)
    (h : spaced lines = spaced others) : lines = others := by
  induction lines generalizing others with
  | nil => exact (List.length_eq_zero_iff.mp hlength.symm).symm
  | cons line lines ih =>
      cases others with
      | nil => cases hlength
      | cons other others =>
          obtain ⟨hline, hlines⟩ := List.forall_mem_cons.mp hlines
          obtain ⟨hother, hothers⟩ := List.forall_mem_cons.mp hothers
          have hlater := Nat.succ.inj hlength
          cases lines with
          | nil =>
              obtain rfl := List.length_eq_zero_iff.mp hlater.symm
              rwa [spaced, spaced, List.intercalate_singleton, List.intercalate_singleton,
                ← List.singleton_inj] at h
          | cons next lines =>
              cases others with
              | nil => cases hlater
              | cons next' others =>
                  rw [spaced, spaced, List.intercalate_cons_cons, List.intercalate_cons_cons,
                    List.append_assoc, List.append_assoc] at h
                  obtain ⟨heq, hrest⟩ := line_inj hline hother h
                  rw [heq, ih hlater hlines hothers (List.cons.inj hrest).2]

end RequestShapes.Endpoint
