import RequestShapes.Proofs.Endpoint.Naming
import RequestShapes.Proofs.Request.Blocks
import RequestShapes.Proofs.Request.Samples

/-!
# Which documents have a module

Every sample of a document that was read goes through inference, lifting and
rendering, whatever it holds. Only writing it out can fail, on an integer that
has too many digits for that. The reading of decimals refuses such an integer, so
it must have been written in hexadecimal, in a body.
-/

namespace RequestShapes.Endpoint

open Json.Relaxed (Unmarked)
open Request
open Schema (Distinct exists_bind_ok_iff)

/-! ## Components -/

/-- A sample that has a component can be written: it says nothing, or it was
written out. -/
theorem writable_of_component {name : String} {sample : Json} {reserved : List String}
    {component : Component}
    (h : Synthesizer.standard.component name sample reserved = .ok component) :
    sample.writable = true := by
  cases hblank : isBlankSample sample with
  | true =>
      unfold isBlankSample at hblank
      split at hblank
      · rfl
      · rfl
      · rfl
      · cases hblank
  | false => exact ((component_eq_ok hblank).mp h).1

section Components

variable {document : Document}

theorem exists_declareFrom_iff {named : List (String × Json)} {taken : List String}
    (hdistinct : ∀ entry ∈ named, Distinct entry.2) :
    (∃ components, declareFrom .standard taken named = .ok components) ↔
      ∀ entry ∈ named, entry.2.writable = true := by
  constructor
  · intro h
    induction named generalizing taken with
    | nil => exact List.forall_mem_nil _
    | cons entry rest ih =>
        obtain ⟨-, hrest⟩ := List.forall_mem_cons.mp hdistinct
        rw [declareFrom] at h
        obtain ⟨component, hcomponent, h⟩ := exists_bind_ok_iff.mp h
        obtain ⟨others, hothers, -⟩ := exists_bind_ok_iff.mp h
        exact List.forall_mem_cons.mpr
          ⟨writable_of_component hcomponent, ih hrest ⟨others, hothers⟩⟩
  · intro hwritable
    exact exists_declareFrom fun entry hentry => ⟨hdistinct entry hentry, hwritable entry hentry⟩

/-- What holds of null holds of all samples if it holds of the named ones. -/
theorem forall_namedSamples_iff (P : Json → Prop) (hnull : P .null) {base : String} :
    (∀ entry ∈ namedSamples base document, P entry.2) ↔ ∀ entry ∈ samples document, P entry.2 := by
  simp only [namedSamples, List.mem_filterMap]
  constructor
  · intro hall entry hentry
    by_cases heq : entry.2 = .null
    · rwa [heq]
    · exact hall (base ++ entry.1, entry.2) ⟨entry, hentry, by simp [heq]⟩
  · rintro hall named ⟨entry, hentry, hsome⟩
    split at hsome
    · cases hsome
    · cases hsome
      exact hall entry hentry

/-- What holds of all samples of a document. -/
theorem forall_samples_iff (P : Json → Prop) :
    (∀ entry ∈ samples document, P entry.2) ↔
      P document.body ∧ P (tableValue document.headers) ∧ P (tableValue document.query) ∧
        P (tableValue document.params) ∧
        ∀ response ∈ document.responses, P response.body ∧ P (tableValue response.headers) := by
  rw [samples, List.forall_mem_append]
  simp only [List.forall_mem_cons, List.mem_flatMap, and_assoc]
  refine and_congr_right fun _ => and_congr_right fun _ => and_congr_right fun _ =>
    and_congr_right fun _ => ⟨fun h response hresponse => ?_, fun h => ⟨List.forall_mem_nil _, ?_⟩⟩
  · exact ⟨h.2 _ ⟨response, hresponse, List.mem_cons_self⟩,
      h.2 _ ⟨response, hresponse, List.mem_cons_of_mem _ List.mem_cons_self⟩⟩
  · rintro entry ⟨response, hresponse, hentry⟩
    obtain rfl | rfl := List.mem_pair.mp hentry
    · exact (h response hresponse).1
    · exact (h response hresponse).2

/-- A document has a module, or documents nothing, if and only if each of its
samples can be written. -/
theorem exists_build_iff {settings : Settings}
    (hdistinct : ∀ entry ∈ samples document, Distinct entry.2) :
    (∃ built, Module.build settings document = .ok built) ↔
      ∀ entry ∈ samples document, entry.2.writable = true := by
  -- A document without components has no module, but that is a result, too.
  have hbuild : (∃ built, Module.build settings document = .ok built) ↔
      ∃ all, components .standard (baseName settings document) document = .ok all := by
    rw [Module.build, exists_bind_ok_iff]
    constructor
    · rintro ⟨all, hall, -⟩
      exact ⟨all, hall⟩
    · rintro ⟨all, hall⟩
      refine ⟨all, hall, ?_⟩
      dsimp only
      split <;> exact ⟨_, rfl⟩
  have hnamed : ∀ entry ∈ namedSamples (baseName settings document) document, Distinct entry.2 :=
    (forall_namedSamples_iff Distinct (.scalar rfl)).mpr hdistinct
  rw [hbuild, components, exists_declareFrom_iff hnamed]
  exact forall_namedSamples_iff (fun sample => sample.writable = true) rfl

end Components

/-! ## Documents that were read -/

/-- The bodies of a document can be written out. -/
structure Writable (document : Document) : Prop where
  body : document.body.writable = true
  responses : ∀ response ∈ document.responses, response.body.writable = true

theorem distinct_samples {path : Files.Path} {text : List Char} {document : Document}
    (hread : Document.read path text = .ok document) :
    ∀ entry ∈ samples document, Distinct entry.2 := by
  have hsound := Document.sound_of_read hread
  apply (forall_samples_iff Distinct).mpr
  refine ⟨hsound.body.distinct, hsound.headers.distinct, hsound.query.distinct,
    hsound.params.distinct, fun response hresponse => ?_⟩
  obtain ⟨⟨example_, _, hregular⟩, hheaders⟩ := hsound.responses response hresponse
  exact ⟨hregular.distinct, hheaders.distinct⟩

/-- A document that was read has a module, or documents nothing, if and only if
the body of its request and those of its responses can be written. Without the
mark of a hexadecimal integer in the text that a body is read from, it can. -/
theorem exists_build_of_read_iff (settings : Settings) {path : Files.Path} {text : List Char}
    {document : Document} (hread : Document.read path text = .ok document) :
    ((∃ built, Module.build settings document = .ok built) ↔ Writable document) ∧
      (Unmarked (withoutBlocks "example" text) → document.body.writable = true) ∧
      ((∀ example_ ∈ bodies "example" text, Unmarked example_) →
        ∀ response ∈ document.responses, response.body.writable = true) := by
  have hsound := Document.sound_of_read hread
  refine ⟨?_, hsound.body.writable, fun hunmarked response hresponse => ?_⟩
  · rw [exists_build_iff (distinct_samples hread),
      forall_samples_iff (fun sample => sample.writable = true)]
    constructor
    · rintro ⟨hbody, -, -, -, hresponses⟩
      exact ⟨hbody, fun response hresponse => (hresponses response hresponse).1⟩
    · intro hwritable
      refine ⟨hwritable.body, hsound.headers.writable, hsound.query.writable,
        hsound.params.writable, ?_⟩
      intro response hresponse
      exact ⟨hwritable.responses response hresponse,
        (hsound.responses response hresponse).2.writable⟩
  · obtain ⟨⟨example_, hmem, hregular⟩, -⟩ := hsound.responses response hresponse
    exact hregular.writable (hunmarked example_ hmem)

/-- The request for users is read, and no hexadecimal integer is in its text. -/
theorem read_userSample : Document.read (.ofString "Users.bru")
      (userText "\x7b\"user\": \x7b\"id\": 1\x7d\x7d") =
        .ok (Generation.userDocument "Users.bru" userSample) ∧
    Unmarked (withoutBlocks "example" (userText "\x7b\"user\": \x7b\"id\": 1\x7d\x7d")) := by
  unfold Unmarked
  decide +kernel

theorem userSample_built : ∃ text built,
    Document.read (.ofString "Users.bru") text =
        .ok (Generation.userDocument "Users.bru" userSample) ∧
      Unmarked (withoutBlocks "example" text) ∧
      Module.build {} (Generation.userDocument "Users.bru" userSample) = .ok built := by
  obtain ⟨hread, hunmarked⟩ := read_userSample
  obtain ⟨hbuilt, hbody, -⟩ := exists_build_of_read_iff {} hread
  obtain ⟨built, hbuild⟩ := hbuilt.mpr ⟨hbody hunmarked, fun _ hmem => nomatch hmem⟩
  exact ⟨_, built, hread, hunmarked, hbuild⟩

/-! ## A body that cannot be written -/

section Hexadecimal

open Json.Relaxed

/-- A hexadecimal integer of so many digits, all of them the greatest. -/
def hexText (count : Nat) : List Char :=
  '0' :: 'x' :: List.replicate count 'f'

theorem readHexInteger_replicate (count : Nat) :
    readHexInteger (List.replicate (count + 1) 'f') = some (16 ^ (count + 1) - 1, []) := by
  have hhex : ∀ c ∈ List.replicate (count + 1) 'f', (Text.hexValue? c).isSome = true := by
    intro c hc
    rw [List.eq_of_mem_replicate hc]
    rfl
  -- With one more than the value, a digit multiplies by sixteen.
  have hfold : ∀ count value : Nat,
      (List.replicate count 'f').foldl (fun n c => 16 * n + (Text.hexValue? c).getD 0) value + 1 =
        16 ^ count * (value + 1) := by
    intro count
    induction count with
    | zero => simp
    | succ count ih =>
        intro value
        have hdigit : (Text.hexValue? 'f').getD 0 = 15 := rfl
        rw [List.replicate_succ, List.foldl_cons, ih, hdigit, Nat.pow_succ]
        ring
  have hvalue := hfold (count + 1) 0
  simp only [readHexInteger, List.takeWhile_eq_self_iff.mpr hhex,
    List.dropWhile_eq_nil_iff.mpr hhex]
  rw [List.replicate_succ] at hvalue ⊢
  exact congrArg (fun value => some (value, [])) (by omega)

theorem parse?_hexText (count : Nat) :
    parse? (hexText (count + 1)) = some (.int (16 ^ (count + 1) - 1 : Nat)) := by
  have hblank : ∀ c ∈ hexText (count + 1), Text.isBlank c = false := by
    intro c hc
    obtain rfl | rfl | hdigit := (List.mem_cons.mp hc).imp_right List.mem_cons.mp
    · decide
    · decide
    · rw [List.eq_of_mem_replicate hdigit]
      decide
  have hskip : skip (hexText (count + 1)) = hexText (count + 1) := by
    have hspace : isSpace '0' = false := by decide
    rw [hexText, skip.eq_def]
    simp [hspace]
  have hnumber : readNumber (hexText (count + 1)) =
      some (.int (16 ^ (count + 1) - 1 : Nat), []) := by
    simp [readNumber, hexText, takeSign, Text.after?, readHexInteger_replicate]
  have hvalue : ∀ fuel depth, readValue (fuel + 1) depth (hexText (count + 1)) =
      some (.int (16 ^ (count + 1) - 1 : Nat), []) := by
    intro fuel depth
    rw [readValue.eq_def]
    exact hnumber
  rw [parse?, trim_of_forall hblank]
  have hend : skip [] = [] := by rw [skip.eq_def]
  simp [hskip, hvalue, hend]

theorem braceless_hexText (count : Nat) : Braceless (hexText count) := by
  simp [Braceless, hexText, List.mem_replicate]

/-- A request of which nothing is known but such a body. -/
theorem exists_read_hexText (count : Nat) : ∃ document,
    Document.read (.ofString "a.bru") (alone "body:json" (hexText (count + 1))) = .ok document ∧
      document.body = .int (16 ^ (count + 1) - 1 : Nat) := by
  have hfree : ∀ {name : List Char}, Braceless name → HeaderFree name (hexText (count + 1)) :=
    fun hname => headerFree_of_not_mem hname (braceless_hexText (count + 1)).1
  have hexample := @blocksFrom_alone "body:json" (hexText (count + 1)) "example".toList none
    (by decide) (by decide) (hfree (by decide))
  have hresponses : responsesOf [] (bodies "example" (alone "body:json" (hexText (count + 1)))) =
      .ok [] := by
    rw [bodies, hexample]
    rfl
  have hrequest : withoutBlocks "example" (alone "body:json" (hexText (count + 1))) =
      alone "body:json" (hexText (count + 1)) := by
    rw [withoutBlocks, hexample]
    rfl
  have htable : ∀ name : String, Braceless name.toList →
      HeaderFree name.toList ("body:json".toList ++ [' ', '{']) →
      blockEntries name (withoutBlocks "example" (alone "body:json" (hexText (count + 1)))) =
        .ok none := by
    intro name hname hheader
    rw [hrequest, blockEntries, body?, firstBlock?_alone hname hheader (hfree hname)]
    rfl
  refine ⟨_, Document.read_eq_ok_iff.mpr ⟨[], none, none, none, hresponses,
    htable "headers" (by decide) (by decide), htable "params:query" (by decide) (by decide),
    htable "params:path" (by decide) (by decide), rfl⟩, ?_⟩
  rw [hrequest, body?_alone (braceless_hexText (count + 1)).balanced, sample, Option.bind_some,
    parse?_hexText]
  rfl

/-- The body is read, but it has too many digits to be written in decimal. -/
theorem hexText_not_built : ∃ document,
    Document.read (.ofString "a.bru") (alone "body:json" (hexText (digitLimit + 1))) =
        .ok document ∧
      ∀ built, Module.build {} document ≠ .ok built := by
  obtain ⟨document, hread, hbody⟩ := exists_read_hexText digitLimit
  refine ⟨document, hread, fun built hbuild => ?_⟩
  have hall := (exists_build_iff (distinct_samples hread)).mp ⟨built, hbuild⟩
  have hwritable := ((forall_samples_iff (fun sample => sample.writable = true)).mp hall).1
  have hlarge : 10 ^ digitLimit ≤ 16 ^ (digitLimit + 1) - 1 := by
    have hpow : 10 ^ digitLimit ≤ 16 ^ digitLimit := Nat.pow_le_pow_left (by decide) _
    rw [Nat.pow_succ]
    omega
  rw [hbody, Json.writable, integerFits_of_le hlarge] at hwritable
  cases hwritable

end Hexadecimal

end RequestShapes.Endpoint
