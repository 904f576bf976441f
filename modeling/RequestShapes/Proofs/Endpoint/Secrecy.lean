import RequestShapes.Proofs.Endpoint.Building

/-!
# No value of a sample shows in its module

Requests carry tokens and passwords. Two documents that differ in scalars only, each
replaced by one of its kind, have the same module, so nothing in a module depends on
such a value. A text counts by its format.
-/

namespace RequestShapes.Json

/-! ## Outlines -/

mutual

/-- Whether two values have the same containers, names and lengths, and scalars of
one kind wherever they have scalars. Integers are of one kind if both have a decimal
text, and texts if both have the same format. -/
def sameOutline : Json → Json → Bool
  | .null, .null => true
  | .bool _, .bool _ => true
  | .int a, .int b => a = b || (integerFits a && integerFits b)
  | .float _, .float _ => true
  | .str a, .str b => Format.detect? a = Format.detect? b
  | .arr as, .arr bs => itemsSameOutline as bs
  | .obj as, .obj bs => membersSameOutline as bs
  | _, _ => false

/-- Whether two lists of items have the same outline. -/
def itemsSameOutline : List Json → List Json → Bool
  | [], [] => true
  | a :: as, b :: bs => sameOutline a b && itemsSameOutline as bs
  | _, _ => false

/-- Whether two lists of members have the same outline. -/
def membersSameOutline : List (String × Json) → List (String × Json) → Bool
  | [], [] => true
  | (k, a) :: as, (l, b) :: bs => k = l && sameOutline a b && membersSameOutline as bs
  | _, _ => false

end

mutual

/-- What has a decimal text everywhere has one under every disguise. -/
theorem writable_eq_of_sameOutline :
    (a b : Json) → sameOutline a b = true → a.writable = b.writable
  | .null, b, h | .bool _, b, h | .float _, b, h | .str _, b, h => by
      cases b <;> first | (cases h; done) | rfl
  | .int a, b, h => by
      cases b with
      | int b =>
          simp only [sameOutline, Bool.or_eq_true, decide_eq_true_eq, Bool.and_eq_true] at h
          obtain rfl | ⟨ha, hb⟩ := h
          · rfl
          · rw [writable, writable, ha, hb]
      | _ => cases h
  | .arr as, b, h => by
      cases b with
      | arr bs => exact itemsWritable_eq_of_sameOutline as bs h
      | _ => cases h
  | .obj as, b, h => by
      cases b with
      | obj bs => exact membersWritable_eq_of_sameOutline as bs h
      | _ => cases h

theorem itemsWritable_eq_of_sameOutline :
    (as bs : List Json) → itemsSameOutline as bs = true → itemsWritable as = itemsWritable bs
  | [], [], _ => rfl
  | a :: as, b :: bs, h => by
      obtain ⟨hitem, hrest⟩ := Bool.and_eq_true_iff.mp h
      rw [itemsWritable, itemsWritable, writable_eq_of_sameOutline a b hitem,
        itemsWritable_eq_of_sameOutline as bs hrest]
  | [], _ :: _, h | _ :: _, [], h => nomatch h

theorem membersWritable_eq_of_sameOutline :
    (as bs : List (String × Json)) → membersSameOutline as bs = true →
      membersWritable as = membersWritable bs
  | [], [], _ => rfl
  | (_, a) :: as, (_, b) :: bs, h => by
      simp only [membersSameOutline, Bool.and_eq_true] at h
      obtain ⟨⟨-, hvalue⟩, hrest⟩ := h
      rw [membersWritable, membersWritable, writable_eq_of_sameOutline a b hvalue,
        membersWritable_eq_of_sameOutline as bs hrest]
  | [], _ :: _, h | _ :: _, [], h => nomatch h

end

end RequestShapes.Json

namespace RequestShapes.Schema

open RequestShapes.Json (itemsSameOutline membersSameOutline sameOutline)

/-! ## Inference -/

theorem names_eq_of_sameOutline {as bs : List (String × Json)}
    (h : membersSameOutline as bs = true) : Table.names as = Table.names bs := by
  induction as generalizing bs with
  | nil =>
      cases bs with
      | nil => rfl
      | cons => cases h
  | cons entry as ih =>
      cases bs with
      | nil => cases h
      | cons other bs =>
          simp only [membersSameOutline, Bool.and_eq_true, decide_eq_true_eq] at h
          obtain ⟨⟨hname, -⟩, hrest⟩ := h
          simp only [Table.names, List.map_cons, hname] at ih ⊢
          rw [ih hrest]

mutual

/-- A value has the schema of every other one with its outline. -/
theorem infer_eq_of_sameOutline : (a b : Json) → sameOutline a b = true → infer a = infer b
  | .null, b, h | .bool _, b, h | .int _, b, h | .float _, b, h => by
      cases b <;> first | (cases h; done) | rfl
  | .str a, b, h => by
      cases b with
      | str b =>
          simp only [sameOutline, decide_eq_true_eq] at h
          rw [infer, infer, ofString, ofString, h]
      | _ => cases h
  | .arr [], b, h => by
      cases b with
      | arr bs =>
          cases bs with
          | nil => rfl
          | cons => cases h
      | _ => cases h
  | .arr (a :: as), b, h => by
      cases b with
      | arr bs =>
          cases bs with
          | nil => cases h
          | cons b bs => rw [infer, infer, inferItems_eq_of_sameOutline (a :: as) (b :: bs) h] <;>
              exact nofun
      | _ => cases h
  | .obj as, b, h => by
      cases b with
      | obj bs =>
          rw [infer, infer, inferMembers_eq_of_sameOutline as bs h, names_eq_of_sameOutline h]
      | _ => cases h

theorem inferItems_eq_of_sameOutline :
    (as bs : List Json) → itemsSameOutline as bs = true → inferItems as = inferItems bs
  | [], [], _ => rfl
  | a :: as, b :: bs, h => by
      obtain ⟨hitem, hrest⟩ := Bool.and_eq_true_iff.mp h
      rw [inferItems, inferItems, infer_eq_of_sameOutline a b hitem,
        inferItems_eq_of_sameOutline as bs hrest]
  | [], _ :: _, h | _ :: _, [], h => nomatch h

theorem inferMembers_eq_of_sameOutline :
    (as bs : List (String × Json)) → membersSameOutline as bs = true →
      inferMembers as = inferMembers bs
  | [], [], _ => rfl
  | (k, a) :: as, (l, b) :: bs, h => by
      simp only [membersSameOutline, Bool.and_eq_true, decide_eq_true_eq] at h
      obtain ⟨⟨rfl, hvalue⟩, hrest⟩ := h
      rw [inferMembers, inferMembers, infer_eq_of_sameOutline a b hvalue,
        inferMembers_eq_of_sameOutline as bs hrest]
  | [], _ :: _, h | _ :: _, [], h => nomatch h

end

theorem draft_eq_of_sameOutline (name : String) {a b : Json} (h : sameOutline a b = true) :
    draft name [a] = draft name [b] := by
  have hitems : itemsSameOutline [a] [b] = true := by simp [itemsSameOutline, h]
  rw [draft, draft, ofSamples, ofSamples, inferItems_eq_of_sameOutline [a] [b] hitems]

end RequestShapes.Schema

namespace RequestShapes.Endpoint

open Json (sameOutline)
open Request (Document Response tableValue)
open Schema (Distinct)

/-! ## Components and modules -/

section Components

variable {a b : Json}

theorem isBlankSample_eq_of_sameOutline (h : sameOutline a b = true) :
    isBlankSample a = isBlankSample b := by
  cases a with
  | arr as =>
      cases b with
      | arr bs => cases as <;> cases bs <;> first | rfl | cases h
      | _ => cases h
  | obj as =>
      cases b with
      | obj bs => cases as <;> cases bs <;> first | rfl | cases h
      | _ => cases h
  | _ => cases b <;> first | rfl | cases h

theorem component_eq_of_sameOutline (name : String) (reserved : List String)
    (h : sameOutline a b = true) :
    Synthesizer.standard.component name a reserved =
      Synthesizer.standard.component name b reserved := by
  have hdraft : Synthesizer.standard.draft (Identifier.pascalCase name) a =
      Synthesizer.standard.draft (Identifier.pascalCase name) b :=
    Schema.draft_eq_of_sameOutline _ h
  simp only [Synthesizer.component, isBlankSample_eq_of_sameOutline h,
    Json.writable_eq_of_sameOutline a b h, hdraft]

/-- Samples have the same names and outlines. -/
abbrev SameSamples : List (String × Json) → List (String × Json) → Prop :=
  List.Forall₂ fun first second => first.1 = second.1 ∧ sameOutline first.2 second.2 = true

theorem declareFrom_eq_of_sameOutline {named others : List (String × Json)}
    (h : SameSamples named others) (taken : List String) :
    declareFrom .standard taken named = declareFrom .standard taken others := by
  induction h generalizing taken with
  | nil => rfl
  | @cons first second named others heads _ ih =>
      obtain ⟨name, sample⟩ := first
      obtain ⟨other, disguised⟩ := second
      obtain ⟨rfl, hsample⟩ := heads
      simp only [declareFrom, component_eq_of_sameOutline name _ hsample, ih]

theorem SameSamples.names_eq {named others : List (String × Json)}
    (h : SameSamples named others) : named.map Prod.fst = others.map Prod.fst := by
  induction h with
  | nil => rfl
  | cons heads _ ih => rw [List.map_cons, List.map_cons, heads.1, ih]

/-- Samples are absent in the same places. -/
theorem SameSamples.present {all others : List (String × Json)} (h : SameSamples all others)
    (base : String) :
    SameSamples
      (all.filterMap fun (ending, sample) =>
        if sample = .null then none else some (base ++ ending, sample))
      (others.filterMap fun (ending, sample) =>
        if sample = .null then none else some (base ++ ending, sample)) := by
  induction h with
  | nil => exact .nil
  | @cons entry other _ _ heads _ ih =>
      obtain ⟨ending, sample⟩ := entry
      obtain ⟨_, disguised⟩ := other
      obtain ⟨rfl, houtline⟩ := heads
      by_cases hnull : sample = .null
      · -- Null has the outline of nothing else.
        subst hnull
        cases disguised <;> first | exact ih | cases houtline
      · have hnull' : disguised ≠ .null := by
          rintro rfl
          cases sample <;> first | exact hnull rfl | cases houtline
        simp only [List.filterMap_cons, if_neg hnull, if_neg hnull']
        exact .cons ⟨rfl, houtline⟩ ih

end Components

/-- Two responses have one status and the same outlines. -/
structure SameResponse (first second : Response) : Prop where
  status : first.status = second.status
  body : sameOutline first.body second.body = true
  headers : sameOutline (tableValue first.headers) (tableValue second.headers) = true

/-- Two documents have one address and one method, and all their samples have the
same outlines. -/
structure SameRequest (first second : Document) : Prop where
  name : first.name = second.name
  method : first.method = second.method
  url : first.url = second.url
  body : sameOutline first.body second.body = true
  headers : sameOutline (tableValue first.headers) (tableValue second.headers) = true
  query : sameOutline (tableValue first.query) (tableValue second.query) = true
  params : sameOutline (tableValue first.params) (tableValue second.params) = true
  responses : List.Forall₂ SameResponse first.responses second.responses

section Documents

variable {first second : Document}

theorem SameRequest.sameSamples (h : SameRequest first second) :
    SameSamples (samples first) (samples second) := by
  refine List.rel_append (.cons ⟨rfl, h.body⟩ (.cons ⟨rfl, h.headers⟩
    (.cons ⟨rfl, h.query⟩ (.cons ⟨rfl, h.params⟩ .nil)))) ?_
  refine List.rel_flatMap h.responses fun response other hresponse => ?_
  have hstatus : String.ofList (integerText response.status) =
      String.ofList (integerText other.status) := by rw [hresponse.status]
  exact .cons ⟨hstatus, hresponse.body⟩
    (.cons ⟨congrArg (· ++ "Header") hstatus, hresponse.headers⟩ .nil)

theorem SameRequest.baseName_eq (h : SameRequest first second) (settings : Settings) :
    baseName settings first = baseName settings second := by
  rw [baseName, baseName, h.method, h.name, h.url]

theorem SameRequest.sameNamedSamples (h : SameRequest first second) (base : String) :
    SameSamples (namedSamples base first) (namedSamples base second) :=
  h.sameSamples.present base

/-- Two documents that differ in scalars only, each replaced by one of its kind, have
the same module or the same fault. They have a module, or document nothing, if no
object has a name twice and every integer has a decimal text. -/
theorem build_eq_of_sameRequest (settings : Settings) (h : SameRequest first second) :
    Module.build settings first = Module.build settings second ∧
      ((∀ entry ∈ samples first, Distinct entry.2 ∧ entry.2.writable = true) →
        ∃ built, Module.build settings first = .ok built ∧
          Module.build settings second = .ok built) := by
  have heq : Module.build settings first = Module.build settings second := by
    have hnamed := h.sameNamedSamples (baseName settings second)
    have htaken : (namedSamples (baseName settings second) first).map
          (fun entry => Identifier.pascalCase entry.1) =
        (namedSamples (baseName settings second) second).map
          (fun entry => Identifier.pascalCase entry.1) := by
      have hnames := congrArg (List.map Identifier.pascalCase) hnamed.names_eq
      rwa [List.map_map, List.map_map] at hnames
    rw [Module.build, Module.build, components, components, h.baseName_eq settings]
    simp only [htaken, declareFrom_eq_of_sameOutline hnamed]
  refine ⟨heq, fun hsamples => ?_⟩
  obtain ⟨built, hbuilt⟩ := (exists_build_iff fun entry hentry => (hsamples entry hentry).1).mpr
    fun entry hentry => (hsamples entry hentry).2
  exact ⟨built, hbuilt, heq ▸ hbuilt⟩

end Documents

section Examples

/-- A request to log in, with a password, a token and an answer. -/
def loginDocument (password token : String) (age : Int) (admin : Bool) : Document where
  path := "login.bru"
  name := "Login"
  method := "post"
  url := "/login"
  body := .obj [("user", .obj [("password", .str password), ("age", .int age)])]
  headers := some [("authorization", .str token)]
  query := none
  params := none
  responses := [⟨200, Nat.succ_pos 199, .arr [.obj [("admin", .bool admin)], .null], none⟩]

theorem loginDocument_built_alike :
    SameRequest (loginDocument "letmein" "Bearer 81f0" 41 true)
        (loginDocument "tr0ub4dor&3" "Bearer c7d2" 1999 false) ∧
      (∀ entry ∈ samples (loginDocument "letmein" "Bearer 81f0" 41 true),
        Distinct entry.2 ∧ entry.2.writable = true) ∧
      ∃ built, Module.build {} (loginDocument "letmein" "Bearer 81f0" 41 true) = .ok built ∧
        Module.build {} (loginDocument "tr0ub4dor&3" "Bearer c7d2" 1999 false) = .ok built := by
  have hsame : SameRequest (loginDocument "letmein" "Bearer 81f0" 41 true)
      (loginDocument "tr0ub4dor&3" "Bearer c7d2" 1999 false) :=
    { name := rfl, method := rfl, url := rfl
      body := by decide +kernel
      headers := by decide +kernel
      query := rfl
      params := rfl
      responses := .cons ⟨rfl, by decide +kernel, rfl⟩ .nil }
  have hsamples : ∀ entry ∈ samples (loginDocument "letmein" "Bearer 81f0" 41 true),
      Distinct entry.2 ∧ entry.2.writable = true := by
    decide +kernel
  exact ⟨hsame, hsamples, (build_eq_of_sameRequest {} hsame).2 hsamples⟩

end Examples

end RequestShapes.Endpoint
