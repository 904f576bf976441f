import RequestShapes.Proofs.Request.Blocks
import RequestShapes.Proofs.Request.Entries
import RequestShapes.Proofs.Schema.Lifts

/-!
# Reading written examples

A saved example is a block with a response in it, which holds blocks for its
headers, its status and its body. Written so, it is read back as its response,
whatever its body holds, unless its status has too many digits.
-/

namespace RequestShapes.Request

open Schema (after?_append ok_bind)
open Text

/-! ## Writing an example -/

/-- What is written of a saved response. Its body stands between quotes, so it
holds no three of them and does not end with one. -/
structure Example where
  status : Nat
  status_pos : 0 < status
  headers : Entries
  body : List Char
  balanced : Balanced body
  unquoted : ¬ "'''".toList <:+: body
  open_end : body.getLast? ≠ some '\''

namespace Example

variable (saved : Example)

/-- The block of the headers of a response. -/
def headersBlock : Block :=
  titled "\n    " "headers" ":" (saved.headers.text "      ".toList "    ".toList)

def statusBlock : Block :=
  titled "\n    " "status" ":"
    (" ".toList ++ ("code:".toList ++ (" ".toList ++ (Nat.toDigits 10 saved.status ++ " ".toList))))

def bodyBlock : Block :=
  titled "\n    " "body" ":"
    ("\n      type: json\n      ".toList ++
      ("content:".toList ++ (" ".toList ++ ("'''".toList ++
        (saved.body ++ ("'''".toList ++ "\n    ".toList))))))

/-- The blocks of a response. -/
def blocks : List Block := [saved.headersBlock, saved.statusBlock, saved.bodyBlock]

def responseBlock : Block :=
  titled "\n  " "response" ":" (saved.blocks.flatMap Block.text ++ "\n  ".toList)

/-- The block of an example. -/
def block : Block :=
  titled "\n\n" "example" "" ([saved.responseBlock].flatMap Block.text ++ "\n".toList)

/-- The response that an example stands for. -/
def response : Response :=
  ⟨saved.status, saved.status_pos, sample (some saved.body), saved.headers.read⟩

end Example

/-- The first response of each status, those of the statuses seen left out. -/
def firstResponses (seen : List Nat) : List Example → List Response
  | [] => []
  | saved :: others =>
      if saved.status ∈ seen then firstResponses seen others
      else saved.response :: firstResponses (saved.status :: seen) others

/-- What is kept for a status is the response of its first example. -/
theorem find?_firstResponses {seen : List Nat} {status : Nat} (h : status ∉ seen)
    (examples : List Example) :
    (firstResponses seen examples).find? (·.status = status) =
      (examples.find? (·.status = status)).map Example.response := by
  -- A status of an earlier example may be seen by then, but never the one looked for.
  induction examples generalizing seen with
  | nil => rfl
  | cons saved examples ih =>
      rw [firstResponses]
      by_cases hstatus : saved.status = status
      · rw [if_neg (by rwa [hstatus])]
        simp [hstatus, Example.response]
      · have hothers := @ih (saved.status :: seen) (by simp [h, Ne.symm hstatus])
        split <;> simp [hstatus, Example.response, ih h, hothers]

/-! ## The blocks of an example -/

namespace Example

variable (saved : Example)

theorem braceless_headers : Braceless (saved.headers.text "      ".toList "    ".toList) :=
  saved.headers.braceless_text (by decide) (by decide)

theorem braceless_toDigits (n : Nat) : Braceless (Nat.toDigits 10 n) :=
  ⟨fun hmem => absurd (mem_asciiDigits hmem) (by decide),
    fun hmem => absurd (mem_asciiDigits hmem) (by decide)⟩

theorem braceless_status : Braceless saved.statusBlock.body := by
  simp only [statusBlock, titled, braceless_append]
  exact ⟨by decide, by decide, by decide, braceless_toDigits _, by decide⟩

theorem balanced_content : Balanced saved.bodyBlock.body := by
  have hclosing : Balanced ("'''".toList ++ "\n    ".toList) := Braceless.balanced (by decide)
  have hopening : Balanced "\n      type: json\n      ".toList := Braceless.balanced (by decide)
  have hcontent : Balanced ("content:".toList ++ (" ".toList ++ "'''".toList)) :=
    Braceless.balanced (by decide)
  simpa only [bodyBlock, titled, List.append_assoc] using
    hopening.append (hcontent.append (saved.balanced.append hclosing))

theorem balanced_blocks : Balanced (saved.blocks.flatMap Block.text ++ "\n  ".toList) := by
  have hheaders : Balanced saved.headersBlock.text :=
    balanced_titled (by decide) (by decide) (by decide) saved.braceless_headers.balanced
  have hstatus : Balanced saved.statusBlock.text :=
    balanced_titled (by decide) (by decide) (by decide) saved.braceless_status.balanced
  have hbody : Balanced saved.bodyBlock.text :=
    balanced_titled (by decide) (by decide) (by decide) saved.balanced_content
  have hclosing : Balanced "\n  ".toList := Braceless.balanced (by decide)
  simpa [blocks] using hheaders.append (hstatus.append (hbody.append hclosing))

/-- An example stands as a block. -/
theorem standing : saved.block.Standing "example".toList := by
  have hresponse : Balanced saved.responseBlock.text :=
    balanced_titled (by decide) (by decide) (by decide) saved.balanced_blocks
  have hclosing : Balanced "\n".toList := Braceless.balanced (by decide)
  have hbody : Balanced ([saved.responseBlock].flatMap Block.text ++ "\n".toList) := by
    simpa using hresponse.append hclosing
  exact standing_titled (by decide) (by decide) (by decide) hbody

theorem body?_response : body? "response" saved.block.body = some saved.responseBlock.body := by
  have hstanding : saved.responseBlock.Standing "response".toList :=
    standing_titled (by decide) (by decide) (by decide) saved.balanced_blocks
  exact @body?_row _ _ [] [] (List.forall_mem_nil _) hstanding "\n".toList

/-- The blocks of a response before a block of another name are passed over. -/
theorem body?_headers :
    body? "headers" saved.responseBlock.body = some saved.headersBlock.body := by
  have hstanding : saved.headersBlock.Standing "headers".toList :=
    standing_titled (by decide) (by decide) (by decide) saved.braceless_headers.balanced
  exact @body?_row _ _ [] [saved.statusBlock, saved.bodyBlock] (List.forall_mem_nil _) hstanding _

/-- The headers are passed over in the search for another block. -/
theorem absent_headersBlock {name : List Char} (hname : Braceless name)
    (hheader : HeaderFree name
      ("\n    ".toList ++ ("headers".toList ++ (":".toList ++ [' ', '{'])))) (rest : List Char) :
    Absent (header? name) saved.headersBlock.text rest :=
  absent_titled hname hheader (headerFree_of_not_mem hname saved.braceless_headers.1) rest

theorem absent_statusBlock {name : List Char} (hname : Braceless name)
    (hheader : HeaderFree name
      ("\n    ".toList ++ ("status".toList ++ (":".toList ++ [' ', '{'])))) (rest : List Char) :
    Absent (header? name) saved.statusBlock.text rest :=
  absent_titled hname hheader (headerFree_of_not_mem hname saved.braceless_status.1) rest

theorem body?_status : body? "status" saved.responseBlock.body = some saved.statusBlock.body := by
  have hstanding : saved.statusBlock.Standing "status".toList :=
    standing_titled (by decide) (by decide) (by decide) saved.braceless_status.balanced
  refine @body?_row _ _ [saved.headersBlock] [saved.bodyBlock] ?_ hstanding _
  exact List.forall_mem_singleton.mpr (saved.absent_headersBlock (by decide) (by decide))

theorem body?_body : body? "body" saved.responseBlock.body = some saved.bodyBlock.body := by
  have hstanding : saved.bodyBlock.Standing "body".toList :=
    standing_titled (by decide) (by decide) (by decide) saved.balanced_content
  refine @body?_row _ _ [saved.headersBlock, saved.statusBlock] [] ?_ hstanding _
  exact List.forall_mem_cons.mpr ⟨saved.absent_headersBlock (by decide) (by decide),
    List.forall_mem_singleton.mpr (saved.absent_statusBlock (by decide) (by decide))⟩

/-- The digits of a status are found in its block. -/
theorem digitsAfter?_status :
    digitsAfter? "code:" saved.statusBlock.body = some (Nat.toDigits 10 saved.status) := by
  have hascii : ∀ c ∈ asciiDigits, isDigit c = true ∧ isBlank c = false :=
    forall_mem_of_all (by decide)
  have hdigits : ∀ c ∈ Nat.toDigits 10 saved.status, isDigit c = true ∧ isBlank c = false :=
    fun c hc => hascii c (mem_asciiDigits hc)
  have hdrop : dropBlank (" ".toList ++ (Nat.toDigits 10 saved.status ++ " ".toList)) =
      Nat.toDigits 10 saved.status ++ " ".toList :=
    dropBlank_append (dropBlank_of_trim (trim_of_forall fun c hc => (hdigits c hc).2))
      Nat.toDigits_ne_nil
  have htake : (Nat.toDigits 10 saved.status ++ " ".toList).takeWhile isDigit =
      Nat.toDigits 10 saved.status :=
    takeWhile_run (fun c hc => (hdigits c hc).1) fun c hc => Option.some.inj hc ▸ rfl
  refine firstAt?_after? (absent_of_clashes (by decide) _) ?_
  rw [hdrop, htake]
  split
  next hnil => exact absurd hnil Nat.toDigits_ne_nil
  next => rfl

/-- Three quotes do not begin in a body that has none of them and ends with no
quote. -/
theorem absent_quotes {body : List Char} (hunquoted : ¬ "'''".toList <:+: body)
    (hend : body.getLast? ≠ some '\'') (rest : List Char) :
    Absent (after? "'''".toList) body ("'''".toList ++ rest) := by
  induction body with
  | nil => trivial
  | cons c body ih =>
      refine ⟨after?_eq_none_iff.mpr fun hquotes => ?_,
        ih (fun hin => hunquoted ?_) fun hlast => ?_⟩
      · obtain hin | ⟨tail, -, -, heq⟩ := @prefix_append_cases _ (c :: body) _ hquotes
        · exact hunquoted hin.isInfix
        · -- The quotes go on beyond the body, so its last character is one of them.
          have hmem : ∀ d ∈ c :: body, d = '\'' := by
            intro d hd
            have hin : d ∈ "'''".toList := heq ▸ List.mem_append_left tail hd
            simpa using hin
          have hlast := List.getLast?_eq_some_getLast (List.cons_ne_nil c body)
          rw [hmem _ (List.getLast_mem _)] at hlast
          exact hend hlast
      · exact hin.trans (List.suffix_cons c body).isInfix
      · exact hend (by rw [List.getLast?_cons, hlast, Option.getD_some])

/-- The content of an example body is what stands between the quotes. -/
theorem content?_body : content? saved.bodyBlock.body = some saved.body := by
  have hquoted : quotedAfter? "content:" "'''" saved.bodyBlock.body = some saved.body := by
    refine firstAt?_after? (absent_of_clashes (by decide) _) ?_
    have hinside : after? "'''".toList (dropBlank (" ".toList ++ ("'''".toList ++
        (saved.body ++ ("'''".toList ++ "\n    ".toList))))) =
          some (saved.body ++ ("'''".toList ++ "\n    ".toList)) :=
      after?_append "'''".toList _
    have hcut := cut?_append (by decide)
      (absent_quotes saved.unquoted saved.open_end "\n    ".toList)
    rw [hinside]
    simp only [Option.bind_eq_bind, Option.bind_some, hcut, Option.map_some]
  rw [content?, hquoted]
  rfl

/-! ## The response of an example -/

variable {saved}

theorem status?_of_fits (h : integerFits saved.status = true) :
    status? saved.responseBlock.body = .ok (some saved.status) := by
  have hread : readInteger false (Nat.toDigits 10 saved.status) = .ok (saved.status : Int) :=
    readInteger_toDigits (integerFits_iff.mp h)
  rw [status?, body?_status, Option.bind_some, digitsAfter?_status]
  simp only [hread, Except.map, Int.natAbs_natCast]

theorem status?_of_not_fits (h : integerFits saved.status = false) :
    ∃ refusal, status? saved.responseBlock.body = .error refusal := by
  have hlength : digitLimit < (Nat.toDigits 10 saved.status).length := by
    rw [← Nat.not_le]
    intro hle
    rw [(@integerFits_iff (saved.status : Int)).mpr hle] at h
    cases h
  rw [status?, body?_status, Option.bind_some, digitsAfter?_status]
  simp only [readInteger_of_lt hlength]
  exact ⟨_, rfl⟩

/-- An example is read as its response, unless its status was seen. -/
theorem response?_of_fits (h : integerFits saved.status = true) (seen : List Nat) :
    response? seen saved.block.body =
      .ok (if saved.status ∈ seen then none else some saved.response) := by
  have hheaders : blockEntries "headers" saved.responseBlock.body = .ok saved.headers.read := by
    rw [blockEntries, body?_headers]
    exact saved.headers.entries?_text (forall_mem_of_all (by decide))
      (forall_mem_of_all (by decide))
  rw [response?, body?_response]
  simp only [status?_of_fits h, ok_bind, hheaders, body?_body, Option.bind_some, content?_body]
  by_cases hseen : saved.status ∈ seen
  · simp [hseen]
  · simp only [hseen, not_false_eq_true, and_true, if_false, dif_pos saved.status_pos]
    rfl

theorem response?_of_not_fits (h : integerFits saved.status = false) (seen : List Nat) :
    ∃ refusal, response? seen saved.block.body = .error refusal := by
  obtain ⟨refusal, hstatus⟩ := status?_of_not_fits h
  rw [response?, body?_response]
  simp only [hstatus]
  exact ⟨refusal, rfl⟩

end Example

/-! ## The responses of a document -/

theorem responsesOf_of_fits {examples : List Example}
    (h : ∀ saved ∈ examples, integerFits saved.status = true) (seen : List Nat) :
    responsesOf seen (examples.map fun saved => saved.block.body) =
      .ok (firstResponses seen examples) := by
  induction examples generalizing seen with
  | nil => rfl
  | cons saved examples ih =>
      obtain ⟨hsaved, hexamples⟩ := List.forall_mem_cons.mp h
      rw [List.map_cons, responsesOf, Example.response?_of_fits hsaved, ok_bind, firstResponses]
      by_cases hseen : saved.status ∈ seen
      · simp only [hseen, if_true, ih hexamples]
      · simp only [hseen, if_false, ih hexamples]
        rfl

theorem responsesOf_of_not_fits {examples : List Example}
    (h : ∃ saved ∈ examples, integerFits saved.status = false) (seen : List Nat) :
    ∃ refusal, responsesOf seen (examples.map fun saved => saved.block.body) = .error refusal := by
  induction examples generalizing seen with
  | nil => simp at h
  | cons saved examples ih =>
      rw [List.map_cons, responsesOf]
      cases hsaved : integerFits saved.status with
      | false =>
          obtain ⟨refusal, hrefusal⟩ := Example.response?_of_not_fits hsaved seen
          exact ⟨refusal, by rw [hrefusal]; rfl⟩
      | true =>
          -- The long status is a later one, and the earlier response changes nothing.
          have hlater : ∃ other ∈ examples, integerFits other.status = false := by
            obtain ⟨other, hmem, hother⟩ := h
            obtain rfl | hmem := List.mem_cons.mp hmem
            · rw [hsaved] at hother
              cases hother
            · exact ⟨other, hmem, hother⟩
          rw [Example.response?_of_fits hsaved, ok_bind]
          by_cases hseen : saved.status ∈ seen
          · simpa only [hseen, if_true] using ih hlater seen
          · obtain ⟨refusal, hrefusal⟩ := ih hlater (saved.status :: seen)
            simp only [hseen, if_false]
            have hstatus : saved.response.status = saved.status := rfl
            exact ⟨refusal, by rw [hstatus, hrefusal]; rfl⟩

end RequestShapes.Request
