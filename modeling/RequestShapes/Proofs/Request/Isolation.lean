import RequestShapes.Proofs.Request.Blocks
import RequestShapes.Proofs.Request.Reading

/-!
# What an example cannot reach

The scan for the blocks of a name stops at a header, takes the text up to the
brace that closes it, and goes on behind that brace. What stands between is not
scanned. So two documents that differ in one body alone, at a header where the
scan stops, have the same blocks but for that body: the scan stops at the same
headers before it, and it resumes at the same place behind it. The request is
read from what is left without the examples, which is then one text.
-/

namespace RequestShapes.Request

section Scan

variable {name text body rest : List Char} {previous : Option Char} {block : Block}

/-! ## One block and what follows it -/

/-- Where a body is closed does not depend on what follows. -/
theorem close?_rest {depth : Nat} (h : close? depth text = some (body, rest))
    (rest' : List Char) : close? depth (body ++ '}' :: rest') = some (body, rest') := by
  fun_induction close? depth text generalizing body rest with
  | case1 => cases h
  | case2 depth text ih =>
      simp only [Option.map_eq_some_iff, Prod.mk.injEq, Prod.exists] at h
      obtain ⟨inner, later, hinner, rfl, rfl⟩ := h
      simp [close?, ih hinner]
  | case3 text =>
      cases h
      rfl
  | case4 depth text ih =>
      simp only [Option.map_eq_some_iff, Prod.mk.injEq, Prod.exists] at h
      obtain ⟨inner, later, hinner, rfl, rfl⟩ := h
      simp [close?, ih hinner]
  | case5 depth c text hopen hclose hlast ih =>
      simp only [Option.map_eq_some_iff, Prod.mk.injEq, Prod.exists] at h
      obtain ⟨inner, later, hinner, rfl, rfl⟩ := h
      rw [List.cons_append, close?, ih hinner, Option.map_some]
      · exact hopen
      · exact hclose
      · exact hlast

/-- A body is whole if it is closed by the first brace behind it. -/
def Whole (body : List Char) : Prop :=
  ∀ rest, close? 0 (body ++ '}' :: rest) = some (body, rest)

theorem isHeader_of_firstBlock? (h : firstBlock? name previous text = some (block, rest)) :
    IsHeader name block.header ∧ Whole block.body := by
  fun_induction firstBlock? name previous text generalizing block rest with
  | case1 => cases h
  | case2 previous c text header inside hheader =>
      simp only [Option.map_eq_some_iff, Prod.mk.injEq, Prod.exists] at h
      obtain ⟨body, later, hclose, rfl, rfl⟩ := h
      split at hheader
      · exact ⟨isHeader_of_header? hheader, close?_rest hclose⟩
      · cases hheader
  | case3 previous c text _ ih =>
      simp only [Option.map_eq_some_iff, Prod.mk.injEq, Prod.exists] at h
      obtain ⟨inner, later, hinner, rfl, rfl⟩ := h
      have hparts := ih hinner
      exact hparts

/-- Where no header is read in a text, none is read in what begins it. -/
theorem header?_of_append {front : List Char} (h : header? name (front ++ rest) = none) :
    header? name front = none := by
  rw [Option.eq_none_iff_forall_ne_some]
  rintro ⟨header, inside⟩ hfront
  obtain rfl := header?_append hfront
  rw [List.append_assoc, header?_append_self (isHeader_of_header? hfront)] at h
  cases h

/-- A block is found where it is found, whatever its body holds and whatever
follows it. -/
theorem firstBlock?_exchange (hname : Braceless name)
    (h : firstBlock? name previous text = some (block, rest)) (hbody : Whole body)
    (rest' : List Char) :
    firstBlock? name previous ({ block with body := body }.text ++ rest') =
      some ({ block with body := body }, rest') := by
  fun_induction firstBlock? name previous text generalizing block rest with
  | case1 => cases h
  | case2 previous c text header inside hheader =>
      simp only [Option.map_eq_some_iff, Prod.mk.injEq, Prod.exists] at h
      obtain ⟨closed, later, hclose, rfl, rfl⟩ := h
      split at hheader
      next hprevious =>
        have hfound := header?_append_self (isHeader_of_header? hheader) (body ++ '}' :: rest')
        -- The search looks at a first character, so the header is taken apart.
        obtain ⟨d, tail, rfl⟩ : ∃ d tail, header = d :: tail := by
          obtain ⟨gap, colon, tail, rfl, -⟩ := isHeader_of_header? hheader
          exact List.exists_cons_of_ne_nil (by simp)
        have htext : Block.text ⟨[], d :: tail, body⟩ ++ rest' =
            d :: (tail ++ (body ++ '}' :: rest')) := by
          simp [Block.text]
        rw [htext, firstBlock?, if_pos hprevious]
        rw [List.cons_append] at hfound
        simp [hfound, hbody rest']
      next => cases hheader
  | case3 previous c text hnone ih =>
      simp only [Option.map_eq_some_iff, Prod.mk.injEq, Prod.exists] at h
      obtain ⟨inner, later, hinner, rfl, rfl⟩ := h
      have htext : Block.text ⟨c :: inner.before, inner.header, body⟩ ++ rest' =
          c :: (Block.text ⟨inner.before, inner.header, body⟩ ++ rest') := rfl
      have hskip : (if mayPrecede previous = true then
          header? name (c :: (Block.text ⟨inner.before, inner.header, body⟩ ++ rest')) else none) =
            none := by
        split at hnone
        next hprevious =>
          rw [if_pos hprevious]
          -- A header that begins here would end at the brace of the block's own header.
          obtain ⟨bare, hbare, -⟩ := (isHeader_of_firstBlock? hinner).1.eq_append hname
          have hfront : header? name (c :: (inner.before ++ inner.header)) = none := by
            apply header?_of_append
            rw [← firstBlock?_append hinner] at hnone
            simpa using hnone
          have hbrace : ¬ Braceless (c :: (inner.before ++ inner.header)) := by
            intro hbraceless
            exact hbraceless.1 (by simp [hbare])
          simpa [Block.text] using header?_append_of_brace hname hfront hbrace _
        next hprevious => rw [if_neg hprevious]
      rw [htext, firstBlock?, hskip]
      simp [ih hinner]

end Scan

/-! ## The headers at which a scan stops -/

/-- The scan of a text for the blocks of a name stops at the header behind a
front: the header is that of the first block, or the scan stops there when it
goes on behind the first block. -/
inductive StopsAt (name : List Char) : Option Char → List Char → List Char → Prop
  | first {previous : Option Char} {text rest : List Char} {block : Block}
      (hfound : firstBlock? name previous text = some (block, rest)) :
      StopsAt name previous block.before text
  | later {previous : Option Char} {text rest front : List Char} {block : Block}
      (hfound : firstBlock? name previous text = some (block, rest))
      (hstop : StopsAt name (some '}') front rest) :
      StopsAt name previous (block.text ++ front) text

section Exchange

variable {name header body body' rest : List Char} {previous : Option Char}

/-- At a place there is one header and one body. -/
theorem eq_of_block_eq {header' rest' : List Char} (hheader : IsHeader name header)
    (hheader' : IsHeader name header') (hbody : Whole body) (hbody' : Whole body')
    (h : header ++ (body ++ '}' :: rest) = header' ++ (body' ++ '}' :: rest')) :
    header = header' ∧ body = body' ∧ rest = rest' := by
  have hread := header?_append_self hheader (body ++ '}' :: rest)
  rw [h, header?_append_self hheader', Option.some.injEq, Prod.mk.injEq] at hread
  obtain ⟨rfl, hinside⟩ := hread
  have hclosed := hbody rest
  rw [← hinside, hbody', Option.some.injEq, Prod.mk.injEq] at hclosed
  exact ⟨rfl, hclosed.1.symm, hclosed.2.symm⟩

/-- When the body of one block is exchanged, the scan stops at that block as
before and finds the same blocks before and behind it. -/
theorem StopsAt.exchange {front text : List Char} (hstop : StopsAt name previous front text)
    (hname : Braceless name) (hheader : IsHeader name header) (hbody : Whole body)
    (hbody' : Whole body') (htext : front ++ (header ++ (body ++ '}' :: rest)) = text) :
    StopsAt name previous front (front ++ (header ++ (body' ++ '}' :: rest))) ∧
      ∃ earlier before later last,
        blocksFrom name previous text = (earlier ++ ⟨before, header, body⟩ :: later, last) ∧
        blocksFrom name previous (front ++ (header ++ (body' ++ '}' :: rest))) =
          (earlier ++ ⟨before, header, body'⟩ :: later, last) := by
  induction hstop with
  | @first previous text after block hfound =>
      obtain ⟨hisHeader, hwhole⟩ := isHeader_of_firstBlock? hfound
      rw [← firstBlock?_append hfound, List.append_cancel_left_eq] at htext
      obtain ⟨rfl, rfl, rfl⟩ := eq_of_block_eq hheader hisHeader hbody hwhole htext
      have hfound' := firstBlock?_exchange hname hfound hbody' rest
      simp only [Block.text, List.append_assoc, List.cons_append, List.nil_append] at hfound'
      have hstop' := StopsAt.first hfound'
      exact ⟨hstop', [], block.before, _, _, blocksFrom_of_some hfound,
        blocksFrom_of_some hfound'⟩
  | @later previous text after front block hfound _ ih =>
      have hafter : front ++ (header ++ (body ++ '}' :: rest)) = after := by
        rw [← firstBlock?_append hfound] at htext
        simpa [Block.text] using htext
      obtain ⟨hstop', earlier, before, later, last, hblocks, hblocks'⟩ := ih hafter
      have hfound' := firstBlock?_exchange hname hfound (isHeader_of_firstBlock? hfound).2
        (front ++ (header ++ (body' ++ '}' :: rest)))
      rw [← List.append_assoc] at hfound'
      refine ⟨?_, block :: earlier, before, later, last, ?_, ?_⟩
      · rw [List.append_assoc] at hfound' ⊢
        exact .later hfound' hstop'
      · rw [blocksFrom_of_some hfound, hblocks]
        rfl
      · rw [blocksFrom_of_some hfound', hblocks']
        rfl

/-- What is left without the blocks does not tell one body from the other. -/
theorem StopsAt.withoutBlocks_eq {title : String} {front : List Char}
    (hstop : StopsAt title.toList none front (front ++ (header ++ (body ++ '}' :: rest))))
    (hname : Braceless title.toList) (hheader : IsHeader title.toList header)
    (hbody : Whole body) (hbody' : Whole body') :
    withoutBlocks title (front ++ (header ++ (body ++ '}' :: rest))) =
      withoutBlocks title (front ++ (header ++ (body' ++ '}' :: rest))) := by
  obtain ⟨-, earlier, before, later, last, hblocks, hblocks'⟩ :=
    hstop.exchange hname hheader hbody hbody' rfl
  simp only [withoutBlocks, hblocks, hblocks', List.flatMap_append, List.flatMap_cons]

end Exchange

/-! ## What the request is read from -/

/-- A text with an example in it, between what stands before and behind. -/
def aroundExample (before body after : List Char) : List Char :=
  before ++ ("example \x7b".toList ++ (body ++ '}' :: after))

/-- Documents that have one text without their examples have one request. -/
theorem Document.request_eq {path path' : Files.Path} {text text' : List Char}
    {document document' : Document} (hread : Document.read path text = .ok document)
    (hread' : Document.read path' text' = .ok document')
    (h : withoutBlocks "example" text = withoutBlocks "example" text') :
    document.body = document'.body ∧ document.headers = document'.headers ∧
      document.query = document'.query ∧ document.params = document'.params := by
  obtain ⟨_, headers, query, params, -, hheaders, hquery, hparams, rfl⟩ := read_eq_ok_iff.mp hread
  obtain ⟨_, headers', query', params', -, hheaders', hquery', hparams', rfl⟩ :=
    read_eq_ok_iff.mp hread'
  rw [h] at hheaders hquery hparams
  refine ⟨?_, ?_, ?_, ?_⟩
  · exact congrArg (fun request => sample (body? "body:json" request)) h
  · exact Except.ok.inj (hheaders.symm.trans hheaders')
  · exact Except.ok.inj (hquery.symm.trans hquery')
  · exact Except.ok.inj (hparams.symm.trans hparams')

/-- Nothing inside an example reaches the request: where the scan for examples
stops, the balanced body can be exchanged for any other, and the scan stops there
as before, the text without examples is the same, and so are the parts of the
request that are read from it. -/
theorem read_apart_from_example {before after body body' : List Char}
    (hstop : StopsAt "example".toList none before (aroundExample before body after))
    (hbody : Balanced body) (hbody' : Balanced body') :
    StopsAt "example".toList none before (aroundExample before body' after) ∧
      withoutBlocks "example" (aroundExample before body after) =
        withoutBlocks "example" (aroundExample before body' after) ∧
      ∀ (path path' : Files.Path) (document document' : Document),
        Document.read path (aroundExample before body after) = .ok document →
        Document.read path' (aroundExample before body' after) = .ok document' →
        document.body = document'.body ∧ document.headers = document'.headers ∧
          document.query = document'.query ∧ document.params = document'.params := by
  have hname : Braceless "example".toList := by decide
  have hheader : IsHeader "example".toList "example \x7b".toList :=
    ⟨[' '], [], [], rfl, forall_mem_of_all (by decide), .inl rfl, by simp⟩
  have hsame := hstop.withoutBlocks_eq hname hheader hbody.close?_eq hbody'.close?_eq
  refine ⟨(hstop.exchange hname hheader hbody.close?_eq hbody'.close?_eq rfl).1, hsame, ?_⟩
  intro path path' document document' hread hread'
  exact Document.request_eq hread hread' hsame

/-- An example before another one, with headers in front of both. -/
def earlierExample : Block :=
  ⟨"headers \x7b\n  a: 1\n\x7d\n".toList, "example \x7b".toList,
    " headers \x7b\n b: 2\n\x7d ".toList⟩

/-- A body with blocks of its own, an example among them. -/
def crowdedBody : List Char :=
  " headers: \x7b\n c: 3\n\x7d body:json \x7b [1] \x7d example \x7b \x7d ".toList

def answerBody : List Char :=
  " response: \x7b status: \x7b code: 200 \x7d \x7d ".toList

/-- The body of a request, within an example that is never closed. -/
def openEnd : List Char :=
  "\nexample: \x7b body:json \x7b 1 \x7d".toList

/-- Two documents of which one has a response in the example where the other has
blocks like those of a request. -/
theorem crowded_apart_from_answer :
    StopsAt "example".toList none (earlierExample.text ++ "\n".toList)
        (aroundExample (earlierExample.text ++ "\n".toList) crowdedBody openEnd) ∧
      Balanced crowdedBody ∧ Balanced answerBody ∧
      ∃ document document',
        Document.read (.ofString "a.bru")
            (aroundExample (earlierExample.text ++ "\n".toList) crowdedBody openEnd) =
          .ok document ∧
        Document.read (.ofString "a.bru")
            (aroundExample (earlierExample.text ++ "\n".toList) answerBody openEnd) =
          .ok document' ∧
        document.responses ≠ document'.responses ∧ document.body = .int 1 ∧
        document.body = document'.body ∧ document.headers = document'.headers ∧
        document.query = document'.query ∧ document.params = document'.params := by
  -- The texts are taken apart once for all that is read of them.
  have hscans : firstBlock? "example".toList none
        (aroundExample (earlierExample.text ++ "\n".toList) crowdedBody openEnd) =
          some (earlierExample, aroundExample "\n".toList crowdedBody openEnd) ∧
      firstBlock? "example".toList (some '}')
        (aroundExample "\n".toList crowdedBody openEnd) =
          some (⟨"\n".toList, "example \x7b".toList, crowdedBody⟩, openEnd) ∧
      Balanced crowdedBody ∧ Balanced answerBody ∧
      Document.read (.ofString "a.bru")
        (aroundExample (earlierExample.text ++ "\n".toList) crowdedBody openEnd) =
          .ok { path := "a.bru", name := "a", method := "unknown", url := "", body := .int 1,
                headers := some [("a", .int 1)], query := none, params := none,
                responses := [] } ∧
      Document.read (.ofString "a.bru")
        (aroundExample (earlierExample.text ++ "\n".toList) answerBody openEnd) =
          .ok { path := "a.bru", name := "a", method := "unknown", url := "", body := .int 1,
                headers := some [("a", .int 1)], query := none, params := none,
                responses := [⟨200, by decide, .null, none⟩] } := by
    decide +kernel
  obtain ⟨hfound, hnext, hcrowded, hanswer, hread, hread'⟩ := hscans
  have hstop := StopsAt.later hfound (StopsAt.first hnext)
  obtain ⟨-, -, hsame⟩ := read_apart_from_example hstop hcrowded hanswer
  exact ⟨hstop, hcrowded, hanswer, _, _, hread, hread', by decide, rfl,
    hsame _ _ _ _ hread hread'⟩

end RequestShapes.Request
