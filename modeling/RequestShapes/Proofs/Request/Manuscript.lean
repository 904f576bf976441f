import RequestShapes.Proofs.Request.Responses

/-!
# Reading a written document

A document is written with one block for each of its parts and one for each
saved example. Reading the text gives the document back, whatever the bodies
hold, as long as no status has too many digits to be read.
-/

namespace RequestShapes.Request

open Schema (ok_bind)
open Text

/-! ## Writing a document -/

/-- The names of the blocks that are written, the method's apart. -/
def blockNames : List String :=
  ["meta", "headers", "params:query", "params:path", "body:json", "example", "response", "status",
    "body"]

/-- What is written of a request document. The address and the body have
balanced braces and hold no header of a block; the name does not hold the key of
the address, since that is looked up in the whole text. -/
structure Manuscript where
  name : String
  plain_name : Plain name.toList
  addressless : ¬ "url:".toList <:+: name.toList
  method : String
  method_mem : method ∈ methods
  url : String
  url_ne_nil : url.toList ≠ []
  trimmed_url : trim url.toList = url.toList
  oneLine_url : '\n' ∉ url.toList
  balanced_url : Balanced url.toList
  free_url : ∀ title ∈ blockNames, HeaderFree title.toList url.toList
  headers : Entries
  query : Entries
  params : Entries
  body : List Char
  balanced_body : Balanced body
  free_body : ∀ title ∈ blockNames, HeaderFree title.toList body
  examples : List Example

/-- The names of the blocks that hold tables. -/
def tableTitles : List String := ["headers", "params:query", "params:path"]

/-- The block of a table in a request. -/
def Entries.block (entries : Entries) (title : String) : Block :=
  titled "\n\n" title "" (entries.text "  ".toList [])

namespace Manuscript

variable (manuscript : Manuscript)

def metaBlock : Block :=
  titled "" "meta" ""
    ("\n  ".toList ++ ("name:".toList ++ (" ".toList ++ (manuscript.name.toList ++ "\n".toList))))

def methodBlock : Block :=
  titled "\n\n" manuscript.method ""
    ("\n  ".toList ++ ("url:".toList ++ (" ".toList ++ (manuscript.url.toList ++ "\n".toList))))

def bodyBlock : Block :=
  titled "\n\n" "body:json" "" ("\n".toList ++ (manuscript.body ++ "\n".toList))

/-- The blocks of the request, in the order in which they are written. -/
def blocks : List Block :=
  [manuscript.metaBlock, manuscript.methodBlock, manuscript.headers.block "headers",
    manuscript.query.block "params:query", manuscript.params.block "params:path",
    manuscript.bodyBlock]

/-- The text of the examples, up to the end of the document. -/
def examplesText : List Char :=
  (manuscript.examples.map Example.block).flatMap Block.text ++ "\n".toList

/-- The text of a document: the blocks of the request and then the examples. -/
def text : List Char :=
  manuscript.blocks.flatMap Block.text ++ manuscript.examplesText

/-- The document that is written. -/
def document (path : Files.Path) : Document :=
  { path := path.toString
    name := manuscript.name
    method := manuscript.method
    url := manuscript.url
    body := sample (some manuscript.body)
    headers := manuscript.headers.read
    query := manuscript.query.read
    params := manuscript.params.read
    responses := firstResponses [] manuscript.examples }

end Manuscript

/-! ## The blocks of a request -/

namespace Manuscript

/-- The names by which the blocks of a request are looked up behind others. -/
def soughtNames : List String :=
  ["headers", "params:query", "params:path", "body:json", "example"]

variable (manuscript : Manuscript) {title : String}

theorem braceless_sought : ∀ title ∈ soughtNames, Braceless title.toList := by
  decide

theorem sought_subset_blockNames : ∀ title ∈ soughtNames, title ∈ blockNames := by
  decide

theorem braceless_meta : Braceless manuscript.metaBlock.body := by
  simp only [metaBlock, titled, braceless_append]
  exact ⟨by decide, by decide, by decide, manuscript.plain_name.braceless, by decide⟩

theorem absent_metaBlock (h : title ∈ soughtNames) (rest : List Char) :
    Absent (header? title.toList) manuscript.metaBlock.text rest := by
  have hheader : ∀ title ∈ soughtNames, HeaderFree title.toList
      ("".toList ++ ("meta".toList ++ ("".toList ++ [' ', '{']))) := by decide
  have hname := braceless_sought title h
  exact absent_titled hname (hheader title h)
    (headerFree_of_not_mem hname manuscript.braceless_meta.1) rest

theorem absent_methodBlock (h : title ∈ soughtNames) (rest : List Char) :
    Absent (header? title.toList) manuscript.methodBlock.text rest := by
  have hheader : ∀ method ∈ methods, ∀ title ∈ soughtNames, HeaderFree title.toList
      ("\n\n".toList ++ (method.toList ++ ("".toList ++ [' ', '{']))) := by decide
  have hfront : ∀ title ∈ soughtNames, clashes title.toList "\n  ".toList = true ∧
      clashes title.toList "url:".toList = true ∧ clashes title.toList " ".toList = true := by
    decide
  have hname := braceless_sought title h
  obtain ⟨hgap, hkey, hspace⟩ := hfront title h
  have hfree := manuscript.free_url title (sought_subset_blockNames title h)
  refine absent_titled hname (hheader _ manuscript.method_mem title h) ?_ rest
  apply HeaderFree.append_of_clashes hgap
  apply HeaderFree.append_of_clashes hkey
  apply HeaderFree.append_of_clashes hspace
  exact hfree.append_of_not_mem hname (by decide)

theorem braceless_entries (entries : Entries) : Braceless (entries.text "  ".toList []) :=
  entries.braceless_text (by decide) (by decide)

theorem absent_entries {other : String} (entries : Entries)
    (hother : other ∈ tableTitles) (h : title ∈ soughtNames) (hne : other ≠ title)
    (rest : List Char) :
    Absent (header? title.toList) (entries.block other).text rest := by
  have hheader : ∀ other ∈ tableTitles, ∀ title ∈ soughtNames,
      other ≠ title → HeaderFree title.toList
        ("\n\n".toList ++ (other.toList ++ ("".toList ++ [' ', '{']))) := by decide
  have hname := braceless_sought title h
  exact absent_titled hname (hheader other hother title h hne)
    (headerFree_of_not_mem hname (braceless_entries entries).1) rest

/-- The blocks at the front of a request: name, method and address, and then
blocks of tables. -/
def front (tables : Table Entries) : List Block :=
  manuscript.metaBlock :: manuscript.methodBlock ::
    tables.map fun entry => entry.2.block entry.1

/-- The blocks at the front are passed over in the search for a name that none
of the tables has. -/
theorem absent_front {tables : Table Entries} (h : title ∈ soughtNames)
    (htables : ∀ other ∈ tables.names, other ∈ tableTitles ∧ other ≠ title) :
    ∀ block ∈ manuscript.front tables, ∀ rest,
      Absent (header? title.toList) block.text rest := by
  unfold front
  simp only [List.forall_mem_cons]
  refine ⟨manuscript.absent_metaBlock h, manuscript.absent_methodBlock h, ?_⟩
  intro block hblock
  obtain ⟨entry, hentry, rfl⟩ := List.mem_map.mp hblock
  obtain ⟨hother, hne⟩ := htables _ (List.mem_map_of_mem hentry)
  exact absent_entries entry.2 hother h hne

theorem absent_bodyBlock (rest : List Char) :
    Absent (header? "example".toList) manuscript.bodyBlock.text rest := by
  have hfree : HeaderFree "example".toList manuscript.body :=
    manuscript.free_body "example" (by decide)
  refine absent_titled (by decide) (by decide) ?_ rest
  apply HeaderFree.append_of_clashes (by decide)
  exact hfree.append_of_not_mem (by decide) (by decide)

/-- The tables of a request, in the order of their blocks. -/
def tables : Table Entries :=
  [("headers", manuscript.headers), ("params:query", manuscript.query),
    ("params:path", manuscript.params)]

/-- No example begins in the blocks of the request. -/
theorem absent_example : ∀ block ∈ manuscript.blocks, ∀ rest,
    Absent (header? "example".toList) block.text rest := by
  have hrow : manuscript.blocks =
      manuscript.front manuscript.tables ++ [manuscript.bodyBlock] := rfl
  rw [hrow, List.forall_mem_append]
  constructor
  · exact @absent_front manuscript "example" manuscript.tables (by decide)
      (by simp [tables, Table.names, tableTitles])
  · exact List.forall_mem_singleton.mpr manuscript.absent_bodyBlock

/-! ## Looking up the blocks -/

theorem getLast?_blocks : (manuscript.blocks.flatMap Block.text).getLast? = some '}' := by
  simp [blocks, List.getLast?_append, getLast?_text]

theorem blocksFrom_examples :
    blocksFrom "example".toList (some '}') manuscript.examplesText =
      (manuscript.examples.map Example.block, "\n".toList) := by
  refine blocksFrom_row ?_ ((absent_of_clashes (by decide) _).mono fun _ => header?_of_after?)
    mayPrecede_brace
  exact List.forall_mem_map.mpr fun saved _ => saved.standing

/-- The examples are found, and nothing else is taken for one. -/
theorem bodies_example :
    bodies "example" manuscript.text = manuscript.examples.map fun saved => saved.block.body := by
  have habsent := absent_flatMap manuscript.absent_example manuscript.examplesText
  have hbodies := (@blocksFrom_absent _ _ none _ habsent).1
  rw [getLast?_blocks, Option.some_or, blocksFrom_examples] at hbodies
  rw [bodies, text, hbodies, List.map_map]
  rfl

/-- The blocks of the request stay when the examples are left out. -/
theorem withoutBlocks_example : ∃ rest,
    withoutBlocks "example" manuscript.text = manuscript.blocks.flatMap Block.text ++ rest := by
  have habsent := absent_flatMap manuscript.absent_example manuscript.examplesText
  have hwithout := (@blocksFrom_absent _ _ none _ habsent).2
  rw [getLast?_blocks, Option.some_or, blocksFrom_examples] at hwithout
  exact ⟨_, hwithout⟩

variable (rest : List Char)

theorem body?_meta : body? "meta" (manuscript.blocks.flatMap Block.text ++ rest) =
    some manuscript.metaBlock.body := by
  have hstanding : manuscript.metaBlock.Standing "meta".toList :=
    standing_titled (by decide) (by decide) (by decide) manuscript.braceless_meta.balanced
  exact @body?_row _ _ [] manuscript.blocks.tail (List.forall_mem_nil _) hstanding rest

theorem standing_entries (entries : Entries) (h : title ∈ tableTitles) :
    (entries.block title).Standing title.toList := by
  have hgap : ∀ title ∈ tableTitles, clashes title.toList "\n\n".toList = true := by decide
  exact standing_titled (hgap title h) (by decide) (by decide) (braceless_entries entries).balanced

/-- A block of entries is read as its table. -/
theorem blockEntries_row {skipped later : List Block} (entries : Entries) (h : title ∈ tableTitles)
    (hskipped : ∀ other ∈ skipped, ∀ rest, Absent (header? title.toList) other.text rest) :
    blockEntries title ((skipped ++ entries.block title :: later).flatMap Block.text ++ rest) =
      .ok entries.read := by
  rw [blockEntries, body?_row hskipped (standing_entries entries h)]
  exact entries.entries?_text (forall_mem_of_all (by decide)) (forall_mem_of_all (by decide))

theorem blockEntries_headers :
    blockEntries "headers" (manuscript.blocks.flatMap Block.text ++ rest) =
      .ok manuscript.headers.read :=
  @blockEntries_row _ rest _ (manuscript.blocks.drop 3) manuscript.headers (by decide)
    (@absent_front manuscript _ [] (by decide) (List.forall_mem_nil _))

theorem blockEntries_query :
    blockEntries "params:query" (manuscript.blocks.flatMap Block.text ++ rest) =
      .ok manuscript.query.read :=
  @blockEntries_row _ rest _ (manuscript.blocks.drop 4) manuscript.query (by decide)
    (@absent_front manuscript _ (manuscript.tables.take 1) (by decide)
      (by simp [tables, Table.names, tableTitles]))

theorem blockEntries_params :
    blockEntries "params:path" (manuscript.blocks.flatMap Block.text ++ rest) =
      .ok manuscript.params.read :=
  @blockEntries_row _ rest _ (manuscript.blocks.drop 5) manuscript.params (by decide)
    (@absent_front manuscript _ (manuscript.tables.take 2) (by decide)
      (by simp [tables, Table.names, tableTitles]))

theorem body?_body : body? "body:json" (manuscript.blocks.flatMap Block.text ++ rest) =
    some manuscript.bodyBlock.body := by
  have hnewline : Balanced "\n".toList := Braceless.balanced (by decide)
  have hstanding : manuscript.bodyBlock.Standing "body:json".toList :=
    standing_titled (by decide) (by decide) (by decide)
      (hnewline.append (manuscript.balanced_body.append hnewline))
  have hfront := @absent_front manuscript "body:json" manuscript.tables (by decide)
    (by simp [tables, Table.names, tableTitles])
  exact @body?_row _ _ _ [] hfront hstanding rest

/-! ## Name, method and address -/

/-- The value of a key is the rest of its line. -/
theorem textAfter?_line {key : String} {before value rest : List Char}
    (hbefore : Absent (after? key.toList) before
      (key.toList ++ (" ".toList ++ (value ++ '\n' :: rest))))
    (hne : value ≠ []) (htrim : trim value = value) (hline : '\n' ∉ value) :
    textAfter? key (before ++ (key.toList ++ (" ".toList ++ (value ++ '\n' :: rest)))) =
      some (String.ofList value) := by
  have hdrop : dropBlank (" ".toList ++ (value ++ '\n' :: rest)) = value ++ '\n' :: rest :=
    dropBlank_append (dropBlank_of_trim htrim) hne
  have hwithin : ∀ c ∈ value, decide (c ≠ '\n') = true := fun c hc =>
    decide_eq_true (ne_of_mem_of_not_mem hc hline)
  have htake : (value ++ '\n' :: rest).takeWhile (· ≠ '\n') = value :=
    takeWhile_run hwithin (by simp)
  refine firstAt?_after? hbefore ?_
  rw [hdrop]
  split
  next hnil => simp at hnil
  next => rw [htake, htrim]

theorem documentName_text (path : Files.Path) :
    documentName path manuscript.text = manuscript.name := by
  have hplain := manuscript.plain_name
  have hline : '\n' ∉ manuscript.name.toList := fun hmem =>
    absurd (hplain.oneLine _ hmem) (by decide)
  have hname := @textAfter?_line "name:" "\n  ".toList manuscript.name.toList []
    (absent_of_clashes (by decide) _) hplain.ne_nil hplain.trimmed hline
  rw [documentName, text, body?_meta, Option.bind_some]
  rw [String.ofList_toList] at hname
  exact congrArg (Option.getD · path.stem) hname

/-- The text up to the address. -/
theorem text_eq : ∃ rest, manuscript.text =
    "meta \x7b\n  name: ".toList ++ (manuscript.name.toList ++ ("\n\x7d\n\n".toList ++
      (manuscript.method.toList ++ " \x7b\n  ".toList))) ++
        ("url:".toList ++ (" ".toList ++ (manuscript.url.toList ++ '\n' :: rest))) := by
  refine ⟨'}' :: ((manuscript.blocks.drop 2).flatMap Block.text ++ manuscript.examplesText), ?_⟩
  simp [text, blocks, metaBlock, methodBlock, titled, Block.text]

theorem url_text : textAfter? "url:" manuscript.text = some manuscript.url := by
  obtain ⟨rest, htext⟩ := manuscript.text_eq
  have hmethod : ∀ method ∈ methods,
      clashes "url:".toList (method.toList ++ " \x7b\n  ".toList) = true := by decide
  rw [htext, textAfter?_line _ manuscript.url_ne_nil manuscript.trimmed_url manuscript.oneLine_url,
    String.ofList_toList]
  -- Only the name could hold the key, and it does not.
  apply absent_append.mpr ⟨absent_of_clashes (by decide) _, ?_⟩
  apply absent_append.mpr ⟨absent_of_not_within (by decide) manuscript.addressless _, ?_⟩
  apply absent_append.mpr ⟨absent_of_clashes (by decide) _, ?_⟩
  exact absent_of_clashes (hmethod _ manuscript.method_mem) _

theorem methodHere?_eq_none {c : Char} (h : ∀ method ∈ methods, method.toList.head? ≠ some c)
    (text : List Char) : methodHere? (c :: text) = none := by
  unfold methodHere?
  rw [List.find?_eq_none]
  intro method hmethod
  have hne : ∀ method ∈ methods, method.toList ≠ [] := by decide
  have hnone : after? method.toList (c :: text) = none := by
    rw [after?_eq_none_iff]
    rintro ⟨rest, hrest⟩
    obtain ⟨d, letters, hlist⟩ := List.exists_cons_of_ne_nil (hne method hmethod)
    rw [hlist] at hrest
    cases hrest
    exact h method hmethod (by rw [hlist]; rfl)
  rw [hnone]
  exact Bool.false_ne_true

/-- A line at whose start no method stands is passed over. -/
theorem method?_line {line rest : List Char} {lineStart : Bool} (hline : '\n' ∉ line)
    (hhere : lineStart = true → methodHere? (line ++ '\n' :: rest) = none) :
    method? lineStart (line ++ '\n' :: rest) = method? true rest := by
  induction line generalizing lineStart with
  | nil => cases lineStart <;> simp_all [method?]
  | cons c line ih =>
      simp only [List.mem_cons, not_or] at hline
      have hstart : (if lineStart = true then methodHere? (c :: (line ++ '\n' :: rest)) else none) =
          none := by
        split
        next hstart => exact hhere hstart
        next => rfl
      have hnot : decide (c = '\n') = false := decide_eq_false (Ne.symm hline.1)
      rw [List.cons_append, method?, hstart, hnot]
      exact ih hline.2 (fun hfalse => absurd hfalse Bool.false_ne_true)

theorem methodHere?_method : ∀ method ∈ methods, ∀ rest,
    methodHere? (method.toList ++ (" \x7b".toList ++ rest)) = some method := by
  intro method hmethod rest
  simp only [methods, List.mem_cons, List.not_mem_nil, or_false] at hmethod
  obtain rfl | rfl | rfl | rfl | rfl | rfl | rfl := hmethod <;> rfl

theorem method?_of_methodHere? {text : List Char} {method : String}
    (h : methodHere? text = some method) : method? true text = some method := by
  cases text with
  | nil =>
      have hnil : methodHere? [] = none := by decide
      rw [hnil] at h
      cases h
  | cons c text => rw [method?, if_pos rfl, h]

theorem method?_text : method? true manuscript.text = some manuscript.method := by
  obtain ⟨rest, htext⟩ := manuscript.text_eq
  have hname : '\n' ∉ "  name: ".toList ++ manuscript.name.toList := by
    simp only [List.mem_append, not_or]
    exact ⟨by decide, fun hmem => absurd (manuscript.plain_name.oneLine _ hmem) (by decide)⟩
  have hlines : manuscript.text = "meta \x7b".toList ++ '\n' ::
      (("  name: ".toList ++ manuscript.name.toList) ++ '\n' :: (['}'] ++ '\n' :: ([] ++ '\n' ::
        (manuscript.method.toList ++ (" \x7b".toList ++ ("\n  url: ".toList ++
          (manuscript.url.toList ++ '\n' :: rest))))))) := by
    rw [htext]
    simp
  rw [hlines, method?_line (by decide) fun _ => methodHere?_eq_none (by decide) _,
    method?_line hname fun _ => methodHere?_eq_none (by decide) _,
    method?_line (by decide) fun _ => methodHere?_eq_none (by decide) _,
    method?_line (by decide) fun _ => methodHere?_eq_none (by decide) _]
  exact method?_of_methodHere? (methodHere?_method _ manuscript.method_mem _)

/-! ## The document -/

/-- Blanks around a sample do not matter. -/
theorem sample_of_trim {text other : List Char} (h : trim text = trim other) :
    sample (some text) = sample (some other) := by
  have hparse : Json.Relaxed.parse? text = Json.Relaxed.parse? other := by
    unfold Json.Relaxed.parse?
    rw [h]
  rw [sample, sample, Option.bind_some, Option.bind_some, hparse]

theorem sample_bodyBlock :
    sample (some manuscript.bodyBlock.body) = sample (some manuscript.body) := by
  apply sample_of_trim
  have hnewline : ∀ c ∈ "\n".toList, isBlank c = true := forall_mem_of_all (by decide)
  rw [bodyBlock, titled, trim_append_left hnewline, trim_append_right hnewline]

/-- All but the responses is read back from any text of a document. -/
theorem read_eq (path : Files.Path) :
    Document.read path manuscript.text =
      (responsesOf [] (manuscript.examples.map fun saved => saved.block.body)).map
        fun responses => { manuscript.document path with responses := responses } := by
  obtain ⟨rest, hrest⟩ := manuscript.withoutBlocks_example
  rw [Document.read, bodies_example]
  simp only [hrest, blockEntries_headers, blockEntries_query, blockEntries_params, body?_body,
    documentName_text, method?_text, url_text, sample_bodyBlock, ok_bind, Option.getD_some]
  cases responsesOf [] (manuscript.examples.map fun saved => saved.block.body) <;> rfl

/-- Reading the text of a document gives the document back if every status can
be read. One status of too many digits, and the reading is refused. -/
theorem read_text (path : Files.Path) :
    ((∀ saved ∈ manuscript.examples, integerFits saved.status = true) →
      Document.read path manuscript.text = .ok (manuscript.document path)) ∧
    ((∃ saved ∈ manuscript.examples, integerFits saved.status = false) →
      ∃ refusal, Document.read path manuscript.text = .error refusal) := by
  rw [read_eq]
  constructor
  · intro hfits
    rw [responsesOf_of_fits hfits]
    rfl
  · intro hlong
    obtain ⟨refusal, hrefusal⟩ := responsesOf_of_not_fits hlong []
    exact ⟨refusal, by rw [hrefusal]; rfl⟩

end Manuscript

/-! ## Two documents -/

/-- A table without entries. -/
def Entries.none : Entries where
  table := []
  nodup := by decide
  keys := by decide
  values := by decide

/-- An example of a status, without headers and content. -/
def bareExample (status : Nat) (h : 0 < status) : Example where
  status := status
  status_pos := h
  headers := .none
  body := []
  balanced := by decide
  unquoted := by decide
  open_end := by decide

theorem bareExample_status (status : Nat) (h : 0 < status) :
    (bareExample status h).status = status := rfl

/-- A greeting of which two examples have the same status. -/
def greeting : Manuscript where
  name := "Greet"
  plain_name := by decide
  addressless := by decide
  method := "post"
  method_mem := by decide
  url := "\x7b\x7bhost\x7d\x7d/greet/:who?loud=true"
  url_ne_nil := by decide
  trimmed_url := by decide
  oneLine_url := by decide
  balanced_url := by decide
  free_url := by decide
  headers := ⟨[("accept", .str "application/json")], by decide, by decide, by decide⟩
  query := ⟨[("loud", .bool true), ("times", .int 3)], by decide, by decide, by decide +kernel⟩
  params := ⟨[("who", .str "you")], by decide, by decide, by decide⟩
  body := "\x7b\"to\": \"you\"\x7d".toList
  balanced_body := by decide
  free_body := by decide
  examples := [bareExample 200 (by decide),
    { bareExample 404 (by decide) with
      body := "\x7b\"missing\": true\x7d".toList
      balanced := by decide
      unquoted := by decide
      open_end := by decide },
    bareExample 200 (by decide)]

theorem greeting_read :
    (∀ saved ∈ greeting.examples, integerFits saved.status = true) ∧
      Document.read (.ofString "greet.bru") greeting.text =
        .ok (greeting.document (.ofString "greet.bru")) ∧
      greeting.document (.ofString "greet.bru") =
        { path := "greet.bru"
          name := "Greet"
          method := "post"
          url := "\x7b\x7bhost\x7d\x7d/greet/:who?loud=true"
          body := .obj [("to", .str "you")]
          headers := some [("accept", .str "application/json")]
          query := some [("loud", .bool true), ("times", .int 3)]
          params := some [("who", .str "you")]
          responses := [⟨200, by decide, .null, none⟩,
            ⟨404, by decide, .obj [("missing", .bool true)], none⟩] } := by
  have hfits : ∀ saved ∈ greeting.examples, integerFits saved.status = true := by
    decide +kernel
  refine ⟨hfits, (greeting.read_text (.ofString "greet.bru")).1 hfits, ?_⟩
  decide +kernel

/-- A greeting whose one status has a digit too many. -/
def overlong : Manuscript :=
  { greeting with examples := [bareExample (10 ^ digitLimit) (Nat.pow_pos (by decide))] }

/-- Its text cannot be read at all. -/
theorem overlong_unread :
    ∃ refusal, Document.read (.ofString "greet.bru") overlong.text = .error refusal := by
  have hlong : ∃ saved ∈ overlong.examples, integerFits saved.status = false := by
    refine ⟨_, List.mem_singleton_self _, ?_⟩
    rw [bareExample_status]
    exact integerFits_of_le (Nat.le_refl _)
  obtain ⟨refusal, hrefusal⟩ := responsesOf_of_not_fits hlong []
  rw [overlong.read_eq, hrefusal]
  exact ⟨refusal, rfl⟩

end RequestShapes.Request
