import RequestShapes.Proofs.Json.Relaxed
import RequestShapes.Proofs.Request.Entries
import RequestShapes.Proofs.Request.Reading

/-!
# The samples of a document that was read

Whatever a text holds, the samples that are read from it have no name twice in an
object, and the tables can be written. A body can be written unless a hexadecimal
integer stands in the text it is read from.
-/

namespace RequestShapes.Request

open Json.Relaxed (Regular Unmarked suffix_of_after?)
open Schema (Distinct bind_eq_ok)
open Text

/-! ## Tables -/

section Tables

variable {text : List Char}

/-- The value of an entry is a scalar that can be written. -/
theorem valueOf_spec {value : Json} (h : valueOf text = .ok value) :
    value.isContainer = false ∧ value.writable = true := by
  unfold valueOf at h
  split at h
  next =>
    cases h
    exact ⟨rfl, rfl⟩
  next =>
    split at h
    next =>
      cases h
      exact ⟨rfl, rfl⟩
    next =>
      split at h
      next numeral hnumeral =>
        refine Numeral.value_spec (fun c hc => ?_) h
        rw [(numeral?_eq_some hnumeral).2.1] at hc
        exact List.mem_takeWhile_imp hc
      next =>
        cases h
        exact ⟨rfl, rfl⟩

theorem entriesOf_spec {lines : List (List Char)} {entries : List (String × Json)}
    (h : entriesOf lines = .ok entries) :
    ∀ entry ∈ entries, entry.2.isContainer = false ∧ entry.2.writable = true := by
  induction lines generalizing entries with
  | nil =>
      cases h
      exact List.forall_mem_nil _
  | cons line lines ih =>
      rw [entriesOf] at h
      split at h
      next => exact ih h
      next key value _ =>
        obtain ⟨read, hvalue, h⟩ := bind_eq_ok h
        obtain ⟨rest, hrest, h⟩ := bind_eq_ok h
        cases h
        exact List.forall_mem_cons.mpr ⟨valueOf_spec hvalue, ih hrest⟩

/-- A table is plain if it has no name twice and its values are scalars that can
be written. An absent table is. -/
def PlainTable (table : Option (Table Json)) : Prop :=
  ∀ entries, table = some entries → (Table.names entries).Nodup ∧
    ∀ entry ∈ entries, entry.2.isContainer = false ∧ entry.2.writable = true

theorem entries?_plain {block : List Char} {table : Option (Table Json)}
    (h : entries? block = .ok table) : PlainTable table := by
  obtain ⟨entries, hentries, h⟩ := bind_eq_ok h
  split at h
  next =>
    cases h
    exact fun _ heq => nomatch heq
  next =>
    cases h
    rintro _ ⟨⟩
    exact ⟨Table.nodup_names_ofEntries, fun entry hentry =>
      entriesOf_spec hentries entry (Table.mem_of_mem_ofEntries hentry)⟩

theorem blockEntries_plain {name : String} {table : Option (Table Json)}
    (h : blockEntries name text = .ok table) : PlainTable table := by
  unfold blockEntries at h
  split at h
  next =>
    cases h
    exact fun _ heq => nomatch heq
  next => exact entries?_plain h

variable {table : Option (Table Json)}

theorem PlainTable.distinct (h : PlainTable table) : Distinct (tableValue table) := by
  cases table with
  | none => exact .scalar rfl
  | some entries =>
      obtain ⟨hnodup, hvalues⟩ := h entries rfl
      exact .obj hnodup fun entry hentry => .scalar (hvalues entry hentry).1

theorem PlainTable.writable (h : PlainTable table) : (tableValue table).writable = true := by
  cases table with
  | none => rfl
  | some entries =>
      obtain ⟨-, hvalues⟩ := h entries rfl
      exact Json.membersWritable_iff.mpr fun entry hentry => (hvalues entry hentry).2

end Tables

/-! ## Bodies -/

section Parts

variable {text part : List Char}

theorem isInfix_trim (text : List Char) : trim text <:+: text := by
  have hfront : dropBlank text <:+ text := List.dropWhile_suffix _
  have hback : dropBlank (dropBlank text).reverse <:+ (dropBlank text).reverse :=
    List.dropWhile_suffix _
  have htrim : trim text <+: dropBlank text := by
    simpa [trim] using List.reverse_prefix.mpr hback
  exact htrim.isInfix.trans hfront.isInfix

/-- What a search finds, its test finds at the start of an end of the text. -/
theorem firstAt?_eq_some {α : Type} {test : List Char → Option α} {found : α}
    (h : firstAt? test text = some found) : ∃ left, left <:+ text ∧ test left = some found := by
  induction text with
  | nil => exact ⟨[], List.suffix_rfl, h⟩
  | cons c text ih =>
      obtain hhere | ⟨-, hlater⟩ := Option.or_eq_some_iff.mp h
      · exact ⟨c :: text, List.suffix_rfl, hhere⟩
      · obtain ⟨left, hleft, htest⟩ := ih hlater
        exact ⟨left, hleft.trans (List.suffix_cons c text), htest⟩

theorem cut?_eq_some {separator before rest : List Char}
    (h : cut? separator text = some (before, rest)) : before ++ (separator ++ rest) = text := by
  induction text generalizing before with
  | nil =>
      obtain ⟨later, hafter, heq⟩ := Option.map_eq_some_iff.mp h
      cases heq
      exact (after?_eq_some hafter).symm
  | cons c text ih =>
      rw [cut?] at h
      split at h
      next later hafter =>
        cases h
        exact (after?_eq_some hafter).symm
      next =>
        obtain ⟨⟨front, later⟩, hcut, heq⟩ := Option.map_eq_some_iff.mp h
        cases heq
        rw [List.cons_append, ih hcut]

/-- The body of a block stands in the text. -/
theorem isInfix_of_body? {name : String} (h : body? name text = some part) : part <:+: text := by
  obtain ⟨⟨block, rest⟩, hfound, rfl⟩ := Option.map_eq_some_iff.mp h
  refine ⟨block.before ++ block.header, '}' :: rest, ?_⟩
  simpa using firstBlock?_append hfound

theorem isInfix_of_quotedAfter? {key quote : String} (h : quotedAfter? key quote text = some part) :
    part <:+: text := by
  obtain ⟨left, hleft, htest⟩ := firstAt?_eq_some h
  simp only [Option.bind_eq_bind, Option.bind_eq_some_iff, Option.map_eq_some_iff] at htest
  obtain ⟨later, hkey, inside, hquote, ⟨before, rest⟩, hcut, rfl⟩ := htest
  have hinside : inside <:+ text :=
    ((suffix_of_after? hquote).trans (List.dropWhile_suffix _)).trans
      ((suffix_of_after? hkey).trans hleft)
  have hbefore : before <:+: inside := ⟨[], quote.toList ++ rest, cut?_eq_some hcut⟩
  exact hbefore.trans hinside.isInfix

theorem isInfix_of_content? (h : content? text = some part) : part <:+: text := by
  simp only [content?, Option.or_eq_some_iff] at h
  obtain (hthree | ⟨-, htwo⟩) | ⟨-, hbare⟩ := h
  · exact isInfix_of_quotedAfter? hthree
  · exact isInfix_of_quotedAfter? htwo
  · obtain ⟨⟨before, rest⟩, hcut, rfl⟩ := Option.map_eq_some_iff.mp hbare
    exact ⟨before ++ "content:".toList, [], by simpa using cut?_eq_some hcut⟩

/-- A sample that is read from a part of a text is regular for it. -/
theorem sample_regular {body : Option (List Char)} (hbody : ∀ content, body = some content →
    content <:+: text) : Regular text (sample body) := by
  rw [sample]
  cases hread : body.bind Json.Relaxed.parse? with
  | none => exact ⟨.scalar rfl, fun _ => rfl⟩
  | some value =>
      obtain ⟨content, rfl, hparse⟩ := Option.bind_eq_some_iff.mp hread
      have hregular := Json.Relaxed.parse?_regular hparse
      exact ⟨hregular.distinct, fun hunmarked => hregular.writable
        (hunmarked.mono ((isInfix_trim content).trans (hbody content rfl)))⟩

end Parts

/-! ## Documents -/

/-- The response of an example has a body that is regular for the text of the
example and headers that are plain. -/
theorem response?_spec {seen : List Nat} {text : List Char} {response : Response}
    (h : response? seen text = .ok (some response)) :
    Regular text response.body ∧ PlainTable response.headers := by
  unfold response? at h
  split at h
  next => cases h
  next inside hinside =>
    obtain ⟨status, _, h⟩ := bind_eq_ok h
    split at h
    next => cases h
    next =>
      split at h
      next =>
        obtain ⟨headers, hheaders, h⟩ := bind_eq_ok h
        cases h
        refine ⟨sample_regular fun content hcontent => ?_, blockEntries_plain hheaders⟩
        obtain ⟨body, hbody, hcontent⟩ := Option.bind_eq_some_iff.mp hcontent
        exact ((isInfix_of_content? hcontent).trans (isInfix_of_body? hbody)).trans
          (isInfix_of_body? hinside)
      next => cases h

theorem responsesOf_spec {seen : List Nat} {texts : List (List Char)} {responses : List Response}
    (h : responsesOf seen texts = .ok responses) :
    ∀ response ∈ responses,
      (∃ text ∈ texts, Regular text response.body) ∧ PlainTable response.headers := by
  induction texts generalizing seen responses with
  | nil =>
      cases h
      exact List.forall_mem_nil _
  | cons text texts ih =>
      -- The examples behind this one are read alike, whether its status was new or not.
      have hlater : ∀ {seen : List Nat} {rest : List Response}, responsesOf seen texts = .ok rest →
          ∀ response ∈ rest, (∃ other ∈ text :: texts, Regular other response.body) ∧
            PlainTable response.headers := by
        intro seen rest hrest response hmem
        obtain ⟨⟨other, hother, hregular⟩, hplain⟩ := ih hrest response hmem
        exact ⟨⟨other, List.mem_cons_of_mem _ hother, hregular⟩, hplain⟩
      rw [responsesOf] at h
      obtain ⟨found, hfound, h⟩ := bind_eq_ok h
      cases found with
      | none => exact hlater h
      | some response =>
          obtain ⟨rest, hrest, h⟩ := bind_eq_ok h
          cases h
          obtain ⟨hregular, hplain⟩ := response?_spec hfound
          exact List.forall_mem_cons.mpr
            ⟨⟨⟨text, List.mem_cons_self, hregular⟩, hplain⟩, hlater hrest⟩

/-- What is known of the samples of a document from the text it was read from. -/
structure Document.Sound (document : Document) (text : List Char) : Prop where
  body : Regular (withoutBlocks "example" text) document.body
  headers : PlainTable document.headers
  query : PlainTable document.query
  params : PlainTable document.params
  responses : ∀ response ∈ document.responses,
    (∃ example_ ∈ bodies "example" text, Regular example_ response.body) ∧
      PlainTable response.headers

theorem Document.sound_of_read {path : Files.Path} {text : List Char} {document : Document}
    (h : Document.read path text = .ok document) : document.Sound text := by
  obtain ⟨responses, headers, query, params, hresponses, hheaders, hquery, hparams, rfl⟩ :=
    read_eq_ok_iff.mp h
  exact
    { body := sample_regular fun content => isInfix_of_body?
      headers := blockEntries_plain hheaders
      query := blockEntries_plain hquery
      params := blockEntries_plain hparams
      responses := responsesOf_spec hresponses }

end RequestShapes.Request
