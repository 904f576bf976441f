import RequestShapes.Files.Path
import RequestShapes.Json.Relaxed
import RequestShapes.Request.Block
import RequestShapes.Request.Document
import RequestShapes.Request.Entry

/-!
# Reading request documents

The parts of a document are looked up by block. Examples are read first and
then left out, so nothing inside of them is taken for a part of the request;
name, method and address are looked up in the whole text. A part that does not
fit is absent. Only integers of too many digits make a document unreadable.
-/

namespace RequestShapes.Request

open Text

/-- The text after a key, up to the end of its line. Blanks after the key are
passed over, line ends included; a key that only blanks follow counts if one of
them is no line feed, and then says nothing. -/
def textAfter? (key : String) (text : List Char) : Option String :=
  firstAt? (fun text => do
    let rest ← after? key.toList text
    match dropBlank rest with
    | [] => if rest.any (· ≠ '\n') then some "" else none
    | content => some (String.ofList (trim (content.takeWhile (· ≠ '\n'))))) text

/-- The request methods. -/
def methods : List String := ["get", "post", "put", "delete", "patch", "options", "head"]

/-- The method whose block begins right here. -/
def methodHere? (text : List Char) : Option String :=
  methods.find? fun method =>
    match after? method.toList text with
    | some rest => (dropBlank rest).head? = some '{'
    | none => false

/-- The method whose block begins first at the start of a line. -/
def method? (lineStart : Bool) : List Char → Option String
  | [] => none
  | c :: text =>
      match (if lineStart then methodHere? (c :: text) else none) with
      | some method => some method
      | none => method? (c = '\n') text

/-- The digits after a key and blanks. -/
def digitsAfter? (key : String) (text : List Char) : Option (List Char) :=
  firstAt? (fun text => do
    let rest ← after? key.toList text
    match (dropBlank rest).takeWhile isDigit with
    | [] => none
    | digits => some digits) text

/-- The text between two equal quotes after a key and blanks. -/
def quotedAfter? (key quote : String) (text : List Char) : Option (List Char) :=
  firstAt? (fun text => do
    let rest ← after? key.toList text
    let inside ← after? quote.toList (dropBlank rest)
    (cut? quote.toList inside).map Prod.fst) text

/-- Everything after a key. -/
def allAfter? (key : String) (text : List Char) : Option (List Char) :=
  (cut? key.toList text).map Prod.snd

/-- The content of an example body: between three single quotes, else between
double quotes, else all the rest. -/
def content? (text : List Char) : Option (List Char) :=
  ((quotedAfter? "content:" "'''" text).or (quotedAfter? "content:" "\"" text)).or
    (allAfter? "content:" text)

/-- The entries of a block, none if the block is absent. -/
def blockEntries (name : String) (text : List Char) :
    Except TooManyDigits (Option (Table Json)) :=
  match body? name text with
  | none => .ok none
  | some block => entries? block

/-- The status code of a response. -/
def status? (response : List Char) : Except TooManyDigits (Option Nat) :=
  match (body? "status" response).bind (digitsAfter? "code:") with
  | none => .ok none
  | some digits => (readInteger false digits).map fun status => some status.natAbs

/-- The sample value of relaxed JSON text, null if there is none. -/
def sample (text : Option (List Char)) : Json :=
  (text.bind Json.Relaxed.parse?).getD .null

/-- The response of an example, unless it lacks one, or its status is absent,
zero or already seen. -/
def response? (seen : List Nat) (example_ : List Char) :
    Except TooManyDigits (Option Response) :=
  match body? "response" example_ with
  | none => .ok none
  | some response => do
      match ← status? response with
      | none => .ok none
      | some status =>
          if h : 0 < status ∧ status ∉ seen then do
            let headers ← blockEntries "headers" response
            .ok (some ⟨status, h.1, sample ((body? "body" response).bind content?), headers⟩)
          else .ok none

/-- The responses of examples, the first of each status. -/
def responsesOf (seen : List Nat) : List (List Char) → Except TooManyDigits (List Response)
  | [] => .ok []
  | example_ :: examples => do
      match ← response? seen example_ with
      | none => responsesOf seen examples
      | some response =>
          .ok (response :: (← responsesOf (response.status :: seen) examples))

/-- The name of a document: what its meta block says, or else the stem of its
path. -/
def documentName (path : Files.Path) (text : List Char) : String :=
  ((body? "meta" text).bind (textAfter? "name:")).getD path.stem

/-- The document of a text. -/
def Document.read (path : Files.Path) (text : List Char) : Except TooManyDigits Document := do
  let responses ← responsesOf [] (bodies "example" text)
  let request := withoutBlocks "example" text
  let headers ← blockEntries "headers" request
  let query ← blockEntries "params:query" request
  let params ← blockEntries "params:path" request
  .ok
    { path := path.toString
      name := documentName path text
      method := (method? true text).getD "unknown"
      url := (textAfter? "url:" text).getD ""
      body := sample (body? "body:json" request)
      headers := headers
      query := query
      params := params
      responses := responses }

end RequestShapes.Request
