import RequestShapes.Proofs.Schema.Forms
import RequestShapes.Proofs.Schema.Lifts
import RequestShapes.Request.Reader

/-!
# What is read from a document

A document keeps the first response of each status.
-/

namespace RequestShapes.Request

open Schema (bind_eq_ok ok_bind)

/-- A response that is kept has a status that was not seen. -/
theorem status_not_mem {seen : List Nat} {text : List Char} {response : Response}
    (h : response? seen text = .ok (some response)) : response.status ∉ seen := by
  rw [response?] at h
  split at h
  next => cases h
  next =>
    obtain ⟨status, _, h⟩ := bind_eq_ok h
    split at h
    next => cases h
    next status =>
      split at h
      next hnew =>
        obtain ⟨headers, _, h⟩ := bind_eq_ok h
        cases h
        exact hnew.2
      next => cases h

/-- The statuses of responses are distinct, and none was seen. -/
theorem responsesOf_distinct {seen : List Nat} {texts : List (List Char)} {responses : List Response}
    (h : responsesOf seen texts = .ok responses) :
    (responses.map Response.status).Nodup ∧ ∀ response ∈ responses, response.status ∉ seen := by
  induction texts generalizing seen responses with
  | nil =>
      cases h
      exact ⟨List.nodup_nil, fun _ hmem => (nomatch hmem)⟩
  | cons text texts ih =>
      rw [responsesOf] at h
      obtain ⟨found, hfound, h⟩ := bind_eq_ok h
      cases found with
      | none => exact ih h
      | some response =>
          obtain ⟨rest, hrest, heq⟩ := bind_eq_ok h
          cases heq
          obtain ⟨hnodup, hnew⟩ := ih hrest
          refine ⟨List.nodup_cons.mpr ⟨fun hmem => ?_, hnodup⟩,
            List.forall_mem_cons.mpr ⟨status_not_mem hfound, fun other hmem hseen =>
              hnew other hmem (List.mem_cons_of_mem _ hseen)⟩⟩
          obtain ⟨other, hother, heq⟩ := List.mem_map.mp hmem
          exact hnew other hother (heq ▸ List.mem_cons_self)

/-- The document of a text with its parts, each read from what is left without
the examples, and the responses read from the examples. -/
theorem Document.read_eq_ok_iff {path : Files.Path} {text : List Char} {document : Document} :
    Document.read path text = .ok document ↔
      ∃ responses headers query params,
        responsesOf [] (bodies "example" text) = .ok responses ∧
        blockEntries "headers" (withoutBlocks "example" text) = .ok headers ∧
        blockEntries "params:query" (withoutBlocks "example" text) = .ok query ∧
        blockEntries "params:path" (withoutBlocks "example" text) = .ok params ∧
        document =
          { path := path.toString
            name := documentName path text
            method := (method? true text).getD "unknown"
            url := (textAfter? "url:" text).getD ""
            body := sample (body? "body:json" (withoutBlocks "example" text))
            headers := headers
            query := query
            params := params
            responses := responses } := by
  constructor
  · intro h
    obtain ⟨responses, hresponses, h⟩ := bind_eq_ok h
    obtain ⟨headers, hheaders, h⟩ := bind_eq_ok h
    obtain ⟨query, hquery, h⟩ := bind_eq_ok h
    obtain ⟨params, hparams, h⟩ := bind_eq_ok h
    cases h
    exact ⟨responses, headers, query, params, hresponses, hheaders, hquery, hparams, rfl⟩
  · rintro ⟨responses, headers, query, params, hresponses, hheaders, hquery, hparams, rfl⟩
    simp only [Document.read, hresponses, hheaders, hquery, hparams, ok_bind]

theorem method?_mem {lineStart : Bool} {text : List Char} {method : String}
    (h : method? lineStart text = some method) : method ∈ methods := by
  induction text generalizing lineStart with
  | nil => cases h
  | cons c text ih =>
      rw [method?] at h
      split at h
      next found hfound =>
        cases h
        split at hfound
        · exact List.mem_of_find?_eq_some hfound
        · cases hfound
      next => exact ih h

/-- The method of a document is one of the request methods, or unknown. -/
theorem Document.method_mem {path : Files.Path} {text : List Char} {document : Document}
    (h : Document.read path text = .ok document) : document.method ∈ "unknown" :: methods := by
  obtain ⟨_, _, _, _, -, -, -, -, rfl⟩ := read_eq_ok_iff.mp h
  cases hmethod : method? true text with
  | none => exact List.mem_cons_self
  | some method => exact List.mem_cons_of_mem _ (method?_mem hmethod)

/-- A document that was read has at most one response of each status. -/
theorem Document.nodup_statuses {path : Files.Path} {text : List Char} {document : Document}
    (h : Document.read path text = .ok document) :
    (document.responses.map Response.status).Nodup := by
  obtain ⟨responses, headers, query, params, hresponses, -, -, -, rfl⟩ := read_eq_ok_iff.mp h
  exact (responsesOf_distinct hresponses).1

end RequestShapes.Request
