import RequestShapes.Proofs.Files.Preparing
import RequestShapes.Proofs.Generation

/-!
# What a generation leaves behind

After a generation without a fault the output directory holds the last module
of every name and, if it was to be kept, what it held before. Everywhere else
the tree is as it was, apart from directories on the way to the output.

A way that goes down and up again makes directories that do not lead to the
output, and these may stand in it.
-/

namespace RequestShapes.Generation

open Endpoint (Module)
open Files (Entry Location Path Tree)
open Request (Document)
open Schema (bind_eq_ok)

variable {settings : Settings} {verbose : Bool} {output : Path} {generation : Generation}

/-! ## Modules -/

/-- A name that is one component of a path and leads into a directory. -/
def IsComponent (name : String) : Prop :=
  name ≠ "" ∧ name ≠ "." ∧ name ≠ ".." ∧ '/' ∉ name.toList

instance (name : String) : Decidable (IsComponent name) :=
  inferInstanceAs (Decidable (_ ∧ _ ∧ _ ∧ _))

theorem IsComponent.placeIn {name : String} (h : IsComponent name) (directory : Location) :
    placeIn directory name = directory ++ [name] := by
  obtain ⟨hempty, hpoint, hup, _⟩ := h
  rw [Generation.placeIn, if_neg (not_or.mpr ⟨hempty, hpoint⟩), if_neg hup]

end RequestShapes.Generation
