/-!
Walks through selections.

A fragment stands for its selections wherever it is used, but a walk enters it at its first use only.
So a walk is told which fragments were entered before it, and says which ones are entered after it.
-/

namespace GraphQL

/-- What a walk comes across, and the fragments entered so far, after those entered before. -/
abbrev Walk (α : Type) := List String → List α × List String

namespace Walk

variable {α : Type}

/-- Comes across these things and enters no fragment. -/
def emit (as : List α) : Walk α := fun entered => (as, entered)

/-- One walk and then another. -/
def append (w v : Walk α) : Walk α := fun entered =>
  let (as, entered) := w entered
  let (bs, entered) := v entered
  (as ++ bs, entered)

instance : Append (Walk α) := ⟨append⟩

/-- Enters a fragment by a walk, unless it was entered before. -/
def once (name : String) (w : Walk α) : Walk α := fun entered =>
  if entered.contains name then ([], entered) else w (name :: entered)

/-- What a walk comes across when no fragment was entered before. -/
def found (w : Walk α) : List α := (w []).1

end Walk

end GraphQL
