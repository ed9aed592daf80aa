import GraphQL.Document
import GraphQL.Proofs.Document.Literal

/-!
The parts of a document that stand at places of their own.
-/

namespace GraphQL

/-- A field with what is selected below it, or a selection set. -/
inductive Part where
  | field (field : Field) (below : Option SelectionSet)
  | set (selectionSet : SelectionSet)

namespace Part

def pos : Part → Pos
  | field f _ => f.pos
  | set ss => ss.pos

/-- The arguments of a field come from a text. -/
def IsProper : Part → Prop
  | field f _ => ∀ a ∈ f.arguments, a.value.IsProper
  | set _ => True

end Part

mutual

/-- The fields and selection sets in a selection, in the order of their places. -/
def Selection.parts : Selection → List Part
  | .field f none => [.field f none]
  | .field f (some below) => .field f (some below) :: below.parts
  | .spread _ => []
  | .inline _ below => below.parts

def SelectionSet.parts : SelectionSet → List Part
  | .mk selections p => .set (.mk selections p) :: partsOfAll selections

def partsOfAll : List Selection → List Part
  | [] => []
  | s :: ss => s.parts ++ partsOfAll ss

end

lemma partsOfAll_eq (ss : List Selection) : partsOfAll ss = ss.flatMap (·.parts) := by
  induction ss with
  | nil => rfl
  | cons s ss ih => rw [partsOfAll, ih, List.flatMap_cons]

namespace TypeBody

/-- The default values that a type writes down. -/
def defaults : TypeBody → List Literal
  | .object fields => fields.flatMap fun f => f.arguments.filterMap (·.default?)
  | .input fields => fields.filterMap (·.default?)
  | .scalar | .enum _ => []

end TypeBody

namespace Definition

def parts : Definition → List Part
  | .operation d => d.selectionSet.parts
  | .fragment d => d.selectionSet.parts
  | .type _ => []

/-- The arguments and default values of a definition come from a text. -/
def IsProper : Definition → Prop
  | .operation d =>
    (∀ p ∈ d.selectionSet.parts, p.IsProper) ∧
      ∀ v ∈ d.variableDefinitions.filterMap (·.default?), v.IsProper
  | .fragment d => ∀ p ∈ d.selectionSet.parts, p.IsProper
  | .type d => ∀ v ∈ d.body.defaults, v.IsProper

end Definition

namespace Document

def parts (d : Document) : List Part := d.definitions.flatMap (·.parts)

end Document

end GraphQL
