import GraphQL.Schema.Error
import GraphQL.Schema

/-!
Input objects that no value can fill.

A field that holds an input object, and neither a list nor null, is an edge from its type to that
one. A cycle of edges cannot be filled. Every type is tried as the start of cycles, and a cycle is
reported from the first of its types.
-/

namespace GraphQL

namespace Schema

/-- The edges from an input object: the name of the edge and the type that it leads to. -/
def inputEdges (s : Schema) (name : String) : List (String × String) :=
  match (s.type? name).bind (·.inputFields?) with
  | none => []
  | some fields =>
    fields.filterMap fun f =>
      if f.type.isNullable || s.isList f.type then none
      else
        (s.named? f.type).bind fun t =>
          t.inputFields?.map fun _ => (name ++ "." ++ f.name, t.name)

/-- The simple cycles through `start` that go on from `name`, behind the edges `path` and through
types that are not yet on it. -/
def cyclesFrom (s : Schema) (start : String) :
    Nat → List String → List String → String → List (List String)
  | 0, _, _, _ => []
  | steps + 1, path, onPath, name =>
    (s.inputEdges name).flatMap fun (edge, target) =>
      if target == start then [path ++ [edge]]
      else if onPath.contains target then []
      else s.cyclesFrom start steps (path ++ [edge]) (target :: onPath) target

/-- Keeps the first of all cycles with the same edges. -/
def distinctCycles (reported : List (List String)) :
    List (String × List String) → List (String × List String)
  | [] => []
  | (start, edges) :: rest =>
    let sorted := edges.mergeSort
    if reported.contains sorted then distinctCycles reported rest
    else (start, edges) :: distinctCycles (sorted :: reported) rest

/-- An error for each cycle of input objects. -/
def inputCycleErrors (s : Schema) : List DefinitionError :=
  let starts := s.types.filterMap fun t => t.inputFields?.map fun _ => t.name
  let cycles := starts.flatMap fun start =>
    (s.cyclesFrom start (s.types.length + 1) [] [start] start).map fun edges => (start, edges)
  (distinctCycles [] cycles).map fun (start, edges) => .circularInputs (edges ++ [start])

end Schema

end GraphQL
