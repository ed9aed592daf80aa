import GraphQL.Document

/-!
Where fragments are used, and how deep fields are nested.

A document without cycles of fragments nests fields at most as deep as its deepest selection set,
once for every fragment and once for the operation. Walks that follow fragments from field to field
take `Document.maxLevels` as the number of their steps.
-/

namespace GraphQL

mutual

/-- The fragments that a selection uses, below fields and inline fragments too, in the order in which
they are written. -/
def Selection.spreads : Selection → List FragmentSpread
  | .field _ none => []
  | .field _ (some below) => below.spreads
  | .spread s => [s]
  | .inline _ below => below.spreads

def SelectionSet.spreads : SelectionSet → List FragmentSpread
  | .mk selections _ => spreadsOfAll selections

def spreadsOfAll : List Selection → List FragmentSpread
  | [] => []
  | s :: ss => s.spreads ++ spreadsOfAll ss

end

mutual

/-- How many fields stand above each other, without a look into fragments. -/
def Selection.levels : Selection → Nat
  | .field _ none => 1
  | .field _ (some below) => below.levels + 1
  | .spread _ => 0
  | .inline _ below => below.levels

def SelectionSet.levels : SelectionSet → Nat
  | .mk selections _ => levelsOfAll selections

def levelsOfAll : List Selection → Nat
  | [] => 0
  | s :: ss => max s.levels (levelsOfAll ss)

end

namespace Document

/-- The selection sets of all operations and fragments. -/
def selectionSets (d : Document) : List SelectionSet :=
  d.operations.map (·.selectionSet) ++ d.fragments.map (·.selectionSet)

/-- The levels of the deepest selection set. -/
def levels (d : Document) : Nat := (d.selectionSets.map (·.levels)).foldl max 0

/-- No more fields than this stand above each other where fragments do not form a cycle. -/
def maxLevels (d : Document) : Nat := (d.fragments.length + 1) * d.levels

end Document

end GraphQL
