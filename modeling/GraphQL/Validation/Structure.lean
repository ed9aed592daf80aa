import GraphQL.Document.Spread
import GraphQL.Grouping
import GraphQL.Validation.Error

/-!
What a document has to look like before its operations are looked at: no type definitions, names that
are used once, and fragments that do not lead back to themselves.

Cycles are found by a walk that enters each fragment once. Its trail holds the uses of fragments that
lead to the place where it is, and a use that leads back to a fragment of the trail closes a cycle.
-/

namespace GraphQL

namespace Document

/-! ### Definitions -/

/-- The names that are used more than once, with the places of all their uses. -/
def repeatedNames (names : List Name) : List (String × List Pos) :=
  ((groupByKey Name.text names).filter fun g => 1 < g.2.length).map fun g => (g.1, g.2.map Name.pos)

def definitionProblems (d : Document) : List Problem :=
  let types := d.types.map fun t =>
    Problem.ofCause (.typeDefinition t.body.keyword t.name.text) [t.pos]
  let anonymous :=
    if d.operations.length ≤ 1 then []
    else (d.operations.filter (·.name.isNone)).map fun op => .ofCause .anonymousNotAlone [op.pos]
  let operations := (repeatedNames (d.operations.filterMap (·.name))).map fun (n, ps) =>
    Problem.ofCause (.duplicateOperation n) ps
  let fragments := (repeatedNames (d.fragments.map (·.name))).map fun (n, ps) =>
    Problem.ofCause (.duplicateFragment n) ps
  types ++ anonymous ++ operations ++ fragments

/-! ### Cycles of fragments -/

/-- The uses of fragments on a walk, the latest first, each with the fragment that it stands in. -/
abbrev Trail := List (String × FragmentSpread)

/-- The part of a trail that leads from a fragment to the latest use, in the order of the walk. -/
def cycleTo (name : String) : Trail → Option (List FragmentSpread)
  | [] => none
  | (source, s) :: rest =>
    if source == name then some [s] else (cycleTo name rest).map (· ++ [s])

structure CycleSearch where
  visited : List String
  /-- The cycles found so far, the latest first. -/
  found : List (List FragmentSpread)

namespace CycleSearch

/-- Follows the uses of fragments in a fragment, at most `steps` fragments deep. -/
def visit (d : Document) : Nat → Trail → CycleSearch → FragmentDefinition → CycleSearch
  | 0, _, st, _ => st
  | steps + 1, trail, st, f =>
    let name := f.name.text
    if st.visited.contains name then st
    else
      f.selectionSet.spreads.foldl
        (fun st s =>
          let trail := (name, s) :: trail
          match cycleTo s.name.text trail with
          | some cycle => { st with found := cycle :: st.found }
          | none =>
            match d.fragment? s.name.text with
            | some g => visit d steps trail st g
            | none => st)
        { st with visited := name :: st.visited }

end CycleSearch

/-- The cycles of fragments, each as the uses that it consists of. -/
def fragmentCycles (d : Document) : List (List FragmentSpread) :=
  (d.fragments.foldl (CycleSearch.visit d d.fragments.length []) ⟨[], []⟩).found.reverse

/-- A cycle is reported under the name of the fragment that its last use leads back to. -/
def cycleProblem (cycle : List FragmentSpread) : Option Problem :=
  cycle.getLast?.map fun last =>
    .ofCause (.fragmentCycle last.name.text (cycle.dropLast.map (·.name.text))) (cycle.map (·.pos))

def cycleProblems (d : Document) : List Problem := d.fragmentCycles.filterMap cycleProblem

end Document

end GraphQL
