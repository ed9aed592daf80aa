import GraphQL.Validation.Merge
import GraphQL.Validation.Operation
import GraphQL.Validation.Structure

/-!
Validation: whether a document can be executed against a schema.

A document with a wrong structure, or with fragments that lead back to themselves, is not looked at
any further. The parts of a document are checked one after another, and an error that several of them
find is reported once.
-/

namespace GraphQL

namespace Document

/-- What is wrong with the fragments of a document, wherever they are used. -/
def fragmentProblems (d : Document) (s : Schema) : List Problem :=
  d.fragments.flatMap fun f =>
    let condition := f.typeCondition
    let type :=
      match s.typeId? condition.text with
      | none => [Problem.ofCause (.unknownFragmentType condition.text) [condition.pos]]
      | some t =>
        if s.isComposite t then []
        else [.ofCause (.nonCompositeFragment condition.text) [condition.pos]]
    s.misplacedDirectives .fragmentDefinition f.directives ++ type

/-- The fragments that no operation came across. -/
def unusedFragments (d : Document) (fs : List Finding) : List Problem :=
  let used := fs.filterMap (·.usedFragment?)
  (d.fragments.filter fun f => !used.contains f.name.text).map fun f =>
    .ofCause (.unusedFragment f.name.text) [f.pos]

/-- What is wrong with a document of the right structure. -/
def executionProblems (d : Document) (s : Schema) : List Problem :=
  let findings := d.operations.flatMap (operationFindings s d)
  d.fragmentProblems s ++ findings.filterMap (·.problem?) ++ d.unusedFragments findings
    ++ d.operations.flatMap (mergeProblems s d)

def problems (d : Document) (s : Schema) : List Problem :=
  if !d.definitionProblems.isEmpty then d.definitionProblems
  else if !d.cycleProblems.isEmpty then d.cycleProblems
  else d.executionProblems s

end Document

namespace Schema

/-- Everything that is wrong with a document, whose text is `source`. -/
def validate (s : Schema) (d : Document) (source : List Char) : List ValidationError :=
  ((d.problems s).map (·.locate source)).eraseDups

end Schema

end GraphQL
