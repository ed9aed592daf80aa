import GraphQL.Document.Selection
import GraphQL.Schema
import GraphQL.Validation.Error

/-!
Which directives may stand where they are written.
-/

namespace GraphQL

/-- A directive that may stand where it is, with its definition. -/
structure PlacedDirective where
  directive : Directive
  spec : DirectiveSpec

namespace Schema

/-- Goes through directives that stand at one place. `seen` holds those that were accepted before, the
latest first. -/
def placeDirectives (s : Schema) (location : DirectiveLocation) (seen : List (String × Pos)) :
    List Directive → List (Except Problem PlacedDirective)
  | [] => []
  | d :: ds =>
    let name := d.name.text
    match s.directive? name with
    | none => .error (.ofCause (.unknownDirective name) [d.pos]) :: s.placeDirectives location seen ds
    | some spec =>
      if !spec.locations.contains location then
        .error (.ofCause (.misplacedDirective name location) [d.pos])
          :: s.placeDirectives location seen ds
      else
        let placed :=
          match seen.lookup name with
          | some first => .error (.ofCause (.duplicateDirective name) [first, d.pos])
          | none => .ok ⟨d, spec⟩
        placed :: s.placeDirectives location ((name, d.pos) :: seen) ds

/-- The directives that may not stand where they are. -/
def misplacedDirectives (s : Schema) (location : DirectiveLocation) (ds : List Directive) :
    List Problem :=
  (s.placeDirectives location [] ds).filterMap fun
    | .error p => some p
    | .ok _ => none

/-- The directives that may stand where they are. -/
def placedDirectives (s : Schema) (location : DirectiveLocation) (ds : List Directive) :
    List PlacedDirective :=
  (s.placeDirectives location [] ds).filterMap fun
    | .error _ => none
    | .ok d => some d

end Schema

end GraphQL
