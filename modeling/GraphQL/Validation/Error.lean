import GraphQL.Response.Error
import GraphQL.Type.Definition

/-!
What can be wrong with a document that is to be executed.
-/

namespace GraphQL

inductive ValidationCause where
  | typeDefinition (keyword name : String)
  | anonymousNotAlone
  | duplicateOperation (name : String)
  | duplicateFragment (name : String)
  | fragmentCycle (name : String) (via : List String)
  | subscription
  | noMutationType
  | duplicateVariable (name : String)
  | unknownVariableType (name type : String)
  | nonInputVariable (name type : String)
  | invalidVariableDefault (name message : String)
  | unusedVariable (name : String) (operation : Option String)
  | undefinedVariable (name : String) (operation : Option String)
  | variableTypeMismatch (name type expected : String)
  | unusedFragment (name : String)
  | unknownFragment (name : String)
  | unknownFragmentType (name : String)
  | nonCompositeFragment (type : String)
  | impossibleSpread (fragment : Option String) (parent type : String)
  | unknownField (name type : String)
  | missingSelectionSet (field type : String)
  | unexpectedSelectionSet (field type : String)
  | unknownArgument (name owner : String)
  | duplicateArgument (name : String)
  | missingArgument (name type owner : String)
  | invalidArgument (name message : String)
  | unknownDirective (name : String)
  | misplacedDirective (name : String) (location : DirectiveLocation)
  | duplicateDirective (name : String)
  | fieldsConflict (key reason : String)
deriving DecidableEq, Repr

namespace ValidationCause

def inOperation (operation : Option String) : String :=
  match operation with
  | some name => " in operation `" ++ name ++ "`"
  | none => ""

def viaFragments (via : List String) : String :=
  if via.isEmpty then ""
  else " via " ++ String.intercalate ", " (via.map fun name => "`" ++ name ++ "`")

def message : ValidationCause → String
  | typeDefinition k n => "The " ++ k ++ " definition `" ++ n ++ "` is not executable"
  | anonymousNotAlone => "This anonymous operation must be the only defined operation"
  | duplicateOperation n => "There can be only one operation named `" ++ n ++ "`"
  | duplicateFragment n => "There can be only one fragment named `" ++ n ++ "`"
  | fragmentCycle n via => "Cannot spread fragment `" ++ n ++ "` within itself" ++ viaFragments via
  | subscription => "Subscription operations are not supported"
  | noMutationType => "The schema does not define a `Mutation` root type"
  | duplicateVariable n => "There can be only one variable named `$" ++ n ++ "`"
  | unknownVariableType n t => "Variable `$" ++ n ++ "` has the unknown type `" ++ t ++ "`"
  | nonInputVariable n t => "Variable `$" ++ n ++ "` cannot be of the non-input type `" ++ t ++ "`"
  | invalidVariableDefault n m => "Invalid default value for variable `$" ++ n ++ "`: " ++ m
  | unusedVariable n op => "Variable `$" ++ n ++ "` is never used" ++ inOperation op
  | undefinedVariable n op => "Variable `$" ++ n ++ "` is not defined" ++ inOperation op
  | variableTypeMismatch n t e =>
    "Variable `$" ++ n ++ "` of type `" ++ t ++ "` used in position expecting type `" ++ e ++ "`"
  | unusedFragment n => "Fragment `" ++ n ++ "` is never used"
  | unknownFragment n => "Unknown fragment `" ++ n ++ "`"
  | unknownFragmentType n => "Unknown type `" ++ n ++ "` in fragment type condition"
  | nonCompositeFragment t => "Fragments cannot condition on the non-composite type `" ++ t ++ "`"
  | impossibleSpread f p t =>
    "Fragment" ++ (f.map fun name => " `" ++ name ++ "`").getD ""
      ++ " cannot be spread here as objects of type `" ++ p ++ "` can never be of type `" ++ t ++ "`"
  | unknownField n t => "Cannot query field `" ++ n ++ "` on type `" ++ t ++ "`"
  | missingSelectionSet f t =>
    "Field `" ++ f ++ "` of type `" ++ t ++ "` must have a selection of subfields"
  | unexpectedSelectionSet f t =>
    "Field `" ++ f ++ "` must not have a selection since type `" ++ t ++ "` has no subfields"
  | unknownArgument n o => "Unknown argument `" ++ n ++ "` on `" ++ o ++ "`"
  | duplicateArgument n => "There can be only one argument named `" ++ n ++ "`"
  | missingArgument n t o =>
    "Argument `" ++ n ++ "` of type `" ++ t ++ "` is required on `" ++ o ++ "` but not provided"
  | invalidArgument n m => "Invalid value for argument `" ++ n ++ "`: " ++ m
  | unknownDirective n => "Unknown directive `@" ++ n ++ "`"
  | misplacedDirective n l => "Directive `@" ++ n ++ "` may not be used on " ++ l.name
  | duplicateDirective n => "The directive `@" ++ n ++ "` can only be used once at this location"
  | fieldsConflict k r => "Fields `" ++ k ++ "` conflict because " ++ r

end ValidationCause

/-- An error with its places in the document, and the path of the field that it concerns, if it
concerns one. -/
structure ValidationError where
  cause : ValidationCause
  locations : List LineColumn
  path : Option Path
deriving DecidableEq, Repr

namespace ValidationError

def message (e : ValidationError) : String := e.cause.message

/-- The message with the first place. -/
def render (e : ValidationError) : String :=
  match e.locations with
  | p :: _ => e.message ++ " (" ++ p.render ++ ")"
  | [] => e.message

def toResponseError (e : ValidationError) : ResponseError := ⟨e.message, e.locations, e.path⟩

end ValidationError

/-- An error as it is found; the path is empty where it concerns no field. -/
structure Problem where
  cause : ValidationCause
  positions : List Pos
  path : Path
deriving Repr

namespace Problem

/-- An error that concerns no field. -/
def ofCause (cause : ValidationCause) (positions : List Pos) : Problem := ⟨cause, positions, []⟩

/-- Looks up the places of an error in the text of the document. -/
def locate (source : List Char) (p : Problem) : ValidationError :=
  ⟨p.cause, p.positions.map (·.lineColumn source), if p.path.isEmpty then none else some p.path⟩

end Problem

end GraphQL
