import GraphQL.Parser
import GraphQL.Type.Definition

/-!
What can be wrong with the documents that a schema is built from.
-/

namespace GraphQL

/-- A place in a schema document. -/
structure SchemaPlace where
  file : Option String
  place : LineColumn
deriving DecidableEq, Repr

namespace SchemaPlace

def render (p : SchemaPlace) : String :=
  match p.file with
  | some file => file ++ ":" ++ p.place.render
  | none => p.place.render

end SchemaPlace

/-- Where a type is defined. -/
inductive TypeOrigin where
  | builtin
  | document (place : SchemaPlace)
deriving DecidableEq, Repr

namespace TypeOrigin

def render : TypeOrigin → String
  | builtin => "<builtin>"
  | document p => p.render

end TypeOrigin

/-- What a type must have a member of. -/
inductive MemberKind where
  | field | value | inputField
deriving DecidableEq, Repr

namespace MemberKind

def description : MemberKind → String
  | field => "field"
  | value => "value"
  | inputField => "input field"

end MemberKind

/-- The owner of a default value. -/
inductive InputOwner where
  | inputField (typeName fieldName : String)
  | argument (typeName fieldName argumentName : String)
deriving DecidableEq, Repr

namespace InputOwner

def render : InputOwner → String
  | inputField t f => t ++ "." ++ f
  | argument t f a => t ++ "." ++ f ++ "(" ++ a ++ ":)"

end InputOwner

/-- What is wrong with one definition. -/
inductive DefinitionError where
  | circularInputs (edges : List String)
  | duplicateArgument (typeName fieldName argumentName : String) (first second : SchemaPlace)
  | duplicateDirective (name : String) (place : SchemaPlace)
  | duplicateEnumValue (enumName valueName : String) (first second : SchemaPlace)
  | duplicateField (typeName fieldName : String) (first second : SchemaPlace)
  | emptyType (typeName : String) (member : MemberKind) (place : SchemaPlace)
  | inputTypeAsOutput (parentName fieldName inputName : String) (place : SchemaPlace)
  | invalidDefault (owner : InputOwner) (place : SchemaPlace) (messages : List String)
  | deprecationReason (found : Literal) (place : SchemaPlace)
  | deprecationArgument (name : String) (place : SchemaPlace)
  | reservedName (name typeName : String) (place : SchemaPlace)
  | misplacedDirective (name : String) (location : DirectiveLocation) (place : SchemaPlace)
  | outputTypeAsInput (owner : InputOwner) (outputName : String) (place : SchemaPlace)
  | undefinedType (name : String) (place : SchemaPlace)
  | unknownDirective (name : String) (place : SchemaPlace)
deriving Repr

namespace DefinitionError

def message : DefinitionError → String
  | circularInputs edges =>
    "Input object fields may refer to input object types only if the resulting chain of types can "
      ++ "be broken by at least one nullable field. Unbroken input-object cycle found: "
      ++ String.intercalate " -> " edges
  | duplicateArgument t f a _ _ =>
    "The `" ++ t ++ "." ++ f ++ "` argument `" ++ a ++ "` is defined more than once"
  | duplicateDirective n p =>
    "The `" ++ n ++ "` directive is applied more than once at " ++ p.render
  | duplicateEnumValue e v _ _ =>
    "The `" ++ e ++ "` enum defines the `" ++ v ++ "` value more than once"
  | duplicateField t f _ _ =>
    "The `" ++ t ++ "` type defines the `" ++ f ++ "` field more than once"
  | emptyType t m _ => "The `" ++ t ++ "` type must define at least one " ++ m.description
  | inputTypeAsOutput t f i _ =>
    "Output fields can not be declared with an input type: The `" ++ t ++ "." ++ f
      ++ "` field is an output field, but the `" ++ i ++ "` type is an input object type"
  | invalidDefault o _ ms =>
    "Invalid default value for `" ++ o.render ++ "`: " ++ String.intercalate "; " ms
  | deprecationReason v _ =>
    "Invalid argument for the `@deprecated` directive: `reason` must be a string, found `"
      ++ v.render ++ "`"
  | deprecationArgument n _ =>
    "Invalid argument for the `@deprecated` directive: unknown argument `" ++ n ++ "`"
  | reservedName n t _ => "Names must not start with `__`: `" ++ n ++ "` defined on `" ++ t ++ "`"
  | misplacedDirective n l _ =>
    "The `@" ++ n ++ "` directive may not be used at " ++ l.name ++ " locations"
  | outputTypeAsInput o t _ =>
    "Arguments and input fields can only be declared with input types: `" ++ o.render
      ++ "` is declared with `" ++ t ++ "`, which is an object type"
  | undefinedType n p => "Reference to an undefined type `" ++ n ++ "` at " ++ p.render
  | unknownDirective n p => "Unknown directive `@" ++ n ++ "` at " ++ p.render

/-- The places that an error is about, in the order in which they are written. -/
def places : DefinitionError → List SchemaPlace
  | circularInputs _ => []
  | duplicateArgument _ _ _ p q | duplicateEnumValue _ _ p q | duplicateField _ _ p q => [p, q]
  | duplicateDirective _ p | emptyType _ _ p | inputTypeAsOutput _ _ _ p | invalidDefault _ p _
  | deprecationReason _ p | deprecationArgument _ p | reservedName _ _ p | misplacedDirective _ _ p
  | outputTypeAsInput _ _ p | undefinedType _ p | unknownDirective _ p => [p]

end DefinitionError

/-- Why no schema can be built. -/
inductive SchemaError where
  | builtinRedefined (name : String) (origin : TypeOrigin)
  | duplicateType (name : String) (first second : TypeOrigin)
  | emptyDocument
  | reservedTypeName (name : String) (origin : TypeOrigin)
  | noQueryType
  | executableDefinition (place : SchemaPlace)
  | unreadable (file : Option String) (source : List Char) (errors : List ParseError)
  | invalidDefinitions (errors : List DefinitionError)
deriving Repr

namespace SchemaError

def message : SchemaError → String
  | builtinRedefined n _ => "Attempted to redefine the builtin `" ++ n ++ "` type"
  | duplicateType n a b =>
    "Multiple GraphQL types named `" ++ n ++ "` were defined (" ++ a.render ++ " and " ++ b.render
      ++ ")"
  | emptyDocument => "No schema definitions were provided"
  | reservedTypeName n _ => "Type names must not start with `__`: `" ++ n ++ "`"
  | noQueryType => "Attempted to build a schema that has no `Query` object type defined"
  | executableDefinition p =>
    "Schema documents may only contain type definitions, found an operation or fragment at "
      ++ p.render
  | unreadable file source errors =>
    "Error parsing schema:\n"
      ++ (ParseResult.mk none errors).formatErrors source file
  | invalidDefinitions errors =>
    "Encountered the following type-validation errors while building the schema:\n\n"
      ++ String.intercalate "\n" (errors.map fun e => "  * " ++ e.message)

end SchemaError

end GraphQL
