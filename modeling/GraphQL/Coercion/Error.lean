import GraphQL.Document
import GraphQL.Response.Path

/-!
Why an input value does not fit a type.
-/

namespace GraphQL

inductive CoercionErrorCause where
  | nullForNonNull (typeName : String)
  | invalidScalar (typeName : String) (found : Literal)
  | intOutOfRange (text : String)
  | nonFiniteFloat (text : String)
  | unknownEnumValue (enumName value : String)
  | invalidEnumValue (enumName : String) (found : Literal)
  | expectedInputObject (typeName : String) (found : Literal)
  | unknownInputField (typeName fieldName : String)
  | duplicateInputField (typeName fieldName : String)
  | missingField (typeName fieldName fieldType : String)
  | missingArgument (name type : String)
  | missingVariable (name type : String)
  | variableNotAllowed (name : String)
  | unknownVariableType (name type : String)
  | unacceptedListType (typeName : String)
  | notAnInputType (typeName : String)
deriving Repr

/-- What is wrong, where it is written, and which arguments, fields and indices lead to it. -/
structure CoercionError where
  cause : CoercionErrorCause
  pos : Pos
  path : Path
deriving Repr

namespace Literal

/-- How a message names a value that was found. -/
def describe (v : Literal) : String :=
  match v with
  | null _ => "null"
  | var name _ => "the variable `$" ++ name ++ "`"
  | scalar kind .. => "the " ++ kind.description ++ " value " ++ v.render
  | list .. => "the list " ++ v.render
  | object .. => "the object " ++ v.render

end Literal

namespace CoercionErrorCause

def message : CoercionErrorCause → String
  | nullForNonNull t => "Expected a value of type `" ++ t ++ "`, found null"
  | invalidScalar t v => "`" ++ t ++ "` cannot represent " ++ v.describe
  | intOutOfRange text =>
    "`Int` cannot represent the non 32-bit signed integer value " ++ text
  | nonFiniteFloat text => "`Float` cannot represent the non-finite value " ++ text
  | unknownEnumValue e v => "Value `" ++ v ++ "` does not exist in the `" ++ e ++ "` enum"
  | invalidEnumValue e v => "Enum `" ++ e ++ "` cannot represent " ++ v.describe
  | expectedInputObject t v =>
    "Expected an input object of type `" ++ t ++ "`, found " ++ v.describe
  | unknownInputField t f =>
    "Field `" ++ f ++ "` is not defined by the `" ++ t ++ "` input type"
  | duplicateInputField t f => "Field `" ++ f ++ "` of `" ++ t ++ "` is supplied more than once"
  | missingField t f ft =>
    "Field `" ++ t ++ "." ++ f ++ "` of required type `" ++ ft ++ "` was not provided"
  | missingArgument n t => "Argument `" ++ n ++ "` of required type `" ++ t ++ "` was not provided"
  | missingVariable n t => "Variable `$" ++ n ++ "` of required type `" ++ t ++ "` was not provided"
  | variableNotAllowed n => "Variable `$" ++ n ++ "` cannot be used in a constant value"
  | unknownVariableType n t => "Variable `$" ++ n ++ "` has the unknown type `" ++ t ++ "`"
  | unacceptedListType t =>
    "No argument or input field of the schema accepts values of type `" ++ t ++ "`"
  | notAnInputType t => "`" ++ t ++ "` is not an input type"

end CoercionErrorCause

namespace CoercionError

/-- The message, with the path behind it if there is one. -/
def message (e : CoercionError) : String :=
  if e.path.isEmpty then e.cause.message
  else e.cause.message ++ " (at `" ++ e.path.renderNonEmpty ++ "`)"

end CoercionError

end GraphQL
