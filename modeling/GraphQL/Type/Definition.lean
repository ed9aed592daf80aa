import GraphQL.Value

/-!
What a schema says about its types and directives.
-/

namespace GraphQL

/-- The scalars that every schema has. -/
inductive BuiltinScalar where
  | int | float | string | boolean | id
deriving DecidableEq, Repr

namespace BuiltinScalar

def all : List BuiltinScalar := [int, float, string, boolean, id]

def name : BuiltinScalar → String
  | int => "Int"
  | float => "Float"
  | string => "String"
  | boolean => "Boolean"
  | id => "ID"

def ofName? (name : String) : Option BuiltinScalar := all.find? fun s => s.name == name

/-- The scalars whose values are literals in JSON, and not strings. -/
def isJsonLiteral : BuiltinScalar → Bool
  | int | float | boolean => true
  | string | id => false

end BuiltinScalar

/-- Whether a field or an enum value should no longer be used, and why. -/
inductive Deprecation where
  | current
  | deprecated (reason : Option String)
deriving DecidableEq, Repr

namespace Deprecation

def isDeprecated : Deprecation → Bool
  | current => false
  | deprecated _ => true

def reason? : Deprecation → Option String
  | current => none
  | deprecated reason => reason

end Deprecation

/-- The places where a directive can be written. -/
inductive DirectiveLocation where
  | query | mutation | subscription | field
  | fragmentDefinition | fragmentSpread | inlineFragment | variableDefinition
  | scalar | object | fieldDefinition | argumentDefinition
  | enum | enumValue | inputObject | inputFieldDefinition
deriving DecidableEq, Repr

namespace DirectiveLocation

def name : DirectiveLocation → String
  | query => "QUERY"
  | mutation => "MUTATION"
  | subscription => "SUBSCRIPTION"
  | field => "FIELD"
  | fragmentDefinition => "FRAGMENT_DEFINITION"
  | fragmentSpread => "FRAGMENT_SPREAD"
  | inlineFragment => "INLINE_FRAGMENT"
  | variableDefinition => "VARIABLE_DEFINITION"
  | scalar => "SCALAR"
  | object => "OBJECT"
  | fieldDefinition => "FIELD_DEFINITION"
  | argumentDefinition => "ARGUMENT_DEFINITION"
  | enum => "ENUM"
  | enumValue => "ENUM_VALUE"
  | inputObject => "INPUT_OBJECT"
  | inputFieldDefinition => "INPUT_FIELD_DEFINITION"

end DirectiveLocation

/-- An argument, or a field of an input object. -/
structure InputSpec where
  name : String
  type : TypeId
  /-- The default that was declared, coerced to the type. -/
  default? : Option Value
  description : Option String
deriving Repr

namespace InputSpec

/-- A value has to be supplied: null is excluded, and there is no default. -/
def isRequired (i : InputSpec) : Bool := i.type.isNonNull && i.default?.isNone

/-- What holds where no value is supplied and none is required. -/
def fallback (i : InputSpec) : Value := i.default?.getD (.null i.type)

end InputSpec

/-- A field of an object type. -/
structure FieldSpec where
  name : String
  type : TypeId
  arguments : List InputSpec
  deprecation : Deprecation
  description : Option String
deriving Repr

structure EnumValueSpec where
  name : String
  description : Option String
  deprecation : Deprecation
deriving Repr

/-- What kind of type a named type is, and what it consists of. -/
inductive NamedTypeBody where
  | scalar (builtin : Option BuiltinScalar)
  | object (fields : List FieldSpec)
  | enum (values : List EnumValueSpec)
  | inputObject (fields : List InputSpec)
deriving Repr

inductive NamedTypeKind where
  | scalar | object | enum | inputObject
deriving DecidableEq, Repr

namespace NamedTypeKind

def name : NamedTypeKind → String
  | scalar => "SCALAR"
  | object => "OBJECT"
  | enum => "ENUM"
  | inputObject => "INPUT_OBJECT"

end NamedTypeKind

structure NamedType where
  name : String
  description : Option String
  body : NamedTypeBody
deriving Repr

namespace NamedType

def kind (t : NamedType) : NamedTypeKind :=
  match t.body with
  | .scalar _ => .scalar
  | .object _ => .object
  | .enum _ => .enum
  | .inputObject _ => .inputObject

def builtin? (t : NamedType) : Option BuiltinScalar :=
  match t.body with
  | .scalar b => b
  | _ => none

def objectFields? (t : NamedType) : Option (List FieldSpec) :=
  match t.body with
  | .object fs => some fs
  | _ => none

def inputFields? (t : NamedType) : Option (List InputSpec) :=
  match t.body with
  | .inputObject fs => some fs
  | _ => none

def enumValues? (t : NamedType) : Option (List EnumValueSpec) :=
  match t.body with
  | .enum vs => some vs
  | _ => none

end NamedType

structure DirectiveSpec where
  name : String
  description : Option String
  arguments : List InputSpec
  locations : List DirectiveLocation
deriving Repr

end GraphQL
