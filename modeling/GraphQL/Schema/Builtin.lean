import GraphQL.Schema

/-!
What every schema holds before its documents are read: five scalars, three directives, the types of
introspection, and the fields that lead to them.
-/

namespace GraphQL

namespace BuiltinScalar

def description : BuiltinScalar → String
  | boolean => "The `Boolean` scalar type represents `true` or `false`."
  | float => "The `Float` scalar type represents signed double-precision fractional values."
  | id => "The `ID` scalar type represents a unique identifier, serialized as a string."
  | int =>
    "The `Int` scalar type represents non-fractional signed whole numeric values between -(2^31) "
      ++ "and 2^31 - 1."
  | string => "The `String` scalar type represents textual data as UTF-8 character sequences."

def namedType (b : BuiltinScalar) : NamedType := ⟨b.name, some b.description, .scalar (some b)⟩

end BuiltinScalar

namespace Deprecation

/-- The reason where none is given. -/
def defaultReason : String := "No longer supported"

end Deprecation

namespace Builtin

/-- A registry that holds the builtin scalars. -/
def registry (id : Nat) : TypeRegistry :=
  BuiltinScalar.all.foldl (fun r b => (r.named b.name).2) (.empty id)

/-- A registered type, with null. -/
def handle (r : TypeRegistry) (name : String) : TypeId := (r.named name).1

/-- A directive that lets fields and fragments depend on a condition. -/
def conditional (r : TypeRegistry) (name description : String) : DirectiveSpec :=
  ⟨name, some description, [⟨"if", (handle r "Boolean").nonNull, none, none⟩],
    [.field, .fragmentSpread, .inlineFragment]⟩

def directives (r : TypeRegistry) : List DirectiveSpec :=
  let string := handle r "String"
  [conditional r "skip"
      "Directs the executor to skip this field or fragment when the `if` argument is true.",
    conditional r "include"
      "Directs the executor to include this field or fragment only when the `if` argument is true.",
    ⟨"deprecated", some "Marks an element of a GraphQL schema as no longer supported.",
      [⟨"reason", string, some (.scalar string Deprecation.defaultReason), none⟩],
      [.fieldDefinition, .enumValue]⟩]

def metaFields (r : TypeRegistry) : MetaFields where
  typename :=
    ⟨"__typename", (handle r "String").nonNull, [], .current,
      some "The name of the current Object type at runtime."⟩
  schema :=
    ⟨"__schema", (handle r "__Schema").nonNull, [], .current,
      some "Access the current type schema of this server."⟩
  type :=
    ⟨"__type", handle r "__Type", [⟨"name", (handle r "String").nonNull, none, none⟩], .current,
      some "Request the type information of a single type."⟩

/-! ### The types of introspection -/

def name (text : String) : Name := ⟨text, .start⟩

def ref (text : String) : TypeRef := .named (name text)

def required (t : TypeRef) : TypeRef := .nonNull t .start

/-- A list of items that are not null. -/
def listOf (text : String) : TypeRef := .list (required (ref text)) .start

def field (text : String) (type : TypeRef) : FieldDefinition :=
  ⟨none, name text, [], type, [], .start⟩

/-- A field that leaves out what is deprecated, if not told otherwise. -/
def filteredField (text : String) (type : TypeRef) : FieldDefinition :=
  let default := Literal.scalar .boolean "false" .start
  ⟨none, name text, [⟨none, name "includeDeprecated", ref "Boolean", some default, [], .start⟩],
    type, [], .start⟩

def object (text : String) (fields : List FieldDefinition) : TypeDefinition :=
  ⟨none, name text, [], .object fields, .start⟩

def enum (text : String) (values : List String) : TypeDefinition :=
  ⟨none, name text, [], .enum (values.map fun v => ⟨none, name v, [], .start⟩), .start⟩

def string : TypeRef := ref "String"

def introspectionTypes : List TypeDefinition :=
  [object "__Schema"
      [field "description" string, field "types" (required (listOf "__Type")),
        field "queryType" (required (ref "__Type")), field "mutationType" (ref "__Type"),
        field "subscriptionType" (ref "__Type"),
        field "directives" (required (listOf "__Directive"))],
    object "__Type"
      [field "kind" (required (ref "__TypeKind")), field "name" string, field "description" string,
        field "specifiedByURL" string, filteredField "fields" (listOf "__Field"),
        field "interfaces" (listOf "__Type"), field "possibleTypes" (listOf "__Type"),
        filteredField "enumValues" (listOf "__EnumValue"),
        field "inputFields" (listOf "__InputValue"), field "ofType" (ref "__Type")],
    object "__Field"
      [field "name" (required string), field "description" string,
        field "args" (required (listOf "__InputValue")), field "type" (required (ref "__Type")),
        field "isDeprecated" (required (ref "Boolean")), field "deprecationReason" string],
    object "__InputValue"
      [field "name" (required string), field "description" string,
        field "type" (required (ref "__Type")), field "defaultValue" string],
    object "__EnumValue"
      [field "name" (required string), field "description" string,
        field "isDeprecated" (required (ref "Boolean")), field "deprecationReason" string],
    object "__Directive"
      [field "name" (required string), field "description" string,
        field "locations" (required (listOf "__DirectiveLocation")),
        field "args" (required (listOf "__InputValue")),
        field "isRepeatable" (required (ref "Boolean"))],
    enum "__TypeKind"
      ["SCALAR", "OBJECT", "INTERFACE", "UNION", "ENUM", "INPUT_OBJECT", "LIST", "NON_NULL"],
    enum "__DirectiveLocation"
      ["QUERY", "MUTATION", "SUBSCRIPTION", "FIELD", "FRAGMENT_DEFINITION", "FRAGMENT_SPREAD",
        "INLINE_FRAGMENT", "VARIABLE_DEFINITION", "SCHEMA", "SCALAR", "OBJECT", "FIELD_DEFINITION",
        "ARGUMENT_DEFINITION", "INTERFACE", "UNION", "ENUM", "ENUM_VALUE", "INPUT_OBJECT",
        "INPUT_FIELD_DEFINITION"]]

end Builtin

end GraphQL
