import GraphQL.Document
import GraphQL.Type.Definition

/-!
Schemas, and the questions that can be asked of one.

A schema is never changed by a request. Types that a document writes down are followed as they are
written, and looked up among the types that the schema has.
-/

namespace GraphQL

/-- The fields that every schema answers without declaring them. -/
structure MetaFields where
  typename : FieldSpec
  schema : FieldSpec
  type : FieldSpec
deriving Repr

structure Schema where
  registry : TypeRegistry
  /-- All named types, in the order of their definitions. -/
  types : List NamedType
  directives : List DirectiveSpec
  query : TypeId
  mutation : Option TypeId
  subscription : Option TypeId
  metaFields : MetaFields
deriving Repr

namespace Schema

/-! ### Types and directives by name -/

def root? (s : Schema) : OperationType → Option TypeId
  | .query => some s.query
  | .mutation => s.mutation
  | .subscription => s.subscription

def type? (s : Schema) (name : String) : Option NamedType := s.types.find? fun t => t.name == name

def directive? (s : Schema) (name : String) : Option DirectiveSpec :=
  s.directives.find? fun d => d.name == name

/-- The nullable handle of a named type. -/
def typeId? (s : Schema) (name : String) : Option TypeId :=
  if (s.type? name).isSome then s.registry.named? name else none

/-- The named type under all lists and marks of a written type. -/
def innermostOfRef? (s : Schema) (t : TypeRef) : Option TypeId := s.typeId? t.innermost.text

/-! ### The structure of a type -/

def element? (s : Schema) (t : TypeId) : Option TypeId := s.registry.element? t

def typeName (s : Schema) (t : TypeId) : String := s.registry.nameOf t

/-- The definition of the named type below all list layers. -/
def named? (s : Schema) (t : TypeId) : Option NamedType :=
  match s.registry.shape? (s.registry.innermost t) with
  | some (.named name) => s.type? name
  | _ => none

def kind? (s : Schema) (t : TypeId) : Option NamedTypeKind := (s.named? t).map (·.kind)

def builtin? (s : Schema) (t : TypeId) : Option BuiltinScalar := (s.named? t).bind (·.builtin?)

def isList (s : Schema) (t : TypeId) : Bool := (s.element? t).isSome

def isScalar (s : Schema) (t : TypeId) : Bool := s.kind? t = some .scalar

def isObject (s : Schema) (t : TypeId) : Bool := s.kind? t = some .object

def isEnum (s : Schema) (t : TypeId) : Bool := s.kind? t = some .enum

def isInputObject (s : Schema) (t : TypeId) : Bool := s.kind? t = some .inputObject

/-- Scalars, enums and input objects, and lists of them. -/
def isInput (s : Schema) (t : TypeId) : Bool := s.isScalar t || s.isEnum t || s.isInputObject t

/-- Scalars, enums and objects, and lists of them. -/
def isOutput (s : Schema) (t : TypeId) : Bool := s.isScalar t || s.isEnum t || s.isObject t

/-- Scalars and enums, and lists of them. -/
def isLeaf (s : Schema) (t : TypeId) : Bool := s.isScalar t || s.isEnum t

/-- The types that fields are selected on. -/
def isComposite (s : Schema) (t : TypeId) : Bool := s.isObject t

/-- A field of an object type, or one of those that need no declaration. Only the root of queries
gives access to the schema. -/
def field? (s : Schema) (parent : TypeId) (name : String) : Option FieldSpec :=
  match (s.named? parent).bind (·.objectFields?) with
  | none => none
  | some fields =>
    let isQueryRoot := s.registry.innermost parent = s.query
    if name == "__typename" then some s.metaFields.typename
    else if name == "__schema" && isQueryRoot then some s.metaFields.schema
    else if name == "__type" && isQueryRoot then some s.metaFields.type
    else fields.find? fun f => f.name == name

/-! ### Written types -/

/-- The list type over an element, for which the schema makes room if it does not have it. -/
def listOf (s : Schema) (element : TypeId) : TypeId × Schema :=
  let (list, registry) := s.registry.listOf element
  (list, { s with registry := registry })

/-- The type that a written type stands for, with room for its lists. It is nothing only where the
name is unknown. -/
def internRef? (s : Schema) : TypeRef → Option (TypeId × Schema)
  | .named n => (s.typeId? n.text).map fun t => (t, s)
  | .list t _ => (s.internRef? t).map fun (e, s) => s.listOf e
  | .nonNull t _ => (s.internRef? t).map fun (e, s) => (e.nonNull, s)

/-- The type that a written type stands for, if the schema has it. -/
def typeOfRef? (s : Schema) : TypeRef → Option TypeId
  | .named n => s.typeId? n.text
  | .list t _ => (s.typeOfRef? t).bind s.registry.listOf?
  | .nonNull t _ => (s.typeOfRef? t).map (·.nonNull)

/-- The types of the schema that accept all values of a written type, the tightest first: that type,
and those of the same shape with fewer marks. -/
def typesAccepting (s : Schema) : TypeRef → List TypeId
  | .named n => (s.typeId? n.text).toList
  | .nonNull t _ =>
    let inner := s.typesAccepting t
    inner.map (·.nonNull) ++ inner
  | .list t _ => (s.typesAccepting t).filterMap s.registry.listOf?

/-! ### Compatibility -/

/-- Whether a value of a written type can stand where the schema wants `location`. -/
def acceptsRef (s : Schema) (location : TypeId) : TypeRef → Bool
  | .nonNull t _ => s.acceptsRef location.nullable t
  | .list t _ =>
    !location.isNonNull
      && match s.element? location with
         | some e => s.acceptsRef e t
         | none => false
  | .named n =>
    !location.isNonNull && !s.isList location && s.typeId? n.text == some location

/-- Whether a value of type `candidate` can stand where `location` is wanted: null is not let
through, and lists and names are the same. Looks `steps` list layers deep at most. -/
def acceptsWithin (s : Schema) : Nat → TypeId → TypeId → Bool
  | 0, _, _ => false
  | steps + 1, location, candidate =>
    (!location.isNonNull || candidate.isNonNull)
      && match s.element? location, s.element? candidate with
         | some e, some f => s.acceptsWithin steps e f
         | none, none => location.nullable == candidate.nullable
         | _, _ => false

def accepts (s : Schema) (location candidate : TypeId) : Bool :=
  s.acceptsWithin (s.registry.size + 1) location candidate

end Schema

end GraphQL
