import GraphQL.Execution.Host
import GraphQL.Value.Rendering

/-!
Introspection: a schema as a host that answers questions about itself.

`Host.withIntrospection` lets every object say its type, and the root of queries lead to the schema; all
else is left to the host.
-/

namespace GraphQL

/-- The objects that introspection knows. -/
inductive MetaObject where
  | schema
  | type (t : TypeId)
  | field (field : FieldSpec)
  | input (input : InputSpec)
  | enumValue (value : EnumValueSpec)
  | directive (directive : DirectiveSpec)
deriving Repr

namespace MetaObject

/-- The name of the type of an object. -/
def typeName : MetaObject → String
  | schema => "__Schema"
  | type _ => "__Type"
  | field _ => "__Field"
  | input _ => "__InputValue"
  | enumValue _ => "__EnumValue"
  | directive _ => "__Directive"

/-- The definition of a named type; lists and required types have none. -/
def definition? (s : Schema) (t : TypeId) : Option NamedType :=
  if t.isNonNull || s.isList t then none else s.named? t

def kindName (s : Schema) (t : TypeId) : String :=
  if t.isNonNull then "NON_NULL"
  else if s.isList t then "LIST"
  else ((definition? s t).map fun d => d.kind.name).getD "SCALAR"

/-- The type inside a list or a required type. -/
def ofType (s : Schema) (t : TypeId) : Option TypeId :=
  if t.isNonNull then some t.nullable else s.element? t

def includesDeprecated (call : FieldCall) : Bool :=
  ((call.argument? "includeDeprecated").bind (·.bool?)).getD false

/-- Leaves out what is deprecated, if the field does not ask for it. -/
def current {α : Type} (call : FieldCall) (deprecation : α → Deprecation) (as : List α) : List α :=
  as.filter fun a => includesDeprecated call || !(deprecation a).isDeprecated

/-- A list of objects, or null where there is none. -/
def objects? {α : Type} (make : α → MetaObject) (as : Option (List α)) : HostValue MetaObject :=
  match as with
  | some as => .ofObjects (as.map make)
  | none => .null

/-! ### The fields of each kind of object -/

def schemaField (s : Schema) (call : FieldCall) : Option (HostValue MetaObject) :=
  match call.name with
  | "description" => some .null
  | "types" => some (.ofObjects ((s.types.filterMap fun t => s.typeId? t.name).map type))
  | "queryType" => some (.object (type s.query))
  | "mutationType" => some (.ofObject? (s.mutation.map type))
  | "subscriptionType" => some (.ofObject? (s.subscription.map type))
  | "directives" => some (.ofObjects (s.directives.map directive))
  | _ => none

def typeField (s : Schema) (t : TypeId) (call : FieldCall) : Option (HostValue MetaObject) :=
  let d? := definition? s t
  match call.name with
  | "kind" => some (.ofString (kindName s t))
  | "name" => some (.ofString? (d?.map (·.name)))
  | "description" => some (.ofString? (d?.bind (·.description)))
  | "specifiedByURL" => some .null
  | "fields" =>
    some (objects? field ((d?.bind (·.objectFields?)).map (current call (·.deprecation))))
  | "interfaces" =>
    some (objects? type ((d?.bind (·.objectFields?)).map fun _ => []))
  | "possibleTypes" => some .null
  | "enumValues" =>
    some (objects? enumValue ((d?.bind (·.enumValues?)).map (current call (·.deprecation))))
  | "inputFields" => some (objects? input (d?.bind (·.inputFields?)))
  | "ofType" => some (.ofObject? ((ofType s t).map type))
  | _ => none

def fieldField (f : FieldSpec) (call : FieldCall) : Option (HostValue MetaObject) :=
  match call.name with
  | "name" => some (.ofString f.name)
  | "description" => some (.ofString? f.description)
  | "args" => some (.ofObjects (f.arguments.map input))
  | "type" => some (.object (type f.type))
  | "isDeprecated" => some (.ofBool f.deprecation.isDeprecated)
  | "deprecationReason" => some (.ofString? f.deprecation.reason?)
  | _ => none

def inputField (s : Schema) (i : InputSpec) (call : FieldCall) : Option (HostValue MetaObject) :=
  match call.name with
  | "name" => some (.ofString i.name)
  | "description" => some (.ofString? i.description)
  | "type" => some (.object (type i.type))
  | "defaultValue" => some (.ofString? (i.default?.map fun v => (v.toLiteral s).render))
  | _ => none

def enumValueField (v : EnumValueSpec) (call : FieldCall) : Option (HostValue MetaObject) :=
  match call.name with
  | "name" => some (.ofString v.name)
  | "description" => some (.ofString? v.description)
  | "isDeprecated" => some (.ofBool v.deprecation.isDeprecated)
  | "deprecationReason" => some (.ofString? v.deprecation.reason?)
  | _ => none

def directiveField (d : DirectiveSpec) (call : FieldCall) : Option (HostValue MetaObject) :=
  match call.name with
  | "name" => some (.ofString d.name)
  | "description" => some (.ofString? d.description)
  | "locations" => some (.list (d.locations.map fun l => .ofString l.name))
  | "args" => some (.ofObjects (d.arguments.map input))
  | "isRepeatable" => some (.ofBool false)
  | _ => none

/-- The value of a field, if objects of this kind have it. -/
def field? (s : Schema) (o : MetaObject) (call : FieldCall) : Option (HostValue MetaObject) :=
  match o with
  | schema => schemaField s call
  | type t => typeField s t call
  | field f => fieldField f call
  | input i => inputField s i call
  | enumValue v => enumValueField v call
  | directive d => directiveField d call

/-- Introspection as a host. -/
def host (s : Schema) : Host MetaObject := fun o r =>
  match o.field? s r.field.call with
  | some v => .ok v
  | none => .error ("`" ++ o.typeName ++ "` has no field `" ++ r.field.call.name ++ "`")

end MetaObject

/-- The objects of a host together with those of introspection. -/
inductive ExecutionObject (ρ : Type) where
  | host (ref : ρ)
  | introspection (ref : MetaObject)

namespace Host

variable {ρ : Type}

/-- The field that an object answers without the host, if it is one. -/
def metaField? (r : FieldRequest) : Option (HostValue MetaObject) :=
  let s := r.schema
  let call := r.field.call
  if call.name == "__typename" then some (.ofString (s.typeName r.parent.nullable))
  else if r.parent.nullable = s.query then
    if call.name == "__schema" then some (.object .schema)
    else if call.name == "__type" then
      let name := (call.argument? "name").bind (·.text?)
      some (.ofObject? ((name.bind s.typeId?).map MetaObject.type))
    else none
  else none

/-- A host with introspection. -/
def withIntrospection (h : Host ρ) : Host (ExecutionObject ρ) := fun o r =>
  match metaField? r with
  | some v => .ok (v.map .introspection)
  | none =>
    match o with
    | .host o => (h o r).map (·.map .host)
    | .introspection o => (MetaObject.host r.schema o r).map (·.map .introspection)

end Host

end GraphQL
