import GraphQL.Schema.Default
import GraphQL.Schema.InputCycle

/-!
Building schemas from documents.

A document is loaded on its own: it must be readable and hold type definitions only. Building takes
all documents together: it registers the names of all types, works out their members, and then
applies default values.
-/

namespace GraphQL

namespace SchemaDocument

/-- Reads a document with type definitions. -/
def load (file : Option String) (text : String) : Except SchemaError SchemaDocument :=
  let source := text.toList
  let result := Document.parse source
  match result.errors, result.document? with
  | [], some d =>
    match d.definitions.find? (·.isExecutable) with
    | some e => .error (.executableDefinition ⟨file, e.pos.lineColumn source⟩)
    | none => .ok ⟨file, source, d.types, false⟩
  | errors, _ => .error (.unreadable file source errors)

/-- The types of introspection, in front of all other documents. -/
def introspection : SchemaDocument := ⟨none, [], Builtin.introspectionTypes, true⟩

end SchemaDocument

/-- The names of types so far, and where each of them is defined. -/
structure TypeNames where
  registry : TypeRegistry
  origins : List (String × TypeOrigin)
  kinds : List (String × NamedTypeKind)

namespace TypeNames

/-- The names of the builtin scalars. -/
def builtin (id : Nat) : TypeNames :=
  ⟨Builtin.registry id, BuiltinScalar.all.map fun b => (b.name, .builtin),
    BuiltinScalar.all.map fun b => (b.name, .scalar)⟩

/-- Takes up the name of a type. -/
def register (names : TypeNames) (d : SchemaDocument) (t : TypeDefinition) :
    Except SchemaError TypeNames :=
  let name := t.name
  let origin := if d.isBuiltin then .builtin else .document (d.place name.pos)
  if name.isReserved && !d.isBuiltin then .error (.reservedTypeName name.text origin)
  else if (BuiltinScalar.ofName? name.text).isSome then .error (.builtinRedefined name.text origin)
  else
    match names.origins.lookup name.text with
    | some first => .error (.duplicateType name.text first origin)
    | none =>
      .ok ⟨(names.registry.named name.text).2, names.origins ++ [(name.text, origin)],
        names.kinds ++ [(name.text, t.body.kind)]⟩

def registerAll (names : TypeNames) (ds : List SchemaDocument) : Except SchemaError TypeNames :=
  ds.foldlM (fun names d => d.types.foldlM (fun names t => names.register d t) names) names

end TypeNames

namespace Schema

/-- Works out the types of a document. -/
def resolveDocument (names : TypeNames) (directives : List DirectiveSpec) (d : SchemaDocument) :
    StateM ResolutionState (List NamedType) :=
  (d.types.mapM Resolution.type).run ⟨d, directives, names.kinds⟩

/-- The handle of a root type, if there is an object type of that name. -/
def objectRoot? (names : TypeNames) (name : String) : Option TypeId :=
  if names.kinds.lookup name = some .object then names.registry.named? name else none

/-- Works out the types of all documents, with null for every default value, and what came up on the
way. -/
def resolve (ds : List SchemaDocument) (id : Nat) :
    Except SchemaError (Schema × ResolutionState) := do
  if ds.all (·.types.isEmpty) then throw .emptyDocument
  let ds := .introspection :: ds
  let names ← (TypeNames.builtin id).registerAll ds
  match objectRoot? names "Query" with
  | none => throw .noQueryType
  | some query =>
    let directives := Builtin.directives names.registry
    let (types, st) := (ds.mapM (resolveDocument names directives)).run ⟨names.registry, [], []⟩
    let schema : Schema :=
      { registry := st.registry
        types := BuiltinScalar.all.map (·.namedType) ++ types.flatten
        directives := directives
        query := query
        mutation := objectRoot? names "Mutation"
        subscription := objectRoot? names "Subscription"
        metaFields := Builtin.metaFields names.registry }
    return (schema, st)

/-- Builds a schema from documents. The handles of its types belong to the registry `id`. -/
def build (ds : List SchemaDocument) (id : Nat) : Except SchemaError Schema := do
  let (schema, st) ← resolve ds id
  let (schema, defaultErrors) := schema.applyDefaults st.pending.reverse
  let errors := st.errors.reverse ++ defaultErrors ++ schema.inputCycleErrors
  if errors.isEmpty then return schema else throw (.invalidDefinitions errors)

/-- Builds a schema from one document. -/
def ofText (text : String) (id : Nat) : Except SchemaError Schema := do
  let d ← SchemaDocument.load none text
  build [d] id

end Schema

end GraphQL
