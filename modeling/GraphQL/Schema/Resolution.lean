import GraphQL.Schema.Builtin
import GraphQL.Schema.Error

/-!
From type definitions as they are written to the types of a schema.

All names are known when the members of the types are worked out. What is wrong with a member is
reported and the member left out. Default values wait until all types are there.
-/

namespace GraphQL

/-- A document with type definitions. -/
structure SchemaDocument where
  file : Option String
  source : List Char
  types : List TypeDefinition
  /-- Names in a builtin document may start with two underscores. -/
  isBuiltin : Bool

namespace SchemaDocument

def place (d : SchemaDocument) (p : Pos) : SchemaPlace := ⟨d.file, p.lineColumn d.source⟩

end SchemaDocument

/-- A default value that is not coerced yet. -/
structure PendingDefault where
  owner : InputOwner
  type : TypeId
  literal : Literal
  place : SchemaPlace

structure ResolutionState where
  registry : TypeRegistry
  /-- The default values found so far, the latest first. -/
  pending : List PendingDefault
  /-- The errors found so far, the latest first. -/
  errors : List DefinitionError

/-- What the members of a type are worked out against. -/
structure ResolutionContext where
  document : SchemaDocument
  directives : List DirectiveSpec
  /-- The kind of each type, by name. -/
  kinds : List (String × NamedTypeKind)

abbrev Resolution (α : Type) := ReaderT ResolutionContext (StateM ResolutionState) α

namespace Resolution

def report (e : DefinitionError) : Resolution Unit :=
  modify fun st => { st with errors := e :: st.errors }

def place (p : Pos) : Resolution SchemaPlace := return (← read).document.place p

def kind? (name : String) : Resolution (Option NamedTypeKind) := return (← read).kinds.lookup name

/-- Interns a type as it is written, if its name is known. -/
def typeOfRef : TypeRef → Resolution (Option TypeId)
  | .named n => do
    match ← kind? n.text with
    | none =>
      report (.undefinedType n.text (← place n.pos))
      return none
    | some _ => return (← get).registry.named? n.text
  | .list t _ => do
    match ← typeOfRef t with
    | none => return none
    | some e =>
      let (list, registry) := (← get).registry.listOf e
      modify fun st => { st with registry := registry }
      return some list
  | .nonNull t _ => do
    return (← typeOfRef t).map (·.nonNull)

/-! ### Directives -/

/-- The reason that the arguments of a `deprecated` directive give. -/
def deprecationReason (directive : Directive) (reason : Option String) :
    List Argument → Resolution (Option String)
  | [] => return reason
  | a :: as => do
    if a.name.text == "reason" then
      match a.value with
      | .scalar .string text _ => deprecationReason directive (some text) as
      | .null _ => deprecationReason directive none as
      | v =>
        report (.deprecationReason v (← place directive.pos))
        deprecationReason directive reason as
    else
      report (.deprecationArgument a.name.text (← place directive.pos))
      deprecationReason directive reason as

/-- Checks the directives of a definition and says whether they deprecate it. -/
def directivesFrom (location : DirectiveLocation) (seen : List String) (state : Deprecation) :
    List Directive → Resolution Deprecation
  | [] => return state
  | d :: ds => do
    let name := d.name.text
    match (← read).directives.find? fun spec => spec.name == name with
    | none =>
      report (.unknownDirective name (← place d.pos))
      directivesFrom location seen state ds
    | some spec =>
      if !spec.locations.contains location then
        report (.misplacedDirective name location (← place d.pos))
        directivesFrom location seen state ds
      else if seen.contains name then
        report (.duplicateDirective name (← place d.pos))
        directivesFrom location seen state ds
      else if name == "deprecated" then
        let reason ← deprecationReason d (some Deprecation.defaultReason) d.arguments
        directivesFrom location (name :: seen) (.deprecated reason) ds
      else directivesFrom location (name :: seen) state ds

def directives (location : DirectiveLocation) (ds : List Directive) : Resolution Deprecation :=
  directivesFrom location [] .current ds

/-! ### Members -/

/-- Works out members one by one. A member whose name is reserved or was there before is reported and
left out. -/
def members {α β : Type} (typeName : String) (nameOf : α → Name)
    (duplicate : String → SchemaPlace → SchemaPlace → DefinitionError)
    (member : α → Resolution (Option β)) (seen : List Name) : List α → Resolution (List β)
  | [] => return []
  | a :: as => do
    let name := nameOf a
    if name.isReserved && !(← read).document.isBuiltin then
      report (.reservedName name.text typeName (← place name.pos))
      members typeName nameOf duplicate member seen as
    else
      match seen.find? fun n => n.text == name.text with
      | some first =>
        report (duplicate name.text (← place first.pos) (← place name.pos))
        members typeName nameOf duplicate member seen as
      | none =>
        let resolved ← member a
        let rest ← members typeName nameOf duplicate member (name :: seen) as
        return resolved.toList ++ rest

/-- An argument or an input field. A default value is put aside, and null stands for it. -/
def input (owner : InputOwner) (d : InputDefinition) : Resolution (Option InputSpec) := do
  let location :=
    match owner with
    | .argument .. => DirectiveLocation.argumentDefinition
    | .inputField .. => .inputFieldDefinition
  discard <| directives location d.directives
  match ← typeOfRef d.type with
  | none => return none
  | some type =>
    let innermost := d.type.innermost.text
    if (← kind? innermost) = some .object then
      report (.outputTypeAsInput owner innermost (← place d.name.pos))
      return none
    else
      match d.default? with
      | none => return some ⟨d.name.text, type, none, d.description⟩
      | some literal =>
        let pending : PendingDefault := ⟨owner, type, literal, ← place d.name.pos⟩
        modify fun st => { st with pending := pending :: st.pending }
        return some ⟨d.name.text, type, some (.null type), d.description⟩

def inputFields (typeName : String) (ds : List InputDefinition) : Resolution (List InputSpec) :=
  members typeName (·.name) (.duplicateField typeName)
    (fun d => input (.inputField typeName d.name.text) d) [] ds

def arguments (typeName fieldName : String) (ds : List InputDefinition) :
    Resolution (List InputSpec) :=
  members typeName (·.name) (.duplicateArgument typeName fieldName)
    (fun d => input (.argument typeName fieldName d.name.text) d) [] ds

def field (typeName : String) (d : FieldDefinition) : Resolution (Option FieldSpec) := do
  let state ← directives .fieldDefinition d.directives
  let args ← arguments typeName d.name.text d.arguments
  match ← typeOfRef d.type with
  | none => return none
  | some type =>
    let innermost := d.type.innermost.text
    if (← kind? innermost) = some .inputObject then
      report (.inputTypeAsOutput typeName d.name.text innermost (← place d.name.pos))
      return none
    else return some ⟨d.name.text, type, args, state, d.description⟩

def fields (typeName : String) (ds : List FieldDefinition) : Resolution (List FieldSpec) :=
  members typeName (·.name) (.duplicateField typeName) (field typeName) [] ds

def enumValue (d : EnumValueDefinition) : Resolution (Option EnumValueSpec) := do
  let state ← directives .enumValue d.directives
  return some ⟨d.name.text, d.description, state⟩

def enumValues (typeName : String) (ds : List EnumValueDefinition) :
    Resolution (List EnumValueSpec) :=
  members typeName (·.name) (.duplicateEnumValue typeName) enumValue [] ds

/-! ### Types -/

/-- Reports a type without members. -/
def requireMember {α : Type} (name : Name) (kind : MemberKind) (ds : List α) :
    Resolution Unit := do
  if ds.isEmpty then
    report (.emptyType name.text kind (← place name.pos))

def body (name : Name) (ds : List Directive) : TypeBody → Resolution NamedTypeBody
  | .scalar => do
    discard <| directives .scalar ds
    return .scalar none
  | .object members => do
    discard <| directives .object ds
    requireMember name .field members
    return .object (← fields name.text members)
  | .enum values => do
    discard <| directives .enum ds
    requireMember name .value values
    return .enum (← enumValues name.text values)
  | .input members => do
    discard <| directives .inputObject ds
    requireMember name .inputField members
    return .inputObject (← inputFields name.text members)

def type (d : TypeDefinition) : Resolution NamedType := do
  return ⟨d.name.text, d.description, ← body d.name d.directives d.body⟩

end Resolution

namespace TypeBody

def kind : TypeBody → NamedTypeKind
  | scalar => .scalar
  | object _ => .object
  | enum _ => .enum
  | input _ => .inputObject

end TypeBody

end GraphQL
