import GraphQL.Document.Selection

/-!
Documents: operations, fragments and type definitions, in the order in which they are written.
-/

namespace GraphQL

inductive OperationType where
  | query | mutation | subscription
deriving DecidableEq, Repr, Inhabited

namespace OperationType

def keyword : OperationType → String
  | query => "query"
  | mutation => "mutation"
  | subscription => "subscription"

def ofKeyword? : String → Option OperationType
  | "query" => some query
  | "mutation" => some mutation
  | "subscription" => some subscription
  | _ => none

@[simp] theorem ofKeyword?_keyword (t : OperationType) : ofKeyword? t.keyword = some t := by
  cases t <;> rfl

end OperationType

/-- A variable in the head of an operation; it stands at its dollar sign. -/
structure VariableDefinition where
  name : Name
  type : TypeRef
  default? : Option Literal
  directives : List Directive
  pos : Pos
deriving Repr, Inhabited

/-- A query, mutation or subscription. The short form is a selection set alone. -/
structure OperationDefinition where
  type : OperationType
  name : Option Name
  variableDefinitions : List VariableDefinition
  directives : List Directive
  selectionSet : SelectionSet
  isShorthand : Bool
  pos : Pos
deriving Repr, Inhabited

namespace OperationDefinition

def nameText? (op : OperationDefinition) : Option String := op.name.map Name.text

def variableNamed? (op : OperationDefinition) (name : String) : Option VariableDefinition :=
  op.variableDefinitions.find? fun v => v.name.text == name

end OperationDefinition

structure FragmentDefinition where
  name : Name
  typeCondition : Name
  directives : List Directive
  selectionSet : SelectionSet
  pos : Pos
deriving Repr, Inhabited

/-- An argument of a field, or a field of an input object. A definition stands at its description,
if it has one. -/
structure InputDefinition where
  description : Option String
  name : Name
  type : TypeRef
  default? : Option Literal
  directives : List Directive
  pos : Pos
deriving Repr, Inhabited

structure FieldDefinition where
  description : Option String
  name : Name
  arguments : List InputDefinition
  type : TypeRef
  directives : List Directive
  pos : Pos
deriving Repr, Inhabited

structure EnumValueDefinition where
  description : Option String
  name : Name
  directives : List Directive
  pos : Pos
deriving Repr, Inhabited

/-- The members of a type definition, with the keyword that introduces them. -/
inductive TypeBody where
  | scalar
  | object (fields : List FieldDefinition)
  | enum (values : List EnumValueDefinition)
  | input (fields : List InputDefinition)
deriving Repr, Inhabited

namespace TypeBody

def keyword : TypeBody → String
  | scalar => "scalar"
  | object _ => "type"
  | enum _ => "enum"
  | input _ => "input"

end TypeBody

structure TypeDefinition where
  description : Option String
  name : Name
  directives : List Directive
  body : TypeBody
  pos : Pos
deriving Repr, Inhabited

inductive Definition where
  | operation (definition : OperationDefinition)
  | fragment (definition : FragmentDefinition)
  | type (definition : TypeDefinition)
deriving Repr, Inhabited

namespace Definition

def pos : Definition → Pos
  | operation d => d.pos
  | fragment d => d.pos
  | type d => d.pos

/-- Operations and fragments can be executed, types cannot. -/
def isExecutable : Definition → Bool
  | operation _ | fragment _ => true
  | type _ => false

def operation? : Definition → Option OperationDefinition
  | operation d => some d
  | _ => none

def fragment? : Definition → Option FragmentDefinition
  | fragment d => some d
  | _ => none

def type? : Definition → Option TypeDefinition
  | type d => some d
  | _ => none

end Definition

structure Document where
  definitions : List Definition
deriving Repr, Inhabited

namespace Document

def operations (d : Document) : List OperationDefinition := d.definitions.filterMap (·.operation?)

def fragments (d : Document) : List FragmentDefinition := d.definitions.filterMap (·.fragment?)

def types (d : Document) : List TypeDefinition := d.definitions.filterMap (·.type?)

/-- The first fragment of a name. -/
def fragment? (d : Document) (name : String) : Option FragmentDefinition :=
  d.fragments.find? fun f => f.name.text == name

end Document

end GraphQL
