import GraphQL.Execution.Selection

/-!
Operations that are ready to be executed.
-/

namespace GraphQL

/-- An operation with values for its variables and merged fields. -/
structure PreparedOperation where
  schema : Schema
  type : OperationType
  name : Option String
  root : TypeId
  variableValues : Variables
  fields : List SelectedField

/-- Why no operation can be executed. -/
inductive RequestError where
  | noOperation
  | nameRequired
  | unknownOperation (name : String)
  | subscription
  | noMutationType
deriving DecidableEq, Repr

namespace RequestError

def message : RequestError → String
  | noOperation => "The document does not contain any operations"
  | nameRequired =>
    "An operation name must be provided when the document contains multiple operations"
  | unknownOperation n => "Unknown operation named `" ++ n ++ "`"
  | subscription => "Subscription operations are not supported"
  | noMutationType => "The schema does not define a `Mutation` root type"

def toResponseErrors (e : RequestError) : List ResponseError := [.ofMessage e.message]

end RequestError

namespace Document

/-- The operation of a name, or the only one. -/
def operation (d : Document) (name : Option String) : Except RequestError OperationDefinition :=
  match name with
  | some n =>
    match d.operations.find? fun op => op.nameText? == some n with
    | some op => .ok op
    | none => .error (.unknownOperation n)
  | none =>
    match d.operations with
    | [] => .error .noOperation
    | [op] => .ok op
    | _ => .error .nameRequired

end Document

namespace Schema

/-- The root type of an operation that can be executed. -/
def executableRoot (s : Schema) : OperationType → Except RequestError TypeId
  | .query => .ok s.query
  | .mutation =>
    match s.mutation with
    | some t => .ok t
    | none => .error .noMutationType
  | .subscription => .error .subscription

/-- Chooses an operation of a valid document, whose text is `source`, and makes it ready to be
executed with the supplied values of variables. -/
def prepare (s : Schema) (d : Document) (source : List Char) (name : Option String)
    (supplied : List (String × Literal)) : Except (List ResponseError) PreparedOperation := do
  let op ← (d.operation name).mapError (·.toResponseErrors)
  let root ← (s.executableRoot op.type).mapError (·.toResponseErrors)
  let values ← (s.coerceVariables op.variableDefinitions supplied).mapError fun es =>
    es.map fun e => ⟨e.message, [e.pos.lineColumn source], none⟩
  let (fields, errors) := SelectionContext.select ⟨s, d, source, values⟩ root op.selectionSet
  if errors.isEmpty then return ⟨s, op.type, op.nameText?, root, values, fields⟩
  else throw errors

end Schema

end GraphQL
