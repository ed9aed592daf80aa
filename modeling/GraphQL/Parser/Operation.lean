import GraphQL.Parser.Value

/-!
Selections, operations and fragments.
-/

namespace GraphQL

namespace Parse

def field (selectionSet : Parse SelectionSet) : Parse Selection := do
  let first ← expectName "field name"
  let (alias?, name) ← aliased first
  let args ← arguments .fieldArguments none
  let dirs ← directives none
  let f : Field := ⟨alias?, name, args, dirs, first.pos⟩
  if ← nextIs .braceOpen then
    let below ← selectionSet
    return .field f (some below)
  else return .field f none
where
  /-- The name is the second one, if a colon makes the first one an alias. -/
  aliased (first : Name) : Parse (Option Name × Name) := do
    if ← nextIs .colon then
      advance
      let name ← expectName "field name after alias"
      return (some first, name)
    else return (none, first)

/-- What follows three points: a type condition, directives or selections make it an inline
fragment, a name the use of a fragment. -/
def fragmentSelection (selectionSet : Parse SelectionSet) : Parse Selection := do
  let points ← expect .ellipsis
  match ← peek with
  | some t =>
    if t.isKeyword "on" then do
      advance
      let condition ← expectName "type condition"
      inlineFragment points.start (some condition)
    else if t.kind = .name then do
      advance
      let dirs ← directives none
      return .spread ⟨⟨t.text, t.start⟩, dirs, points.start⟩
    else inlineFragment points.start none
  | none => inlineFragment points.start none
where
  inlineFragment (p : Pos) (condition : Option Name) : Parse Selection := do
    let dirs ← directives none
    let below ← selectionSet
    return .inline ⟨condition, dirs, p⟩ below

def selection (selectionSet : Parse SelectionSet) : Parse Selection := do
  match ← peek with
  | some t =>
    match t.kind with
    | .ellipsis => fragmentSelection selectionSet
    | .name => field selectionSet
    | _ => unexpected "a field, fragment spread, or inline fragment"
  | none => unexpected "a field, fragment spread, or inline fragment"

/-- A selection set that nests `levels` levels at most. -/
def selectionSetWithin : Nat → Parse SelectionSet
  | 0 => tooDeep
  | levels + 1 => nested do
    let (selections, p) ← group .selectionSet (selection (selectionSetWithin levels))
    return .mk selections p

def selectionSet : Parse SelectionSet := do
  selectionSetWithin (← limits).maxDepth

def shorthandOperation : Parse OperationDefinition := do
  let p ← here
  let below ← selectionSet
  return ⟨.query, none, [], [], below, true, p⟩

/-- The value behind an equals sign, if there is one. -/
def defaultValue (place : ConstantPlace) : Parse (Option Literal) := do
  if ← nextIs .equals then
    advance
    let v ← value (some place)
    return some v
  else return none

def variableDefinition : Parse VariableDefinition := do
  let dollar ← expect .dollar
  let name ← expectName "variable name"
  discard <| expect .colon
  let type ← typeRef
  let default? ← defaultValue .variableDefault
  let dirs ← directives (some .variableDefault)
  return ⟨name, type, default?, dirs, dollar.start⟩

/-- The name of an operation, which may go without. -/
def operationName : Parse (Option Name) := do
  if ← nextIs .name then
    let name ← expectName "operation name"
    return some name
  else return none

def operationDefinition (type : OperationType) : Parse OperationDefinition := do
  let keyword ← expectKeyword type.keyword
  let name ← operationName
  let definitions ← optionalGroup .variableDefinitions variableDefinition
  let dirs ← directives none
  let below ← selectionSet
  return ⟨type, name, definitions, dirs, below, false, keyword.start⟩

def fragmentDefinition : Parse FragmentDefinition := do
  let keyword ← expectKeyword "fragment"
  let name ← expectName "fragment name"
  if name.text == "on" then
    report ⟨name.pos, 2, .reservedName name.text .fragmentName⟩
  discard <| expectKeyword "on"
  let condition ← expectName "type condition"
  let dirs ← directives none
  let below ← selectionSet
  return ⟨name, condition, dirs, below, keyword.start⟩

end Parse

end GraphQL
