import GraphQL.Parser.Group

/-!
Values, types, arguments and directives.

Recursion is bounded by the nesting limit: below the deepest level that is allowed, the parse ends
anyway.
-/

namespace GraphQL

namespace Parse

/-- The literal that a name on its own stands for. -/
def literalOfName (t : Token) : Literal :=
  match t.text with
  | "null" => .null t.start
  | "true" | "false" => .scalar .boolean t.text t.start
  | _ => .scalar .enum t.text t.start

/-- A variable, reported where values must be constant. -/
def variableReference (place : Option ConstantPlace) (dollar : Token) : Parse Literal := do
  advance
  let name ← expectName "variable name"
  if let some place := place then
    report ⟨dollar.start, 1 + name.text.utf8ByteSize, .variableInConstant place⟩
  return .var name.text dollar.start

/-- A name, a colon and a value. -/
def namedValue (what : String) (value : Parse Literal) : Parse (Name × Literal) := do
  let name ← expectName what
  discard <| expect .colon
  let v ← value
  return (name, v)

/-- A value that nests `levels` levels at most. -/
def valueWithin (place : Option ConstantPlace) : Nat → Parse Literal
  | 0 => tooDeep
  | levels + 1 => nested do
    match ← peek with
    | none => unexpected "a value"
    | some t =>
      match t.kind with
      | .dollar => variableReference place t
      | .int => do
        advance
        return .scalar .int t.text t.start
      | .float => do
        advance
        return .scalar .float t.text t.start
      | .string | .blockString => do
        advance
        return .scalar .string (← cook t) t.start
      | .name => do
        advance
        return literalOfName t
      | .bracketOpen => do
        let (items, p) ← group .listValue (valueWithin place levels)
        return .list items p
      | .braceOpen => do
        let member := namedValue "object field name" (valueWithin place levels)
        let (fields, p) ← group .objectValue member
        return .object fields p
      | _ => unexpected "a value"

/-- A value; it is constant if it stands in a place where values must be. -/
def value (place : Option ConstantPlace) : Parse Literal := do
  valueWithin place (← limits).maxDepth

/-- Steps over a mark that makes the type in front of it a required one. -/
def requiredMark (start : Pos) (t : TypeRef) : Parse TypeRef := do
  if ← nextIs .bang then
    advance
    return .nonNull t start
  else return t

def typeRefWithin : Nat → Parse TypeRef
  | 0 => tooDeep
  | levels + 1 => nested do
    let start ← here
    if ← nextIs .bracketOpen then
      let opening ← expect .bracketOpen
      openDelimiter ⟨.listType, opening.start⟩
      let element ← attempt do
        let t ← typeRefWithin levels
        discard <| expect .bracketClose
        return t
      closeDelimiter
      match element with
      | some t => requiredMark start (.list t opening.start)
      | none => fail
    else
      let name ← expectName "a type"
      requiredMark start (.named name)

def typeRef : Parse TypeRef := do
  typeRefWithin (← limits).maxDepth

def argument (place : Option ConstantPlace) : Parse Argument := do
  let (name, v) ← namedValue "argument name" (value place)
  return ⟨name, v⟩

def arguments (c : Construct) (place : Option ConstantPlace) : Parse (List Argument) :=
  optionalGroup c (argument place)

def directive (place : Option ConstantPlace) : Parse Directive := do
  let mark ← expect .atSign
  let name ← expectName "directive name"
  let args ← arguments .directiveArguments place
  return ⟨name, args, mark.start⟩

/-- As many directives as follow. -/
def directivesFrom (place : Option ConstantPlace) : Nat → List Directive → Parse (List Directive)
  | 0, read => return read.reverse
  | steps + 1, read => do
    if ← nextIs .atSign then
      let d ← directive place
      directivesFrom place steps (d :: read)
    else return read.reverse

def directives (place : Option ConstantPlace) : Parse (List Directive) := do
  directivesFrom place (← limits).tokenCount []

end Parse

end GraphQL
