import GraphQL.Parser.Operation

/-!
Type definitions, and the definitions of a schema language that are known but not supported.
-/

namespace GraphQL

/-- The keywords that a type definition starts with. -/
def isTypeKeyword (text : String) : Bool :=
  text == "scalar" || text == "type" || text == "enum" || text == "input"

/-- The keywords of definitions that are skipped. -/
def isUnsupportedKeyword (text : String) : Bool :=
  text == "interface" || text == "union" || text == "directive" || text == "schema"
    || text == "extend"

namespace Parse

/-- Whether a word starts a definition, judged by the token behind it. The name of a field can be
such a word, but stands in front of other tokens. -/
def startsDefinition (word : String) (next : Option Token) : Bool :=
  let nextKind : Option TokenKind := next.map (·.kind)
  match word with
  | "query" | "mutation" | "subscription" =>
    match nextKind with
    | none | some .name | some .braceOpen | some .parenOpen | some .atSign => true
    | _ => false
  | "fragment" => next.any fun t => t.kind = .name && t.text != "on"
  | "type" | "scalar" | "enum" | "input" | "interface" | "union" => nextKind = some .name
  | "directive" => nextKind = some .atSign
  | "schema" => nextKind = some .braceOpen || nextKind = some .atSign
  | "extend" =>
    next.any fun t =>
      t.kind = .name
        && (isTypeKeyword t.text || t.text == "interface" || t.text == "union"
          || t.text == "schema")
  | _ => false

/-- The tokens from the next definition on. -/
def nextDefinition : List Token → List Token
  | [] => []
  | t :: ts =>
    let isStart : Bool :=
      match t.kind with
      | .braceOpen => true
      | .name => startsDefinition t.text ts.head?
      | .string | .blockString =>
        match ts with
        | next :: ts =>
          next.kind = .name && isTypeKeyword next.text && startsDefinition next.text ts.head?
        | [] => false
      | _ => false
    if isStart then t :: ts else nextDefinition ts

/-- The tokens behind an unsupported definition: up to where another definition seems to start, or
up to the end of a body in braces. `depth` counts the open delimiters. -/
def behindUnsupported (depth : Nat) : List Token → List Token
  | [] => []
  | t :: ts =>
    if depth = 0 && t.kind = .name && startsDefinition t.text ts.head? then t :: ts
    else if t.kind.isOpening then behindUnsupported (depth + 1) ts
    else if t.kind.isClosing then
      if depth ≤ 1 && t.kind = .braceClose then ts else behindUnsupported (depth - 1) ts
    else behindUnsupported depth ts

/-- Reports an unsupported definition and skips it. -/
def unsupportedDefinition (keyword : Token) : Parse Unit := do
  advance
  report ⟨keyword.start, max 1 keyword.text.utf8ByteSize, .unsupportedDefinition keyword.text⟩
  if keyword.text == "extend" then advance
  continueAt (behindUnsupported 0 (← remaining))

/-- The text of a string in front of a definition. -/
def description : Parse (Option String) := do
  match ← peek with
  | some t =>
    if t.kind.isString then
      advance
      let text ← cook t
      return some text
    else return none
  | none => return none

def inputDefinition : Parse InputDefinition := do
  let p ← here
  let desc ← description
  let name ← expectName "input value name"
  discard <| expect .colon
  let type ← typeRef
  let default? ← defaultValue .inputDefault
  let dirs ← directives (some .schemaDirective)
  return ⟨desc, name, type, default?, dirs, p⟩

def fieldDefinition : Parse FieldDefinition := do
  let p ← here
  let desc ← description
  let name ← expectName "field name"
  let args ← optionalGroup .argumentDefinitions inputDefinition
  discard <| expect .colon
  let type ← typeRef
  let dirs ← directives (some .schemaDirective)
  return ⟨desc, name, args, type, dirs, p⟩

/-- Names that would read as literals of other kinds cannot be enum values. -/
def isReservedValue (text : String) : Bool := text == "true" || text == "false" || text == "null"

def enumValueDefinition : Parse EnumValueDefinition := do
  let p ← here
  let desc ← description
  let name ← expectName "enum value"
  if isReservedValue name.text then
    report ⟨name.pos, max 1 name.text.utf8ByteSize, .reservedName name.text .enumValue⟩
  let dirs ← directives (some .schemaDirective)
  return ⟨desc, name, dirs, p⟩

/-- Reports a clause with interfaces and skips it. -/
def implementsClause : Parse Unit := do
  match ← peek with
  | some t =>
    if t.isKeyword "implements" then
      advance
      report ⟨t.start, max 1 t.text.utf8ByteSize, .implementsClause⟩
      let isListed (t : Token) : Bool := t.kind = .name || (t.kind = .unknown && t.text == "&")
      continueAt ((← remaining).dropWhile isListed)
  | none => return

/-- A type definition from its keyword on; it stands at `p`. -/
def typeDefinition (desc : Option String) (p : Pos) : Parse TypeDefinition := do
  match ← peek with
  | none => fail
  | some keyword =>
    advance
    match keyword.text with
    | "scalar" =>
      let name ← expectName "scalar name"
      let dirs ← directives (some .schemaDirective)
      return ⟨desc, name, dirs, .scalar, p⟩
    | "type" =>
      let name ← expectName "object type name"
      implementsClause
      let dirs ← directives (some .schemaDirective)
      let fields ← optionalGroup .fieldsDefinition fieldDefinition
      return ⟨desc, name, dirs, .object fields, p⟩
    | "enum" =>
      let name ← expectName "enum name"
      let dirs ← directives (some .schemaDirective)
      let values ← optionalGroup .enumValues enumValueDefinition
      return ⟨desc, name, dirs, .enum values, p⟩
    | "input" =>
      let name ← expectName "input object name"
      let dirs ← directives (some .schemaDirective)
      let fields ← optionalGroup .inputFields inputDefinition
      return ⟨desc, name, dirs, .input fields, p⟩
    | _ =>
      stepBack keyword
      unexpected "a type definition"

end Parse

end GraphQL
