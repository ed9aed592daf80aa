import GraphQL.Token
import GraphQL.Text.StringLiteral

/-!
What can be wrong with a document.

An error is a cause, a place, and the length of the text that it is about. Messages and notes are
worked out from the cause.
-/

namespace GraphQL

/-- The constructs that stand between delimiters. -/
inductive Construct where
  | selectionSet
  | fieldArguments | directiveArguments | variableDefinitions
  | listValue | objectValue | listType
  | fieldsDefinition | argumentDefinitions | enumValues | inputFields
deriving DecidableEq, Repr

namespace Construct

def description : Construct → String
  | selectionSet => "selection set"
  | fieldArguments => "field arguments"
  | directiveArguments => "directive arguments"
  | variableDefinitions => "variable definitions"
  | listValue => "list value"
  | objectValue => "object value"
  | listType => "list type"
  | fieldsDefinition => "fields definition"
  | argumentDefinitions => "argument definitions"
  | enumValues => "enum values definition"
  | inputFields => "input fields definition"

/-- The delimiter that opens the construct. -/
def opening : Construct → TokenKind
  | fieldArguments | directiveArguments | variableDefinitions | argumentDefinitions => .parenOpen
  | listValue | listType => .bracketOpen
  | selectionSet | objectValue | fieldsDefinition | enumValues | inputFields => .braceOpen

/-- The delimiter that closes the construct. -/
def closing : Construct → TokenKind
  | fieldArguments | directiveArguments | variableDefinitions | argumentDefinitions => .parenClose
  | listValue | listType => .bracketClose
  | selectionSet | objectValue | fieldsDefinition | enumValues | inputFields => .braceClose

@[simp] theorem closing?_opening (c : Construct) : c.opening.closing? = some c.closing := by
  cases c <;> rfl

/-- Literals may be empty, everything else needs a member. -/
def allowsEmpty : Construct → Bool
  | listValue | objectValue => true
  | _ => false

/-- Whether a member of the construct can start with a token. -/
def startsMember (c : Construct) (t : Token) : Bool :=
  match c with
  | selectionSet => t.kind = .name || t.kind = .ellipsis
  | fieldArguments | directiveArguments | objectValue => t.kind = .name
  | variableDefinitions => t.kind = .dollar
  | listValue =>
    match t.kind with
    | .dollar | .int | .float | .string | .blockString | .name | .bracketOpen | .braceOpen => true
    | _ => false
  | listType => false
  | fieldsDefinition | argumentDefinitions | enumValues | inputFields =>
    t.kind = .name || t.kind.isString

end Construct

/-- A delimiter that was opened, and for what. -/
structure Delimiter where
  construct : Construct
  pos : Pos
deriving DecidableEq, Repr

namespace Delimiter

def text (d : Delimiter) : String := d.construct.opening.description

end Delimiter

/-- The parts of a document where values must be constant. -/
inductive ConstantPlace where
  | variableDefault | inputDefault | schemaDirective
deriving DecidableEq, Repr

namespace ConstantPlace

def description : ConstantPlace → String
  | variableDefault => "variable default values"
  | inputDefault => "input value default values"
  | schemaDirective => "schema directive arguments"

end ConstantPlace

/-- The places where some names are not allowed. -/
inductive ReservedContext where
  | fragmentName | enumValue
deriving DecidableEq, Repr

namespace ReservedContext

def description : ReservedContext → String
  | fragmentName => "fragment name"
  | enumValue => "enum value"

end ReservedContext

inductive ParseErrorCause where
  | unexpectedToken (expected found : String)
  | unexpectedEnd (expected : String)
  | unclosedDelimiter (opened : Delimiter)
  | mismatchedDelimiter (expected found : String)
  | invalidToken (text : String)
  | invalidString (error : StringLiteralError)
  | reservedName (name : String) (context : ReservedContext)
  | unsupportedDefinition (keyword : String)
  | implementsClause
  | emptyConstruct (construct : Construct)
  | variableInConstant (place : ConstantPlace)
  | documentTooLarge (size limit : Nat)
  | nestingTooDeep (limit : Nat)
deriving DecidableEq, Repr

inductive NoteKind where
  | general | help
deriving DecidableEq, Repr

/-- A remark on an error, with the place that it is about, if there is one. -/
structure Note where
  kind : NoteKind
  message : String
  pos : Option Pos
deriving DecidableEq, Repr

structure ParseError where
  pos : Pos
  /-- How many bytes the text is long that the error is about. -/
  extent : Nat
  cause : ParseErrorCause
deriving DecidableEq, Repr

namespace StringLiteralError

/-- A control character in single quotes, as messages show it. -/
def showControl (c : Char) : String :=
  if c = '\x00' then "'\\0'"
  else "'\\u\x7b" ++ String.ofList (StringLiteral.hex false 1 c.toNat) ++ "\x7d'"

def message : StringLiteralError → String
  | unterminated => "unterminated string literal"
  | invalidEscape text => "invalid escape sequence `" ++ text ++ "`"
  | invalidUnicodeEscape text => "invalid unicode escape `" ++ text ++ "`"
  | invalidCharacter c => "invalid character " ++ showControl c ++ " in string literal"

end StringLiteralError

namespace ParseErrorCause

/-- Errors that end the reading of a document for good. -/
def isTerminal : ParseErrorCause → Bool
  | documentTooLarge .. | nestingTooDeep .. => true
  | _ => false

/-- Errors that report the end of the document. -/
def isUnfinished : ParseErrorCause → Bool
  | unexpectedEnd .. | unclosedDelimiter .. => true
  | _ => false

/-- Whether the text of an unknown token was meant to be a number. -/
def startsNumber (text : String) : Bool :=
  match text.toList with
  | c :: _ :: _ => c.isDigit || c = '-'
  | _ => false

def hasLeadingZero (text : String) : Bool :=
  match text.toList with
  | '-' :: '0' :: _ | '0' :: _ => true
  | _ => false

def message : ParseErrorCause → String
  | unexpectedToken expected found => "expected " ++ expected ++ ", found `" ++ found ++ "`"
  | unexpectedEnd expected => "expected " ++ expected ++ ", found end of input"
  | unclosedDelimiter d => "unclosed `" ++ d.text ++ "` in " ++ d.construct.description
  | mismatchedDelimiter expected found => "expected `" ++ expected ++ "`, found `" ++ found ++ "`"
  | invalidToken text =>
    (if startsNumber text then "invalid number `" else "unexpected character `") ++ text ++ "`"
  | invalidString error => "invalid string literal: " ++ error.message
  | reservedName name context => context.description ++ " cannot be `" ++ name ++ "`"
  | unsupportedDefinition keyword => "`" ++ keyword ++ "` definitions are not supported"
  | implementsClause => "interfaces are not supported; `implements` is not allowed"
  | emptyConstruct c => c.description ++ " cannot be empty"
  | variableInConstant place => "variables are not allowed in " ++ place.description
  | documentTooLarge size limit =>
    "document is " ++ toString size ++ " bytes, exceeding the maximum of " ++ toString limit
      ++ " bytes"
  | nestingTooDeep limit => "maximum nesting depth of " ++ toString limit ++ " exceeded"

/-- What all errors of a kind have in common. -/
def summary : ParseErrorCause → String
  | unexpectedToken _ found => "unexpected token: `" ++ found ++ "`"
  | unexpectedEnd _ => "unexpected end of input"
  | unclosedDelimiter d => "unclosed delimiter: `" ++ d.text ++ "`"
  | mismatchedDelimiter .. => "mismatched delimiter"
  | invalidToken text => "invalid token: `" ++ text ++ "`"
  | invalidString _ => "invalid string literal"
  | reservedName name _ => "reserved name: `" ++ name ++ "`"
  | unsupportedDefinition keyword => "unsupported definition: `" ++ keyword ++ "`"
  | implementsClause => "unsupported definition: `implements`"
  | emptyConstruct c => "invalid empty construct: `" ++ c.description ++ "`"
  | variableInConstant _ => "invalid syntax"
  | documentTooLarge .. => "document too large"
  | nestingTooDeep _ => "recursion limit exceeded"

def notes : ParseErrorCause → List Note
  | unclosedDelimiter d => [⟨.general, "opening `" ++ d.text ++ "` here", some d.pos⟩]
  | invalidToken text =>
    if text == "." then
      [⟨.help, "a `.` must either be part of a `...` spread or followed by fraction digits", none⟩]
    else if hasLeadingZero text then [⟨.help, "integers may not have leading zeros", none⟩]
    else []
  | reservedName _ .fragmentName =>
    [⟨.help, "fragments are declared as `fragment Name on Type \x7b ... \x7d`", none⟩]
  | _ => []

end ParseErrorCause

namespace ParseError

def message (e : ParseError) : String := e.cause.message

def notes (e : ParseError) : List Note := e.cause.notes

end ParseError

end GraphQL
