import GraphQL.Token.Lexer
import GraphQL.Parser.Diagnostic
import GraphQL.Parser.TypeDefinition

/-!
Reading documents.

A document is cut into tokens and then read definition by definition. Where a definition fails, the
next one is looked for, so that one pass reports all errors. A document that is too large or nests
too deep is given up with that one error.
-/

namespace GraphQL

structure ParseOptions where
  /-- How many bytes a document may have. -/
  maxSize : Nat
  /-- How deep values, types and selection sets may nest. -/
  maxDepth : Nat
deriving Repr

namespace ParseOptions

def default : ParseOptions := ⟨1024 * 1024, 64⟩

end ParseOptions

/-- What a reading found. A document that was given up has no tree. -/
structure ParseResult where
  document? : Option Document
  errors : List ParseError
deriving Repr

namespace ParseResult

def isOk (r : ParseResult) : Bool := r.document?.isSome && r.errors.isEmpty

/-- The document, if nothing is wrong with it. -/
def valid? (r : ParseResult) : Option Document := if r.errors.isEmpty then r.document? else none

/-- All errors with the lines of the source that they are about. -/
def formatErrors (r : ParseResult) (source : List Char) (file : Option String) : String :=
  String.intercalate "\n" (r.errors.map (·.detailed source file))

end ParseResult

namespace Parse

/-- The next definition, or nothing if it was one that is skipped. -/
def definition : Parse (Option Definition) := do
  match ← peek with
  | none => fail
  | some t =>
    match t.kind with
    | .braceOpen =>
      let op ← shorthandOperation
      return some (.operation op)
    | .string | .blockString =>
      let desc ← description
      match ← peek with
      | some next =>
        if next.kind = .name && isTypeKeyword next.text then
          let d ← typeDefinition desc t.start
          return some (.type d)
        else if next.kind = .name && isUnsupportedKeyword next.text then
          unsupportedDefinition next
          return none
        else unexpected "a type definition after description"
      | none => unexpected "a type definition after description"
    | .name =>
      match OperationType.ofKeyword? t.text with
      | some type =>
        let op ← operationDefinition type
        return some (.operation op)
      | none =>
        if t.text == "fragment" then
          let f ← fragmentDefinition
          return some (.fragment f)
        else if isTypeKeyword t.text then
          let d ← typeDefinition none t.start
          return some (.type d)
        else if isUnsupportedKeyword t.text then
          unsupportedDefinition t
          return none
        else unexpected "a definition"
    | _ => unexpected "a definition"

/-- Looks for the next definition behind one that failed and began in front of `before`. -/
def recoverDefinition (before : List Token) : Parse Unit := do
  if (← remaining).length = before.length then advance
  continueAt (nextDefinition (← remaining))
  dropDelimiters
where
  dropDelimiters : Parse Unit := fun _ st => (some (), { st with delimiters := [] })

/-- All definitions that are left. -/
def definitions : Nat → List Definition → Parse (List Definition)
  | 0, read => return read.reverse
  | steps + 1, read => do
    let before ← remaining
    if (← isAborted) || before.isEmpty then return read.reverse
    else
      match ← attempt definition with
      | some (some d) => definitions steps (d :: read)
      | some none => definitions steps read
      | none =>
        recoverDefinition before
        definitions steps read

end Parse

namespace Document

/-- Reads a document within limits. -/
def parseWith (options : ParseOptions) (source : List Char) : ParseResult :=
  let size := byteLength source
  if options.maxSize < size then
    ⟨none, [⟨.start, 1, .documentTooLarge size options.maxSize⟩]⟩
  else
    let tokens := Token.lex source
    let env : ParseLimits := ⟨.ofOffset size, tokens.length, options.maxDepth⟩
    let (read, st) := Parse.definitions (tokens.length + 1) [] env (.start tokens)
    match st.aborted with
    | some e => ⟨none, [e]⟩
    | none => ⟨some ⟨read.getD []⟩, st.errors.reverse⟩

def parse (source : List Char) : ParseResult := parseWith .default source

end Document

end GraphQL
