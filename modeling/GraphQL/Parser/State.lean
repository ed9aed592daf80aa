import GraphQL.Document
import GraphQL.Parser.Error

/-!
The steps that a parse is made of.

A parse reads tokens from the front of a list and reports errors on the side. It fails with no value
when it cannot go on; what it read and reported by then stays. `attempt` turns a failure into an
answer, so that the reading can be taken up again further on.
-/

namespace GraphQL

/-- What is fixed during a parse. -/
structure ParseLimits where
  /-- Where the document ends. -/
  endPos : Pos
  /-- How many tokens the document has; no loop over tokens takes more steps. -/
  tokenCount : Nat
  /-- How deep values, types and selection sets may nest. -/
  maxDepth : Nat

structure ParseState where
  /-- The tokens that are left. -/
  rest : List Token
  /-- The errors reported so far, the latest first. -/
  errors : List ParseError
  /-- The delimiters that are open, the innermost first. -/
  delimiters : List Delimiter
  /-- How many values, types and selection sets are open. -/
  depth : Nat
  /-- An error at the end of the document was reported. Further ones would repeat it. -/
  endReported : Bool
  /-- The error that ended the parse for good. -/
  aborted : Option ParseError

namespace ParseState

def start (tokens : List Token) : ParseState := ⟨tokens, [], [], 0, false, none⟩

end ParseState

/-- A parse of an `α`. -/
def Parse (α : Type) : Type := ParseLimits → ParseState → Option α × ParseState

namespace Parse

variable {α β : Type}

@[inline] protected def pure (a : α) : Parse α := fun _ st => (some a, st)

@[inline] protected def bind (p : Parse α) (f : α → Parse β) : Parse β := fun env st =>
  match p env st with
  | (some a, st) => f a env st
  | (none, st) => (none, st)

instance : Monad Parse where
  pure := Parse.pure
  bind := Parse.bind

theorem pure_apply (a : α) (env : ParseLimits) (st : ParseState) :
    (pure a : Parse α) env st = (some a, st) := rfl

theorem bind_apply (p : Parse α) (f : α → Parse β) (env : ParseLimits) (st : ParseState) :
    (p >>= f) env st =
      match p env st with
      | (some a, st) => f a env st
      | (none, st) => (none, st) := rfl

def fail : Parse α := fun _ st => (none, st)

/-- Runs a parse and says whether it failed. -/
def attempt (p : Parse α) : Parse (Option α) := fun env st =>
  let (a, st) := p env st
  (some a, st)

def limits : Parse ParseLimits := fun env st => (some env, st)

/-! ### Tokens -/

def remaining : Parse (List Token) := fun _ st => (some st.rest, st)

def peek : Parse (Option Token) := fun _ st => (some st.rest.head?, st)

/-- Steps over the next token, if there is one. -/
def advance : Parse Unit := fun _ st => (some (), { st with rest := st.rest.tail })

/-- Puts a token back that was stepped over last. -/
def stepBack (t : Token) : Parse Unit := fun _ st => (some (), { st with rest := t :: st.rest })

/-- Steps over all tokens in front of `rest`. -/
def continueAt (rest : List Token) : Parse Unit := fun _ st => (some (), { st with rest := rest })

def nextIs (k : TokenKind) : Parse Bool := do
  return (← peek).any (·.kind = k)

def nextIsKeyword (word : String) : Parse Bool := do
  return (← peek).any (·.isKeyword word)

/-- Where the next token stands, or the end of the document. -/
def here : Parse Pos := do
  match ← peek with
  | some t => return t.start
  | none => return (← limits).endPos

/-! ### Errors -/

def isAborted : Parse Bool := fun _ st => (some st.aborted.isSome, st)

/-- Reports an error, unless it is the second about the end of the document or the parse was ended
for good. -/
def report (e : ParseError) : Parse Unit := fun env st =>
  let atEnd := e.cause.isUnfinished && e.pos = env.endPos
  if st.aborted.isSome || (atEnd && st.endReported) then (some (), st)
  else (some (), { st with errors := e :: st.errors, endReported := st.endReported || atEnd })

/-- Ends the parse for good. -/
def abort (e : ParseError) : Parse α := fun _ st =>
  (none, { st with aborted := st.aborted.or (some e) })

/-- How a message names the token that was found. -/
def foundText (t : Token) : String := if t.kind.isString then "string" else t.text

/-- Reports that something else was expected of the next token. -/
def reportUnexpected (expected : String) : Parse Unit := do
  match ← peek with
  | none => report ⟨(← limits).endPos, 1, .unexpectedEnd expected⟩
  | some t =>
    let cause := if t.kind = .unknown then .invalidToken t.text
      else .unexpectedToken expected (foundText t)
    report ⟨t.start, max 1 t.text.utf8ByteSize, cause⟩

/-- Reports that something else was expected, and fails. -/
def unexpected (expected : String) : Parse α := do
  reportUnexpected expected
  fail

/-- Steps over a token of a kind, or fails. -/
def expect (k : TokenKind) : Parse Token := do
  match ← peek with
  | some t =>
    if t.kind = k then do
      advance
      return t
    else unexpected ("`" ++ k.description ++ "`")
  | none => unexpected ("`" ++ k.description ++ "`")

def expectKeyword (word : String) : Parse Token := do
  match ← peek with
  | some t =>
    if t.isKeyword word then do
      advance
      return t
    else unexpected ("`" ++ word ++ "`")
  | none => unexpected ("`" ++ word ++ "`")

/-- Steps over a name, or fails and says `what` was expected. Keywords are names here. -/
def expectName (what : String) : Parse Name := do
  match ← peek with
  | some t =>
    if t.kind = .name then do
      advance
      return ⟨t.text, t.start⟩
    else unexpected what
  | none => unexpected what

/-- The text of a string token. A malformed one is reported and stands for what is left of it
without the quotes at both ends. -/
def cook (t : Token) : Parse String := do
  match StringLiteral.cook t.text with
  | .ok text => return text
  | .error e =>
    report ⟨t.start, max 1 t.text.utf8ByteSize, .invalidString e⟩
    return trimQuotes t.text
where
  trimQuotes (text : String) : String :=
    String.ofList ((text.toList.dropWhile (· = '"')).reverse.dropWhile (· = '"')).reverse

/-! ### Nesting -/

def openDelimiter (d : Delimiter) : Parse Unit := fun _ st =>
  (some (), { st with delimiters := d :: st.delimiters })

def closeDelimiter : Parse Unit := fun _ st =>
  (some (), { st with delimiters := st.delimiters.tail })

/-- Whether a delimiter closes one that was opened outside the innermost one. -/
def closesOuter (closer : TokenKind) : Parse Bool := fun _ st =>
  (some (st.delimiters.tail.any (·.construct.closing = closer)), st)

/-- Ends the parse because it nests too deep. -/
def tooDeep : Parse α := do
  let limit := (← limits).maxDepth
  abort ⟨← here, 1, .nestingTooDeep limit⟩

/-- Runs a parse one level deeper, if there is one more level. -/
def nested (p : Parse α) : Parse α := fun env st =>
  if st.aborted.isSome then (none, st)
  else if env.maxDepth ≤ st.depth then tooDeep env st
  else
    let (a, st) := p env { st with depth := st.depth + 1 }
    (a, { st with depth := st.depth - 1 })

end Parse

end GraphQL
