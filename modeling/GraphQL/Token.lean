import GraphQL.Text.Position

/-!
Tokens of the query language.

A token is a kind, the exact text that it covers, and the place where that text starts. Text that
begins no token becomes a token of the kind `unknown`, so that cutting up a source cannot fail.
-/

namespace GraphQL

inductive TokenKind where
  | bang | dollar | parenOpen | parenClose | ellipsis | colon | equals | atSign
  | bracketOpen | bracketClose | braceOpen | braceClose | pipe
  | name | int | float | string | blockString
  | unknown
deriving DecidableEq, Repr, Inhabited

namespace TokenKind

/-- How a punctuator is written. -/
def spelling? : TokenKind → Option String
  | bang => some "!"
  | dollar => some "$"
  | parenOpen => some "("
  | parenClose => some ")"
  | ellipsis => some "..."
  | colon => some ":"
  | equals => some "="
  | atSign => some "@"
  | bracketOpen => some "["
  | bracketClose => some "]"
  | braceOpen => some "\x7b"
  | braceClose => some "\x7d"
  | pipe => some "|"
  | name | int | float | string | blockString | unknown => none

def isPunctuator (k : TokenKind) : Bool := k.spelling?.isSome

/-- What a diagnostic calls a token of this kind. -/
def description (k : TokenKind) : String :=
  k.spelling?.getD <|
    match k with
    | name => "name"
    | int => "integer"
    | float => "float"
    | string => "string"
    | blockString => "block string"
    | _ => "unknown character"

/-- The delimiter that closes what this one opens. -/
def closing? : TokenKind → Option TokenKind
  | parenOpen => some parenClose
  | bracketOpen => some bracketClose
  | braceOpen => some braceClose
  | _ => none

def isOpening (k : TokenKind) : Bool := k.closing?.isSome

def isClosing : TokenKind → Bool
  | parenClose | bracketClose | braceClose => true
  | _ => false

def isString : TokenKind → Bool
  | string | blockString => true
  | _ => false

end TokenKind

structure Token where
  kind : TokenKind
  text : String
  start : Pos
deriving DecidableEq, Repr, Inhabited

namespace Token

/-- The place just behind the token. -/
def stop (t : Token) : Pos := .ofOffset (t.start.offset + t.text.utf8ByteSize)

def isKeyword (t : Token) (word : String) : Bool := t.kind = .name && t.text == word

end Token

end GraphQL
