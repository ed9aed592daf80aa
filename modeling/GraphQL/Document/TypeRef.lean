import GraphQL.Document.Literal

/-!
Types as they are written in a document.
-/

namespace GraphQL

/-- A list stands at its bracket, a required type where the type that it requires stands. -/
inductive TypeRef where
  | named (name : Name)
  | list (element : TypeRef) (pos : Pos)
  | nonNull (required : TypeRef) (pos : Pos)
deriving Repr, Inhabited

namespace TypeRef

def pos : TypeRef → Pos
  | named n => n.pos
  | list _ p | nonNull _ p => p

def isNonNull : TypeRef → Bool
  | nonNull .. => true
  | _ => false

/-- The name under all lists and marks. -/
def innermost : TypeRef → Name
  | named n => n
  | list t _ | nonNull t _ => t.innermost

/-- Equality up to places. -/
def isEquivalent : TypeRef → TypeRef → Bool
  | named a, named b => a.text == b.text
  | list a _, list b _ => a.isEquivalent b
  | nonNull a _, nonNull b _ => a.isEquivalent b
  | _, _ => false

def render : TypeRef → String
  | named n => n.text
  | list t _ => "[" ++ t.render ++ "]"
  | nonNull t _ => t.render ++ "!"

end TypeRef

end GraphQL
