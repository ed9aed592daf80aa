import GraphQL.Text.Position
import GraphQL.Text.StringLiteral

/-!
Names and value literals of a document.

A literal is a value as it is written: numbers keep their digits, objects their repeated fields, and
a variable may stand for any part. Two literals are equivalent when they differ in their places
alone. `Literal.render` writes a literal on one line.
-/

namespace GraphQL

/-- A name and the place where it is written. -/
structure Name where
  text : String
  pos : Pos
deriving DecidableEq, Repr, Inhabited

namespace Name

/-- Names with two leading underscores are kept for introspection. -/
def isReservedText (text : String) : Bool := "__".toList.isPrefixOf text.toList

def isReserved (n : Name) : Bool := isReservedText n.text

end Name

/-- The kinds of literals that are one token. The text of a string is the text that it denotes, the
text of any other the token itself. -/
inductive LiteralKind where
  | int | float | string | boolean | enum
deriving DecidableEq, Repr

namespace LiteralKind

def description : LiteralKind → String
  | int => "integer"
  | float => "float"
  | string => "string"
  | boolean => "boolean"
  | enum => "enum"

end LiteralKind

inductive Literal where
  | null (pos : Pos)
  | var (name : String) (pos : Pos)
  | scalar (kind : LiteralKind) (text : String) (pos : Pos)
  | list (items : List Literal) (pos : Pos)
  | object (fields : List (Name × Literal)) (pos : Pos)
deriving Repr, Inhabited

namespace Literal

def pos : Literal → Pos
  | null p | var _ p | scalar _ _ p | list _ p | object _ p => p

def isNull : Literal → Bool
  | null _ => true
  | _ => false

def var? : Literal → Option String
  | var name _ => some name
  | _ => none

mutual

/-- The variables in a literal, in the order in which they are written. -/
def variableUses : Literal → List (String × Pos)
  | null _ => []
  | var name p => [(name, p)]
  | scalar .. => []
  | list items _ => variableUsesOfItems items
  | object fields _ => variableUsesOfFields fields

def variableUsesOfItems : List Literal → List (String × Pos)
  | [] => []
  | v :: vs => v.variableUses ++ variableUsesOfItems vs

def variableUsesOfFields : List (Name × Literal) → List (String × Pos)
  | [] => []
  | (_, v) :: fs => v.variableUses ++ variableUsesOfFields fs

end

def containsVariables (v : Literal) : Bool := !v.variableUses.isEmpty

mutual

/-- Equality up to places. Fields of objects are compared in order. -/
def isEquivalent : Literal → Literal → Bool
  | null _, null _ => true
  | var a _, var b _ => a == b
  | scalar k a _, scalar l b _ => k == l && a == b
  | list as _, list bs _ => itemsEquivalent as bs
  | object as _, object bs _ => fieldsEquivalent as bs
  | _, _ => false

def itemsEquivalent : List Literal → List Literal → Bool
  | [], [] => true
  | a :: as, b :: bs => a.isEquivalent b && itemsEquivalent as bs
  | _, _ => false

def fieldsEquivalent : List (Name × Literal) → List (Name × Literal) → Bool
  | [], [] => true
  | (m, a) :: as, (n, b) :: bs => m.text == n.text && a.isEquivalent b && fieldsEquivalent as bs
  | _, _ => false

end

mutual

/-- A literal on one line. -/
def render : Literal → String
  | null _ => "null"
  | var name _ => "$" ++ name
  | scalar .string text _ => StringLiteral.quote text
  | scalar _ text _ => text
  | list items _ => "[" ++ String.intercalate ", " (renderItems items) ++ "]"
  | object fields _ => "\x7b" ++ String.intercalate ", " (renderFields fields) ++ "\x7d"

def renderItems : List Literal → List String
  | [] => []
  | v :: vs => v.render :: renderItems vs

def renderFields : List (Name × Literal) → List String
  | [] => []
  | (n, v) :: fs => (n.text ++ ": " ++ v.render) :: renderFields fs

end

end Literal

end GraphQL
