import GraphQL.Document.TypeRef

/-!
Selections: the fields that a document asks for, and the fragments that stand for more of them.

What a selection says of itself is kept apart from the selections below it, so that a walk over the
tree meets three shapes only: a selection, a selection set, a list of selections.
-/

namespace GraphQL

/-- An argument of a field or a directive. -/
structure Argument where
  name : Name
  value : Literal
deriving Repr, Inhabited

namespace Argument

def pos (a : Argument) : Pos := a.name.pos

def render (a : Argument) : String := a.name.text ++ ": " ++ a.value.render

def find? (args : List Argument) (name : String) : Option Argument :=
  args.find? fun a => a.name.text == name

end Argument

/-- A directive where it is applied; it stands at its `@`. -/
structure Directive where
  name : Name
  arguments : List Argument
  pos : Pos
deriving Repr, Inhabited

namespace Directive

def argument? (d : Directive) (name : String) : Option Argument := Argument.find? d.arguments name

end Directive

/-- A field without the selections below it. It stands at its alias, if it has one. -/
structure Field where
  alias? : Option Name
  name : Name
  arguments : List Argument
  directives : List Directive
  pos : Pos
deriving Repr, Inhabited

namespace Field

/-- The key of the field's result: the alias, or else the name. -/
def responseKey (f : Field) : String := (f.alias?.getD f.name).text

def argument? (f : Field) (name : String) : Option Argument := Argument.find? f.arguments name

end Field

/-- The use of a named fragment; it stands at its three points. -/
structure FragmentSpread where
  name : Name
  directives : List Directive
  pos : Pos
deriving Repr, Inhabited

/-- An inline fragment without its selections; it stands at its three points. -/
structure InlineFragment where
  typeCondition : Option Name
  directives : List Directive
  pos : Pos
deriving Repr, Inhabited

mutual

inductive Selection where
  | field (field : Field) (below : Option SelectionSet)
  | spread (spread : FragmentSpread)
  | inline (fragment : InlineFragment) (below : SelectionSet)

/-- Selections between braces; they stand at the opening one. -/
inductive SelectionSet where
  | mk (selections : List Selection) (pos : Pos)

end

deriving instance Repr for Selection
deriving instance Repr for SelectionSet

namespace SelectionSet

def selections : SelectionSet → List Selection
  | mk ss _ => ss

def pos : SelectionSet → Pos
  | mk _ p => p

instance : Inhabited SelectionSet := ⟨mk [] .start⟩

end SelectionSet

namespace Selection

instance : Inhabited Selection := ⟨spread default⟩

def pos : Selection → Pos
  | field f _ => f.pos
  | spread s => s.pos
  | inline i _ => i.pos

def directives : Selection → List Directive
  | field f _ => f.directives
  | spread s => s.directives
  | inline i _ => i.directives

end Selection

end GraphQL
