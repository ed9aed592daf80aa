import GraphQL.Json

/-!
Finding the member of an object that stands for a field.

Hosts do not always spell names like a schema does, so that a name which differs in the case of its
letters is taken where none is equal.
-/

namespace GraphQL

/-- Equality up to the case of the letters `a` to `z`. -/
def equalFolded (a b : String) : Bool :=
  a.toList.map Char.toLower == b.toList.map Char.toLower

/-- The member of a name, or else the first one whose name is equal up to case. -/
def findMember? {α : Type} (members : List (String × α)) (name : String) : Option α :=
  match members.lookup name with
  | some a => some a
  | none => (members.find? fun m => equalFolded m.1 name).map (·.2)

end GraphQL
