import GraphQL.Execution.Host
import GraphQL.Execution.Member

/-!
Hosts with a handler for each field.
-/

namespace GraphQL

/-- Answers one field of an object that is known. -/
abbrev FieldHandler (ρ : Type) := FieldRequest → Except String (HostValue ρ)

/-- Handlers by the name of their field, in the order in which the names were first registered. -/
abbrev FieldHandlers (ρ : Type) := List (String × FieldHandler ρ)

namespace FieldHandlers

variable {ρ : Type}

/-- Registers a handler, in the place of the one that the field had before. -/
def on (hs : FieldHandlers ρ) (name : String) (h : FieldHandler ρ) : FieldHandlers ρ :=
  putMember hs name h

def names (hs : FieldHandlers ρ) : List String := hs.map (·.1)

/-- The handler of a field, under its name or one that is equal up to case. -/
def find? (hs : FieldHandlers ρ) (name : String) : Option (FieldHandler ρ) := findMember? hs name

/-- The host whose objects have these handlers. -/
def host (handlers : ρ → FieldHandlers ρ) : Host ρ := fun o r =>
  let name := r.field.call.name
  match (handlers o).find? name with
  | some h => h r
  | none =>
    .error ("no handler is registered for field `" ++ name ++ "` of `"
      ++ r.schema.typeName r.parent ++ "`")

end FieldHandlers

end GraphQL
