import GraphQL.Json
import GraphQL.Number.Reading
import GraphQL.Schema

/-!
Coerced values as JSON, and as the literals that denote them.
-/

namespace GraphQL

/-- The text of a leaf as JSON: numbers and booleans as such, all else as strings. -/
def leafJson (builtin : Option BuiltinScalar) (text : String) : Json :=
  match builtin with
  | some .boolean =>
    match text with
    | "true" => .bool true
    | "false" => .bool false
    | _ => .string text
  | some .int =>
    match Reading.int64? text with
    | some n => .int n
    | none => .string text
  | some .float =>
    match (Reading.float? text).filter (·.isFinite) with
    | some x => .float x
    | none => .string text
  | _ => .string text

/-- The kind of literal that denotes a leaf of a type. -/
def leafKind (s : Schema) (t : TypeId) : LiteralKind :=
  if s.isEnum t then .enum
  else
    match s.builtin? t with
    | some .int => .int
    | some .float => .float
    | some .boolean => .boolean
    | _ => .string

namespace Value

mutual

def toJson (s : Schema) : Value → Json
  | null _ => .null
  | scalar t text => leafJson (s.builtin? t) text
  | list _ items => .array (itemsToJson s items)
  | object _ fields => .object (fieldsToJson s fields)

def itemsToJson (s : Schema) : List Value → List Json
  | [] => []
  | v :: vs => v.toJson s :: itemsToJson s vs

def fieldsToJson (s : Schema) : List (String × Value) → List (String × Json)
  | [] => []
  | (n, v) :: fs => (n, v.toJson s) :: fieldsToJson s fs

end

mutual

/-- The literal that denotes a value. -/
def toLiteral (s : Schema) : Value → Literal
  | null _ => .null .start
  | scalar t text => .scalar (leafKind s t) text .start
  | list _ items => .list (itemsToLiteral s items) .start
  | object _ fields => .object (fieldsToLiteral s fields) .start

def itemsToLiteral (s : Schema) : List Value → List Literal
  | [] => []
  | v :: vs => v.toLiteral s :: itemsToLiteral s vs

def fieldsToLiteral (s : Schema) : List (String × Value) → List (Name × Literal)
  | [] => []
  | (n, v) :: fs => (⟨n, .start⟩, v.toLiteral s) :: fieldsToLiteral s fs

end

end Value

end GraphQL
