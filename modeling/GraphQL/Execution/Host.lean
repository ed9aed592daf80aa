import GraphQL.Execution.Selection
import GraphQL.Number.Layout
import GraphQL.Text.Escaped

/-!
Hosts: what a schema is executed on.

A host has objects of some type `ρ`, and answers one field of one object at a time. An answer is a value
that may hold more objects, whose fields are asked for later.
-/

namespace GraphQL

/-- A leaf as the host has it. -/
inductive HostScalar where
  | bool (b : Bool)
  | int (n : Int)
  | float (x : Binary64)
  | string (s : String)
deriving DecidableEq, Repr

/-- The answer of a host; `ρ` are its objects. -/
inductive HostValue (ρ : Type) where
  | null
  | scalar (value : HostScalar)
  | list (items : List (HostValue ρ))
  | object (ref : ρ)
deriving Repr

/-- What a host is asked: a field of an object of type `parent`, whose value goes to `path`. -/
structure FieldRequest where
  schema : Schema
  parent : TypeId
  path : Path
  field : SelectedField
  /-- The request is no longer wanted; a host may give up early. -/
  isCancelled : Bool

/-- Answers the fields of objects, or says why there is no answer. -/
abbrev Host (ρ : Type) := ρ → FieldRequest → Except String (HostValue ρ)

namespace HostScalar

def ofBool (b : Bool) : String := if b then "true" else "false"

/-- A leaf in a message. -/
def render : HostScalar → String
  | bool b => ofBool b
  | int n => toString n
  | float x => Layout.plain.render x
  | string s => Escaped.quote s

/-- A leaf in a message where no leaf of its kind was expected. -/
def describe : HostScalar → String
  | bool b => "Boolean(" ++ ofBool b ++ ")"
  | int n => "Int(" ++ toString n ++ ")"
  | float x => "Float(" ++ Layout.literal.render x ++ ")"
  | string s => "String(" ++ Escaped.quote s ++ ")"

end HostScalar

namespace HostValue

variable {ρ σ : Type}

instance : Inhabited (HostValue ρ) := ⟨null⟩

def isNull : HostValue ρ → Bool
  | null => true
  | _ => false

def ofBool (b : Bool) : HostValue ρ := scalar (.bool b)

def ofString (s : String) : HostValue ρ := scalar (.string s)

def ofString? (s : Option String) : HostValue ρ :=
  match s with
  | some s => ofString s
  | none => null

def ofObject? (r : Option ρ) : HostValue ρ :=
  match r with
  | some r => object r
  | none => null

def ofObjects (rs : List ρ) : HostValue ρ := list (rs.map object)

mutual

/-- The same value with other objects. -/
def map (f : ρ → σ) : HostValue ρ → HostValue σ
  | null => null
  | scalar s => scalar s
  | list items => list (mapItems f items)
  | object r => object (f r)

def mapItems (f : ρ → σ) : List (HostValue ρ) → List (HostValue σ)
  | [] => []
  | v :: vs => v.map f :: mapItems f vs

end

mutual

/-- A value in a message where a leaf was expected. -/
def describe : HostValue ρ → String
  | null => "Null"
  | scalar s => "Scalar(" ++ s.describe ++ ")"
  | list items => "List([" ++ String.intercalate ", " (describeItems items) ++ "])"
  | object _ => "Object(..)"

def describeItems : List (HostValue ρ) → List String
  | [] => []
  | v :: vs => v.describe :: describeItems vs

end

end HostValue

end GraphQL
