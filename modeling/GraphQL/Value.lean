import GraphQL.Type.Registry

/-!
Coerced input values.

A value carries the type that it was coerced to. Numbers, booleans and enum values are kept as text
in one canonical form.
-/

namespace GraphQL

inductive Value where
  | null (type : TypeId)
  | scalar (type : TypeId) (text : String)
  | list (type : TypeId) (items : List Value)
  | object (type : TypeId) (fields : List (String × Value))
deriving Repr, Inhabited

namespace Value

def type : Value → TypeId
  | null t | scalar t _ | list t _ | object t _ => t

/-- The same data with another type. -/
def withType (t : TypeId) : Value → Value
  | null _ => null t
  | scalar _ s => scalar t s
  | list _ vs => list t vs
  | object _ fs => object t fs

def isNull : Value → Bool
  | null _ => true
  | _ => false

def text? : Value → Option String
  | scalar _ s => some s
  | _ => none

def items? : Value → Option (List Value)
  | list _ vs => some vs
  | _ => none

def bool? (v : Value) : Option Bool :=
  match v.text? with
  | some "true" => some true
  | some "false" => some false
  | _ => none

def field? (v : Value) (name : String) : Option Value :=
  match v with
  | object _ fs => fs.lookup name
  | _ => none

mutual

/-- Equality of types and data at every depth. -/
def beq : Value → Value → Bool
  | null s, null t => s == t
  | scalar s a, scalar t b => s == t && a == b
  | list s as, list t bs => s == t && itemsBeq as bs
  | object s as, object t bs => s == t && fieldsBeq as bs
  | _, _ => false

def itemsBeq : List Value → List Value → Bool
  | [], [] => true
  | a :: as, b :: bs => a.beq b && itemsBeq as bs
  | _, _ => false

def fieldsBeq : List (String × Value) → List (String × Value) → Bool
  | [], [] => true
  | (m, a) :: as, (n, b) :: bs => m == n && a.beq b && fieldsBeq as bs
  | _, _ => false

end

instance : BEq Value := ⟨beq⟩

end Value

end GraphQL
