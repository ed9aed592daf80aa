import GraphQL.Coercion
import GraphQL.Schema.Resolution

/-!
Default values of arguments and input fields.

A default value can leave out fields of an input object, which then have their own defaults. So the
input types are ordered such that a type comes behind the types of its fields, as far as they do not
form a cycle, and arguments come last.
-/

namespace GraphQL

namespace Schema

/-- The input objects that the fields of an input object hold, through lists or not. -/
def nestedInputs (s : Schema) (name : String) : List String :=
  match (s.type? name).bind (·.inputFields?) with
  | some fields =>
    fields.filterMap fun f =>
      (s.named? f.type).bind fun t => t.inputFields?.map fun _ => t.name
  | none => []

/-- Adds an input object to an order, behind the ones that it holds. The first part of the pair are
the types that were visited. -/
def addInput (s : Schema) : Nat → List String × List String → String → List String × List String
  | 0, visit, _ => visit
  | steps + 1, (visited, order), name =>
    if visited.contains name then (visited, order)
    else
      let (visited, order) := (s.nestedInputs name).foldl (s.addInput steps) (name :: visited, order)
      (visited, order ++ [name])

def inputNames (s : Schema) : List String :=
  s.types.filterMap fun t => t.inputFields?.map fun _ => t.name

/-- The input objects, each behind the ones that it holds. -/
def inputOrder (s : Schema) : List String :=
  (s.inputNames.foldl (s.addInput s.types.length) ([], [])).2

/-! ### Applying default values -/

def setInputDefault (name : String) (v : Value) (inputs : List InputSpec) : List InputSpec :=
  inputs.map fun i => if i.name == name then { i with default? := some v } else i

def setArgumentDefault (fieldName name : String) (v : Value) (fields : List FieldSpec) :
    List FieldSpec :=
  fields.map fun f =>
    if f.name == fieldName then { f with arguments := setInputDefault name v f.arguments } else f

def setBodyDefault (owner : InputOwner) (v : Value) (b : NamedTypeBody) : NamedTypeBody :=
  match owner, b with
  | .inputField _ f, .inputObject fields => .inputObject (setInputDefault f v fields)
  | .argument _ f a, .object fields => .object (setArgumentDefault f a v fields)
  | _, b => b

/-- Sets the default value of an argument or input field, if the schema has that. -/
def setDefault (s : Schema) (owner : InputOwner) (v : Value) : Schema :=
  let typeName :=
    match owner with
    | .inputField t _ | .argument t _ _ => t
  { s with
    types := s.types.map fun t =>
      if t.name == typeName then { t with body := setBodyDefault owner v t.body } else t }

/-- Coerces a default value and sets it, or says what is wrong with it. -/
def applyDefault (s : Schema) (p : PendingDefault) : Schema × List DefinitionError :=
  match s.coerceLiteral p.type p.literal none with
  | .ok v => (s.setDefault p.owner v, [])
  | .error es => (s, [.invalidDefault p.owner p.place (es.map (·.message))])

def applyDefaultsInOrder (s : Schema) (ps : List PendingDefault) : Schema × List DefinitionError :=
  ps.foldl
    (fun (s, errors) p =>
      let (s, more) := s.applyDefault p
      (s, errors ++ more))
    (s, [])

/-- The place of an input field's type in the order; arguments have none. -/
def rank (order : List String) (p : PendingDefault) : Nat :=
  match p.owner with
  | .inputField t _ => order.idxOf t
  | .argument .. => order.length

/-- The default values in the order in which they are applied. -/
def orderDefaults (s : Schema) (ps : List PendingDefault) : List PendingDefault :=
  let order := s.inputOrder
  let isInputField (p : PendingDefault) : Bool :=
    match p.owner with
    | .inputField .. => true
    | .argument .. => false
  let (fields, args) := ps.partition isInputField
  fields.mergeSort (fun p q => rank order p ≤ rank order q) ++ args

def applyDefaults (s : Schema) (ps : List PendingDefault) : Schema × List DefinitionError :=
  s.applyDefaultsInOrder (s.orderDefaults ps)

end Schema

end GraphQL
