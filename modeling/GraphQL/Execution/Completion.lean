import GraphQL.Execution.Leaf

/-!
Completion: from the answers of a host to values of the types that the schema declares.

What cannot be completed is an error at its path and becomes null. Where null is excluded, the object or
list around it becomes null instead, and so on outwards. The fields of an object are all resolved
nevertheless, so that their errors are reported; the items of a list behind such a place are not.
-/

namespace GraphQL

/-- Why a field has no value. -/
inductive FieldError where
  | host (message : String)
  | nullForNonNull (field type : String)
  | invalidLeaf (type value : String)
  | expectedList (field type : String)
  | expectedObject (field type : String)
  | noSelection (field : String)
deriving DecidableEq, Repr

namespace FieldError

def message : FieldError → String
  | host m => m
  | nullForNonNull f t => "Cannot return null for non-nullable field `" ++ f ++ "` of type `" ++ t ++ "`"
  | invalidLeaf t v => "`" ++ t ++ "` cannot represent value " ++ v
  | expectedList f t =>
    "Internal error: expected a list for field `" ++ f ++ "` of type `" ++ t ++ "`"
  | expectedObject f t =>
    "Internal error: expected an object for field `" ++ f ++ "` of type `" ++ t ++ "`"
  | noSelection f => "Internal error: field `" ++ f ++ "` of object type has no selection set"

end FieldError

/-- A value and the errors on the way to it; `none` stands for null where null is excluded. -/
structure Outcome (α : Type) where
  value? : Option α
  errors : List ResponseError

namespace Outcome

variable {α β : Type}

def map (f : α → β) (o : Outcome α) : Outcome β := ⟨o.value?.map f, o.errors⟩

end Outcome

/-- What all completions of one request have in common. -/
structure ExecutionContext (ρ : Type) where
  schema : Schema
  host : Host ρ
  isCancelled : Bool

namespace ExecutionContext

variable {ρ : Type}

/-- Null at a type, if that is not excluded. -/
def nullAt (t : TypeId) : Option Value := if t.isNonNull then none else some (.null t)

/-- An error in the place of a value. -/
def failed (call : FieldCall) (t : TypeId) (path : Path) (e : FieldError) : Outcome Value :=
  ⟨nullAt t, [⟨e.message, [call.location], some path⟩]⟩

/-- Puts null in the place of a value that has null where it is excluded. -/
def orNull (t : TypeId) (o : Outcome Value) : Outcome Value :=
  ⟨match o.value? with
    | some v => some v
    | none => nullAt t, o.errors⟩

/-- Executes the selections below a field on an object, which is a value of the given type. -/
abbrev ObjectExecution (ρ : Type) := Path → TypeId → ρ → Outcome Value

def completeLeaf (c : ExecutionContext ρ) (call : FieldCall) (t : TypeId) (path : Path)
    (v : HostScalar) : Outcome Value :=
  match v.toLeaf c.schema t with
  | some text => ⟨some (.scalar t text), []⟩
  | none => failed call t path (.invalidLeaf (c.schema.typeName t.nullable) v.render)

/-- What is neither null nor a list, at a type that is no list. -/
def completeAtNamed (c : ExecutionContext ρ) (call : FieldCall)
    (execute : Option (ObjectExecution ρ)) (t : TypeId) (path : Path) (v : HostValue ρ) :
    Outcome Value :=
  if c.schema.isLeaf t then
    match v with
    | .scalar s => c.completeLeaf call t path s
    | v => failed call t path (.invalidLeaf (c.schema.typeName t) v.describe)
  else
    match v, execute with
    | .object r, some run => orNull t (run path t r)
    | .object _, none => failed call t path (.noSelection call.key)
    | _, _ => failed call t path (.expectedObject call.key (c.schema.typeName t))

/-- What is no list. -/
def completeSingle (c : ExecutionContext ρ) (call : FieldCall)
    (execute : Option (ObjectExecution ρ)) (t : TypeId) (path : Path) (v : HostValue ρ) :
    Outcome Value :=
  if c.schema.isList t then failed call t path (.expectedList call.key (c.schema.typeName t))
  else c.completeAtNamed call execute t path v

mutual

/-- Completes an answer at a type. -/
def complete (c : ExecutionContext ρ) (call : FieldCall) (execute : Option (ObjectExecution ρ)) :
    HostValue ρ → TypeId → Path → Outcome Value
  | .null => fun t path =>
    if t.isNonNull then
      failed call t path (.nullForNonNull call.key (c.schema.typeName t))
    else ⟨some (.null t), []⟩
  | .list items => fun t path =>
    match c.schema.element? t with
    | some e => orNull t ((completeItems c call execute e path 0 items).map (.list t))
    | none => c.completeAtNamed call execute t path (.list items)
  | .scalar s => fun t path => c.completeSingle call execute t path (.scalar s)
  | .object r => fun t path => c.completeSingle call execute t path (.object r)

/-- Completes the items of a list up to the first that makes the list null. The first one has the
index `n`. -/
def completeItems (c : ExecutionContext ρ) (call : FieldCall)
    (execute : Option (ObjectExecution ρ)) (e : TypeId) (path : Path) (n : Nat) :
    List (HostValue ρ) → Outcome (List Value)
  | [] => ⟨some [], []⟩
  | v :: vs =>
    let item := complete c call execute v e (path ++ [.index n])
    match item.value? with
    | none => ⟨none, item.errors⟩
    | some w =>
      let rest := completeItems c call execute e path (n + 1) vs
      ⟨rest.value?.map (w :: ·), item.errors ++ rest.errors⟩

end

/-- Asks the host for a field and completes the answer. -/
def executeField (c : ExecutionContext ρ) (execute : Option (ObjectExecution ρ)) (parent : TypeId)
    (path : Path) (r : ρ) (field : SelectedField) : Outcome Value :=
  let call := field.call
  let path := path ++ [.key call.key]
  match c.host r ⟨c.schema, parent, path, field, c.isCancelled⟩ with
  | .ok v => c.complete call execute v call.type path
  | .error m => failed call call.type path (.host m)

/-- A field in front of others. If one of them is null where that is excluded, so is the object. -/
def consField (key : String) (field : Outcome Value) (rest : Outcome (List (String × Value))) :
    Outcome (List (String × Value)) :=
  ⟨field.value?.bind fun v => rest.value?.map ((key, v) :: ·), field.errors ++ rest.errors⟩

mutual

/-- Executes a field of an object of type `parent`. -/
def executeSelected (c : ExecutionContext ρ) (parent : TypeId) (path : Path) (r : ρ) :
    SelectedField → Outcome Value
  | .leaf call => c.executeField none parent path r (.leaf call)
  | .object call below =>
    let execute : ObjectExecution ρ := fun path t r =>
      (executeFields c t.nullable path r below).map (.object t)
    c.executeField (some execute) parent path r (.object call below)

/-- Executes fields of an object one by one. -/
def executeFields (c : ExecutionContext ρ) (parent : TypeId) (path : Path) (r : ρ) :
    List SelectedField → Outcome (List (String × Value))
  | [] => ⟨some [], []⟩
  | f :: fs =>
    consField f.call.key (executeSelected c parent path r f) (executeFields c parent path r fs)

end

end ExecutionContext

end GraphQL
