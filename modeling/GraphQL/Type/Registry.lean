/-!
Types as handles.

A registry gives every named type and every list type a slot. A handle is a slot with a mark that
says whether null is excluded, so that two handles of one registry are equal when they stand for the
same type. The element of a list is a handle too, and its slot was taken before that of the list.
-/

namespace GraphQL

/-- A type of a registry, with null or without. -/
structure TypeId where
  registry : Nat
  slot : Nat
  isNonNull : Bool
deriving DecidableEq, Hashable, Repr, Inhabited

namespace TypeId

def isNullable (t : TypeId) : Bool := !t.isNonNull

def nonNull (t : TypeId) : TypeId := { t with isNonNull := true }

def nullable (t : TypeId) : TypeId := { t with isNonNull := false }

@[simp] theorem nullable_nonNull (t : TypeId) : t.nonNull.nullable = t.nullable := rfl
@[simp] theorem nonNull_nullable (t : TypeId) : t.nullable.nonNull = t.nonNull := rfl
@[simp] theorem isNonNull_nonNull (t : TypeId) : t.nonNull.isNonNull = true := rfl
@[simp] theorem isNonNull_nullable (t : TypeId) : t.nullable.isNonNull = false := rfl

end TypeId

/-- What stands in a slot. -/
inductive TypeShape where
  | named (name : String)
  | list (element : TypeId)
deriving DecidableEq, Repr

structure TypeRegistry where
  /-- Tells the handles of one registry from those of another. -/
  id : Nat
  shapes : List TypeShape
deriving Repr

namespace TypeRegistry

def empty (id : Nat) : TypeRegistry := ⟨id, []⟩

def size (r : TypeRegistry) : Nat := r.shapes.length

def isEmpty (r : TypeRegistry) : Bool := r.shapes.isEmpty

def owns (r : TypeRegistry) (t : TypeId) : Bool := t.registry = r.id

/-- The nullable type in a slot. -/
def handle (r : TypeRegistry) (slot : Nat) : TypeId := ⟨r.id, slot, false⟩

/-- The nullable type of a shape, if it has a slot. -/
def find? (r : TypeRegistry) (s : TypeShape) : Option TypeId := (r.shapes.idxOf? s).map r.handle

/-- The nullable type of a shape, which gets a slot if it has none. -/
def intern (r : TypeRegistry) (s : TypeShape) : TypeId × TypeRegistry :=
  match r.find? s with
  | some t => (t, r)
  | none => (r.handle r.size, { r with shapes := r.shapes ++ [s] })

def named (r : TypeRegistry) (name : String) : TypeId × TypeRegistry := r.intern (.named name)

def listOf (r : TypeRegistry) (element : TypeId) : TypeId × TypeRegistry := r.intern (.list element)

def named? (r : TypeRegistry) (name : String) : Option TypeId := r.find? (.named name)

def listOf? (r : TypeRegistry) (element : TypeId) : Option TypeId := r.find? (.list element)

/-- The shape of a type; another registry's type has none. -/
def shape? (r : TypeRegistry) (t : TypeId) : Option TypeShape :=
  if r.owns t then r.shapes[t.slot]? else none

/-- The element of a list type. -/
def element? (r : TypeRegistry) (t : TypeId) : Option TypeId :=
  match r.shape? t with
  | some (.list e) => some e
  | _ => none

/-- Takes list layers off a type, `steps` of them at most: the layers, outermost first, and what is
below them. -/
def layersWithin (r : TypeRegistry) : Nat → TypeId → List TypeId × TypeId
  | 0, t => ([], t)
  | steps + 1, t =>
    match r.element? t with
    | some e =>
      let (layers, base) := r.layersWithin steps e
      (t :: layers, base)
    | none => ([], t)

/-- The list layers of a type, outermost first, and the type below them. Each layer has a slot of its
own. -/
def layers (r : TypeRegistry) (t : TypeId) : List TypeId × TypeId := r.layersWithin r.size t

/-- The type below all list layers, with null. -/
def innermost (r : TypeRegistry) (t : TypeId) : TypeId := (r.layers t).2.nullable

/-- A type as it is written, inside its list layers and marks. -/
def nameOf (r : TypeRegistry) (t : TypeId) : String :=
  let (layers, base) := r.layers t
  let mark (t : TypeId) : String := if t.isNonNull then "!" else ""
  let core :=
    match r.shape? base with
    | some (.named name) => name
    | _ => "<unknown>"
  layers.foldr (fun t inner => "[" ++ inner ++ "]" ++ mark t) (core ++ mark base)

end TypeRegistry

end GraphQL
