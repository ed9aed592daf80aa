import GraphQL.Coercion.Error
import GraphQL.Number.Layout
import GraphQL.Number.Reading
import GraphQL.Schema

/-!
Coercion: from literals to typed values.

All parts of a value are looked at, so that one coercion reports everything that is wrong. What is
coerced is a pair of an optional value and the errors found on the way. A value that is no list
stands for a list of one where a list is wanted.
-/

namespace GraphQL

/-- The coerced values of variables, by name. A variable that was neither supplied nor has a default
is absent. -/
abbrev Variables := List (String × Value)

/-- What variables mean in a value that is coerced. -/
inductive VariableScope where
  /-- The value must be constant. -/
  | forbidden
  /-- Variables have these values. -/
  | bound (values : Variables)
  /-- Variables are looked at elsewhere. -/
  | unchecked

/-- How values are read, and where they come from. JSON has no enum literals and one type of
numbers. -/
structure CoercionContext where
  schema : Schema
  fromJson : Bool
  scope : VariableScope

/-- A value, if it could be coerced, and what is wrong with it. -/
structure Coerced (α : Type) where
  value? : Option α
  errors : List CoercionError

namespace Coerced

variable {α β : Type}

def ok (a : α) : Coerced α := ⟨some a, []⟩

def error (cause : CoercionErrorCause) (p : Pos) (path : Path) : Coerced α :=
  ⟨none, [⟨cause, p, path⟩]⟩

def map (f : α → β) (c : Coerced α) : Coerced β := ⟨c.value?.map f, c.errors⟩

/-- All values, if every one of them could be coerced. -/
def all (cs : List (Coerced α)) : Coerced (List α) :=
  cs.foldr
    (fun c rest =>
      ⟨c.value?.bind fun a => rest.value?.map (a :: ·), c.errors ++ rest.errors⟩)
    (ok [])

/-- The value if nothing is wrong, or else what is. -/
def result (c : Coerced α) : Except (List CoercionError) α :=
  match c.value?, c.errors with
  | some a, [] => .ok a
  | _, errors => .error errors

end Coerced

/-- Coerces one literal at a path to a type. -/
abbrev Coercer := Path → TypeId → Coerced Value

namespace CoercionContext

/-- A variable that has no value counts as if nothing was written. -/
def isAbsent (c : CoercionContext) (v : Literal) : Bool :=
  match v, c.scope with
  | .var name _, .bound vars => (vars.lookup name).isNone
  | _, _ => false

def coerceNull (c : CoercionContext) (p : Pos) : Coercer := fun path t =>
  if t.isNonNull then .error (.nullForNonNull (c.schema.typeName t)) p path else .ok (.null t)

/-- Gives the value of a variable the type of the place where it is used. -/
def adapt (schema : Schema) (t : TypeId) (v : Value) : Value :=
  match v with
  | .list _ items =>
    match schema.element? t with
    | some e => .list t (adaptItems schema e items)
    | none => .list t items
  | v =>
    let (layers, base) := schema.registry.layers t
    layers.foldr (fun l inner => .list l [inner]) (v.withType base)
where
  /-- Null stays null, all other items are given the element's type. -/
  adaptItems (schema : Schema) (e : TypeId) : List Value → List Value
    | [] => []
    | .null _ :: vs => .null e :: adaptItems schema e vs
    | v :: vs => adapt schema e v :: adaptItems schema e vs

def coerceVariable (c : CoercionContext) (name : String) (p : Pos) : Coercer := fun path t =>
  match c.scope with
  | .forbidden => .error (.variableNotAllowed name) p path
  | .unchecked => .ok (.null t.nullable)
  | .bound vars =>
    match vars.lookup name with
    | none | some (.null _) => c.coerceNull p path t
    | some v => .ok (adapt c.schema t v)

/-- The text of an integer in its shortest form. -/
def coerceInt (fromJson : Bool) (kind : LiteralKind) (text : String) (v : Literal) :
    Except CoercionErrorCause String :=
  match kind with
  | .int =>
    match Reading.int32? text with
    | some n => .ok (toString n)
    | none => .error (.intOutOfRange text)
  | .float =>
    if !fromJson then .error (.invalidScalar "Int" v)
    else
      match (Reading.float? text).bind (·.toInt?) with
      | none => .error (.invalidScalar "Int" v)
      | some n => if Reading.inInt32 n then .ok (toString n) else .error (.intOutOfRange text)
  | _ => .error (.invalidScalar "Int" v)

/-- The text of a number without an exponent. -/
def coerceFloat (kind : LiteralKind) (text : String) (v : Literal) :
    Except CoercionErrorCause String :=
  match kind with
  | .int | .float =>
    match Reading.float? text with
    | none => .error (.invalidScalar "Float" v)
    | some x => if x.isFinite then .ok (Layout.plain.render x) else .error (.nonFiniteFloat text)
  | _ => .error (.invalidScalar "Float" v)

/-- The canonical text of a literal of a scalar type. Types that the schema declares take any. -/
def scalarText (c : CoercionContext) (typeName : String) (builtin : Option BuiltinScalar)
    (kind : LiteralKind) (text : String) (v : Literal) : Except CoercionErrorCause String :=
  match builtin with
  | some .int => coerceInt c.fromJson kind text v
  | some .float => coerceFloat kind text v
  | some .string => if kind = .string then .ok text else .error (.invalidScalar typeName v)
  | some .boolean => if kind = .boolean then .ok text else .error (.invalidScalar typeName v)
  | some .id =>
    if kind = .string || kind = .int then .ok text else .error (.invalidScalar typeName v)
  | none => .ok text

/-- The enum value that a literal names. -/
def enumText (c : CoercionContext) (enumName : String) (values : List EnumValueSpec)
    (v : Literal) : Except CoercionErrorCause String :=
  let name? :=
    match v with
    | .scalar .enum name _ => some name
    | .scalar .string name _ => if c.fromJson then some name else none
    | _ => none
  match name? with
  | none => .error (.invalidEnumValue enumName v)
  | some name =>
    if values.any fun e => e.name == name then .ok name
    else .error (.unknownEnumValue enumName name)

/-- A value at a leaf type. -/
def leaf (text : Except CoercionErrorCause String) (p : Pos) : Coercer := fun path t =>
  match text with
  | .ok s => .ok (.scalar t s)
  | .error cause => .error cause p path

/-- A field of an object literal, with the way in which its value is coerced. -/
structure SuppliedField where
  name : Name
  value : Literal
  coerce : Coercer

/-- Reports fields that the type does not have or that were supplied before. -/
def fieldErrors (typeName : String) (declared : List InputSpec) (path : Path)
    (seen : List String) : List SuppliedField → List CoercionError
  | [] => []
  | f :: fs =>
    let name := f.name.text
    if !declared.any fun d => d.name == name then
      ⟨.unknownInputField typeName name, f.name.pos, path⟩ :: fieldErrors typeName declared path seen fs
    else if seen.contains name then
      ⟨.duplicateInputField typeName name, f.name.pos, path⟩
        :: fieldErrors typeName declared path seen fs
    else fieldErrors typeName declared path (name :: seen) fs

/-- The value of a declared field: the first that is supplied, or what the declaration says. -/
def fieldValue (c : CoercionContext) (typeName : String) (supplied : List SuppliedField) (p : Pos)
    (path : Path) (d : InputSpec) : Coerced (String × Value) :=
  let given := (supplied.find? fun f => f.name.text == d.name).filter fun f => !c.isAbsent f.value
  match given with
  | some f => (f.coerce (path ++ [.key d.name]) d.type).map fun v => (d.name, v)
  | none =>
    if d.isRequired then
      .error (.missingField typeName d.name (c.schema.typeName d.type)) p path
    else .ok (d.name, d.fallback)

/-- An object with all fields that its type declares, in the order of the declaration. -/
def inputObject (c : CoercionContext) (typeName : String) (declared : List InputSpec)
    (supplied : List SuppliedField) (p : Pos) : Coercer := fun path t =>
  let unknown := fieldErrors typeName declared path [] supplied
  let fields := Coerced.all (declared.map (c.fieldValue typeName supplied p path))
  let errors := unknown ++ fields.errors
  ⟨if errors.isEmpty then fields.value?.map (.object t) else none, errors⟩

/-- Coerces what is no list at the innermost type, and makes lists of one around it. -/
def lone (c : CoercionContext) (coerce : Coercer) : Coercer := fun path t =>
  let (layers, base) := c.schema.registry.layers t
  (coerce path base).map fun v => layers.foldr (fun l inner => .list l [inner]) v

/-- A literal at a type that is no list. -/
def atNamed (c : CoercionContext) (v : Literal) (supplied : List SuppliedField) : Coercer :=
  fun path t =>
    match c.schema.named? t with
    | none => .error (.notAnInputType (c.schema.typeName t)) v.pos path
    | some named =>
      match named.body with
      | .object _ => .error (.notAnInputType (c.schema.typeName t)) v.pos path
      | .scalar builtin =>
        match v with
        | .scalar kind text _ =>
          leaf (c.scalarText named.name builtin kind text v) v.pos path t
        | _ => .error (.invalidScalar named.name v) v.pos path
      | .enum values => leaf (c.enumText named.name values v) v.pos path t
      | .inputObject declared =>
        match v with
        | .object .. => c.inputObject named.name declared supplied v.pos path t
        | _ => .error (.expectedInputObject named.name v) v.pos path

mutual

/-- Coerces a literal. -/
def coerce (c : CoercionContext) : Literal → Coercer
  | .null p => c.coerceNull p
  | .var name p => c.coerceVariable name p
  | .scalar kind text p => c.lone (c.atNamed (.scalar kind text p) [])
  | .list items p => fun path t =>
    match c.schema.element? t with
    | some e => (Coerced.all (coerceItems c path e 0 items)).map (.list t)
    | none => c.atNamed (.list items p) [] path t
  | .object fields p => c.lone (c.atNamed (.object fields p) (suppliedFields c fields))

/-- Coerces the items of a list, of which the first has the index `n`. -/
def coerceItems (c : CoercionContext) (path : Path) (e : TypeId) (n : Nat) :
    List Literal → List (Coerced Value)
  | [] => []
  | v :: vs =>
    let item := if c.isAbsent v then c.coerceNull v.pos else coerce c v
    item (path ++ [.index n]) e :: coerceItems c path e (n + 1) vs

def suppliedFields (c : CoercionContext) : List (Name × Literal) → List SuppliedField
  | [] => []
  | (n, v) :: fs => ⟨n, v, coerce c v⟩ :: suppliedFields c fs

end

/-- Coerces a literal to a type as it is written. A list gets the tightest type of the schema that
accepts it. -/
def coerceDeclared (c : CoercionContext) : TypeRef → Path → Literal → Coerced Value
  | .named n, path, v =>
    match c.schema.typeId? n.text with
    | some t => c.coerce v path t
    | none => .error (.notAnInputType n.text) v.pos path
  | .nonNull t p, path, v =>
    if v.isNull then .error (.nullForNonNull (TypeRef.nonNull t p).render) v.pos path
    else (c.coerceDeclared t path v).map fun w => w.withType w.type.nonNull
  | .list t p, path, v =>
    match (c.schema.typesAccepting (.list t p)).head? with
    | none => .error (.unacceptedListType (TypeRef.list t p).render) v.pos path
    | some list =>
      match v with
      | .null _ => .ok (.null list)
      | .list items _ =>
        let one (item : Literal × Nat) := c.coerceDeclared t (path ++ [.index item.2]) item.1
        (Coerced.all (items.zipIdx.map one)).map (.list list)
      | v => (c.coerceDeclared t path v).map fun w => .list list [w]

end CoercionContext

namespace Schema

def scopeOf (values : Option Variables) : VariableScope :=
  match values with
  | none => .forbidden
  | some vars => .bound vars

/-- Coerces a literal to a type. Without variables it has to be constant; a variable that has no
value counts as if nothing was written. -/
def coerceLiteral (s : Schema) (t : TypeId) (v : Literal) (values : Option Variables) :
    Except (List CoercionError) Value :=
  (CoercionContext.coerce ⟨s, false, scopeOf values⟩ v [] t).result

/-- Coerces a value that came as JSON. -/
def coerceJson (s : Schema) (t : TypeId) (v : Literal) : Except (List CoercionError) Value :=
  (CoercionContext.coerce ⟨s, true, .forbidden⟩ v [] t).result

/-- What is wrong with a literal, whatever the values of variables. -/
def literalErrors (s : Schema) (t : TypeId) (v : Literal) : List CoercionError :=
  (CoercionContext.coerce ⟨s, false, .unchecked⟩ v [] t).errors

/-- What is wrong with the default value of a variable. -/
def defaultErrors (s : Schema) (t : TypeRef) (v : Literal) : List CoercionError :=
  (CoercionContext.coerceDeclared ⟨s, false, .unchecked⟩ t [] v).errors

/-! ### Variables -/

/-- The error of a variable's value, seen from the operation. -/
def inVariable (d : VariableDefinition) (e : CoercionError) : CoercionError :=
  ⟨e.cause, if e.pos = .start then d.pos else e.pos, .key ("$" ++ d.name.text) :: e.path⟩

/-- The value of a variable, if it has one: what is supplied, or else its default. -/
def coerceVariable (s : Schema) (supplied : Option Literal) (d : VariableDefinition) :
    Except (List CoercionError) (Option Value) :=
  let declared (fromJson : Bool) (v : Literal) : Except (List CoercionError) (Option Value) :=
    match (CoercionContext.coerceDeclared ⟨s, fromJson, .forbidden⟩ d.type [] v).result with
    | .ok w => .ok (some w)
    | .error es => .error (es.map (inVariable d))
  if (s.innermostOfRef? d.type).isNone then
    .error [⟨.unknownVariableType d.name.text d.type.render, d.pos, []⟩]
  else
    match supplied, d.default? with
    | some v, _ => declared true v
    | none, some v => declared false v
    | none, none =>
      if d.type.isNonNull then
        .error [⟨.missingVariable d.name.text d.type.render, d.pos, []⟩]
      else .ok none

/-- Coerces the variables of an operation. -/
def coerceVariables (s : Schema) (definitions : List VariableDefinition)
    (supplied : List (String × Literal)) : Except (List CoercionError) Variables :=
  let (values, errors) := definitions.foldl
    (fun (vars, errors) d =>
      match s.coerceVariable (supplied.lookup d.name.text) d with
      | .ok (some v) => (putMember vars d.name.text v, errors)
      | .ok none => (vars, errors)
      | .error es => (vars, errors ++ es))
    (([], []) : Variables × List CoercionError)
  if errors.isEmpty then .ok values else .error errors

/-! ### Arguments -/

/-- The value of a declared argument: what is written, or what the declaration says. -/
def argumentValue (c : CoercionContext) (args : List Argument) (p : Pos) (d : InputSpec) :
    Coerced (String × Value) :=
  let given := (Argument.find? args d.name).filter fun a => !c.isAbsent a.value
  match given with
  | some a => (c.coerce a.value [.key d.name] d.type).map fun v => (d.name, v)
  | none =>
    if d.isRequired then .error (.missingArgument d.name (c.schema.typeName d.type)) p []
    else .ok (d.name, d.fallback)

/-- Coerces the arguments of a field or directive that stands at `p`. The result holds every declared
argument, in the order of the declaration. -/
def coerceArguments (s : Schema) (declared : List InputSpec) (args : List Argument)
    (values : Option Variables) (p : Pos) :
    Except (List CoercionError) (List (String × Value)) :=
  let c : CoercionContext := ⟨s, false, scopeOf values⟩
  (Coerced.all (declared.map (argumentValue c args p))).result

end Schema

end GraphQL
