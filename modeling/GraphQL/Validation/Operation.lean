import GraphQL.Coercion
import GraphQL.Document
import GraphQL.Document.Walk
import GraphQL.Validation.Placement

/-!
Checking one operation against a schema.

A walk goes through an operation and the fragments that it uses, with the type that is selected on at
hand. It enters a fragment at its first use only. What it comes across is a list of findings in the
order of the walk: errors, uses of variables, and uses of fragments. A part that makes no sense, such
as the selections below an unknown field, is not entered.
-/

namespace GraphQL

/-- What a walk comes across. -/
inductive Finding where
  | problem (problem : Problem)
  | variableUse (name : String)
  | fragmentUse (name : String)

namespace Finding

def problem? : Finding → Option Problem
  | problem p => some p
  | _ => none

def usedVariable? : Finding → Option String
  | variableUse name => some name
  | _ => none

def usedFragment? : Finding → Option String
  | fragmentUse name => some name
  | _ => none

end Finding

/-- A variable of an operation. Its uses are only checked if its type can be used for input. -/
structure DeclaredVariable where
  definition : VariableDefinition
  isUsable : Bool

/-- What an operation is checked against. -/
structure OperationContext where
  schema : Schema
  document : Document
  operation : OperationDefinition
  /-- The variables declared so far. -/
  declared : List DeclaredVariable

namespace OperationContext

def declared? (c : OperationContext) (name : String) : Option DeclaredVariable :=
  c.declared.find? fun v => v.definition.name.text == name

/-! ### Variables in values -/

/-- The variables of a value whose type is unknown. -/
def uses (v : Literal) : List Finding := v.variableUses.map fun (name, _) => .variableUse name

/-- The type that a variable has to fit. A place with a default of its own takes null for it, if the
variable has a default as well. -/
def effectiveLocation (location : TypeId) (hasDefault : Bool) (d : VariableDefinition) : TypeId :=
  let isRelaxed :=
    location.isNonNull && !d.type.isNonNull && hasDefault
      && match d.default? with
         | some v => !v.isNull
         | none => false
  if isRelaxed then location.nullable else location

/-- Checks a variable where it is used. -/
def variableProblem (c : OperationContext) (path : Path) (location : TypeId) (hasDefault : Bool)
    (name : String) (p : Pos) : Option Problem :=
  match c.declared? name with
  | none => some ⟨.undefinedVariable name c.operation.nameText?, [p, c.operation.pos], path⟩
  | some ⟨d, isUsable⟩ =>
    if !isUsable || c.schema.acceptsRef (effectiveLocation location hasDefault d) d.type then none
    else
      some ⟨.variableTypeMismatch name d.type.render (c.schema.typeName location), [d.pos, p], path⟩

/-- The fields of the input object below all list layers of a type. -/
def inputFieldsBelow (s : Schema) (t : TypeId) : List InputSpec :=
  ((s.named? t).bind (·.inputFields?)).getD []

mutual

/-- Checks the variables in a value, each against the type of the place where it stands. -/
def literalFindings (c : OperationContext) (path : Path) (location : TypeId) (hasDefault : Bool) :
    Literal → List Finding
  | .null _ => []
  | .var name p =>
    .variableUse name
      :: ((c.variableProblem path location hasDefault name p).map Finding.problem).toList
  | .scalar .. => []
  | .list items p =>
    match c.schema.element? location with
    | some e => itemFindings c path e items
    | none => uses (.list items p)
  | .object fields _ => fieldFindings c path (inputFieldsBelow c.schema location) fields

def itemFindings (c : OperationContext) (path : Path) (location : TypeId) :
    List Literal → List Finding
  | [] => []
  | v :: vs => literalFindings c path location false v ++ itemFindings c path location vs

def fieldFindings (c : OperationContext) (path : Path) (declared : List InputSpec) :
    List (Name × Literal) → List Finding
  | [] => []
  | (n, v) :: fs =>
    let here :=
      match declared.find? fun d => d.name == n.text with
      | some d => literalFindings c path d.type d.default?.isSome v
      | none => uses v
    here ++ fieldFindings c path declared fs

end

/-! ### Arguments and directives -/

/-- Checks the value of an argument. What is wrong with a variable is found where it is used. -/
def valueFindings (c : OperationContext) (path : Path) (d : InputSpec) (v : Literal) :
    List Finding :=
  let errors :=
    match v.var? with
    | some _ => []
    | none => c.schema.literalErrors d.type v
  c.literalFindings path d.type d.default?.isSome v
    ++ errors.map fun e => .problem ⟨.invalidArgument d.name e.message, [e.pos], path⟩

/-- Checks arguments that are supplied. `seen` holds the ones before, the latest first; a value that
is supplied again is not looked at. -/
def suppliedFindings (c : OperationContext) (path : Path) (owner : String)
    (declared : List InputSpec) (seen : List (String × Pos)) : List Argument → List Finding
  | [] => []
  | a :: as =>
    let name := a.name.text
    let here :=
      match seen.lookup name with
      | some first => [.problem ⟨.duplicateArgument name, [first, a.pos], path⟩]
      | none =>
        match declared.find? fun d => d.name == name with
        | some d => c.valueFindings path d a.value
        | none => uses a.value ++ [.problem ⟨.unknownArgument name owner, [a.pos], path⟩]
    here ++ c.suppliedFindings path owner declared ((name, a.pos) :: seen) as

/-- Checks the arguments of a field or directive that stands at `p`. -/
def argumentFindings (c : OperationContext) (path : Path) (owner : String) (p : Pos)
    (declared : List InputSpec) (args : List Argument) : List Finding :=
  let missing := declared.filter fun d => d.isRequired && (Argument.find? args d.name).isNone
  c.suppliedFindings path owner declared [] args
    ++ missing.map fun d =>
      .problem ⟨.missingArgument d.name (c.schema.typeName d.type) owner, [p], path⟩

def argumentUses (args : List Argument) : List Finding := args.flatMap fun a => uses a.value

/-- Checks the directives at one place. Variables of directives that may not stand there are used
nevertheless. -/
def directiveFindings (c : OperationContext) (path : Path) (location : DirectiveLocation)
    (ds : List Directive) : List Finding :=
  ds.flatMap (fun d => argumentUses d.arguments)
    ++ (c.schema.misplacedDirectives location ds).map Finding.problem
    ++ (c.schema.placedDirectives location ds).flatMap fun d =>
      c.argumentFindings path ("@" ++ d.spec.name) d.directive.pos d.spec.arguments
        d.directive.arguments

/-! ### Selections -/

/-- Walks through the body of a fragment, as selected on a type. -/
abbrev FragmentWalk := Path → TypeId → FragmentDefinition → Walk Finding

/-- Whether a fragment on `type` can stand where fields of `parent` are selected. -/
def impossibleSpread (c : OperationContext) (fragment : Option String) (parent type : TypeId)
    (p : Pos) : List Finding :=
  if type = parent.nullable then []
  else
    [.problem (.ofCause
      (.impossibleSpread fragment (c.schema.typeName parent.nullable) (c.schema.typeName type)) [p])]

/-- The use of a fragment. What is wrong with the type of a fragment is said where it is defined. -/
def spreadWalk (c : OperationContext) (enter : FragmentWalk) (path : Path) (parent : TypeId)
    (s : FragmentSpread) : Walk Finding :=
  Walk.emit (c.directiveFindings path .fragmentSpread s.directives)
    ++ match c.document.fragment? s.name.text with
       | none => Walk.emit [.problem (.ofCause (.unknownFragment s.name.text) [s.pos])]
       | some f =>
         let name := f.name.text
         Walk.emit [.fragmentUse name]
           ++ match (c.schema.typeId? f.typeCondition.text).filter c.schema.isComposite with
              | none => Walk.emit []
              | some t =>
                Walk.emit (c.impossibleSpread (some name) parent t s.pos)
                  ++ Walk.once name (enter path t f)

/-- The type that an inline fragment selects on, or what is wrong with it. -/
def inlineType (c : OperationContext) (parent : TypeId) (i : InlineFragment) :
    Except Finding (List Finding × TypeId) :=
  match i.typeCondition with
  | none => .ok ([], parent)
  | some condition =>
    match c.schema.typeId? condition.text with
    | none => .error (.problem (.ofCause (.unknownFragmentType condition.text) [condition.pos]))
    | some t =>
      if c.schema.isComposite t then .ok (c.impossibleSpread none parent t i.pos, t)
      else .error (.problem (.ofCause (.nonCompositeFragment condition.text) [condition.pos]))

/-- What is wrong with a field that has these selections below it, if they are not walked through. -/
def belowFindings (c : OperationContext) (path : Path) (f : Field) (type : TypeId)
    (below : Option SelectionSet) : List Finding :=
  let typeName := c.schema.typeName type
  if c.schema.isComposite type then
    if below.all (·.selections.isEmpty) then
      [.problem ⟨.missingSelectionSet f.name.text typeName, [f.pos], path⟩]
    else []
  else
    (below.map fun ss => .problem
      ⟨.unexpectedSelectionSet f.name.text typeName, [ss.pos], path⟩).toList

/-- A field, with a walk through the selections below it as selected on a type. -/
def fieldWalk (c : OperationContext) (path : Path) (parent : TypeId) (f : Field)
    (below : Option SelectionSet) (belowWalk : Path → TypeId → Walk Finding) : Walk Finding :=
  let path := path ++ [.key f.responseKey]
  let name := f.name.text
  let parentName := c.schema.typeName parent.nullable
  Walk.emit (c.directiveFindings path .field f.directives)
    ++ match c.schema.field? parent name with
       | none =>
         Walk.emit (argumentUses f.arguments
           ++ [.problem ⟨.unknownField name parentName, [f.pos], path⟩])
       | some spec =>
         Walk.emit (c.argumentFindings path (parentName ++ "." ++ name) f.pos spec.arguments
             f.arguments ++ c.belowFindings path f spec.type below)
           ++ if c.schema.isComposite spec.type then
                belowWalk path (c.schema.registry.innermost spec.type)
              else Walk.emit []

mutual

/-- Walks through a selection, with a way to walk through the bodies of fragments. -/
def selectionWalk (c : OperationContext) (enter : FragmentWalk) (path : Path) (parent : TypeId) :
    Selection → Walk Finding
  | .field f none => c.fieldWalk path parent f none fun _ _ => Walk.emit []
  | .field f (some below) =>
    c.fieldWalk path parent f (some below) fun path t => selectionSetWalk c enter path t below
  | .spread s => c.spreadWalk enter path parent s
  | .inline i below =>
    Walk.emit (c.directiveFindings path .inlineFragment i.directives)
      ++ match c.inlineType parent i with
         | .error f => Walk.emit [f]
         | .ok (fs, t) => Walk.emit fs ++ selectionSetWalk c enter path t below

def selectionSetWalk (c : OperationContext) (enter : FragmentWalk) (path : Path) (parent : TypeId) :
    SelectionSet → Walk Finding
  | .mk selections _ => selectionsWalk c enter path parent selections

def selectionsWalk (c : OperationContext) (enter : FragmentWalk) (path : Path) (parent : TypeId) :
    List Selection → Walk Finding
  | [] => Walk.emit []
  | s :: ss => selectionWalk c enter path parent s ++ selectionsWalk c enter path parent ss

end

/-- Walks through the body of a fragment and the fragments that it uses, at most `steps` fragments
deep. -/
def fragmentWalk (c : OperationContext) : Nat → FragmentWalk
  | 0 => fun _ _ _ => Walk.emit []
  | steps + 1 => fun path t f => c.selectionSetWalk (c.fragmentWalk steps) path t f.selectionSet

/-- Everything that is come across below a root type. A fragment is entered once, so there are never
more fragments above each other than the document has. -/
def rootFindings (c : OperationContext) (root : TypeId) : List Finding :=
  (c.selectionSetWalk (c.fragmentWalk c.document.fragments.length) [] root
    c.operation.selectionSet).found

/-! ### The head of an operation -/

/-- Whether a variable can be used, and what is wrong with its type and its default value. -/
def declare (c : OperationContext) (d : VariableDefinition) : Bool × List Finding :=
  let name := d.name.text
  match c.schema.innermostOfRef? d.type with
  | none =>
    let t := d.type.innermost
    (false, [.problem (.ofCause (.unknownVariableType name t.text) [t.pos])])
  | some named =>
    if c.schema.isInput named then
      let errors :=
        match d.default? with
        | some v => c.schema.defaultErrors d.type v
        | none => []
      (true, errors.map fun e => .problem (.ofCause (.invalidVariableDefault name e.message) [e.pos]))
    else (false, [.problem (.ofCause (.nonInputVariable name d.type.render) [d.type.pos])])

/-- Declares variables one by one. Of two variables with one name the first counts. -/
def declareAll (c : OperationContext) : List VariableDefinition → OperationContext × List Finding
  | [] => (c, [])
  | d :: ds =>
    match c.declared? d.name.text with
    | some first =>
      let (c, fs) := c.declareAll ds
      (c, .problem (.ofCause (.duplicateVariable d.name.text) [first.definition.pos, d.pos]) :: fs)
    | none =>
      let directives := c.directiveFindings [] .variableDefinition d.directives
      let (isUsable, here) := c.declare d
      let declared : DeclaredVariable := ⟨d, isUsable⟩
      let (c, fs) := { c with declared := c.declared ++ [declared] }.declareAll ds
      (c, directives ++ here ++ fs)

/-- The root type of an operation and the place of its directives, and whether it can be executed. -/
def root (c : OperationContext) : Option TypeId × DirectiveLocation × List Finding :=
  let p := c.operation.pos
  match c.operation.type with
  | .query => (some c.schema.query, .query, [])
  | .mutation =>
    let missing :=
      if c.schema.mutation.isNone then [.problem (.ofCause .noMutationType [p])] else []
    (c.schema.mutation, .mutation, missing)
  | .subscription => (none, .subscription, [.problem (.ofCause .subscription [p])])

/-- The declared variables that a walk did not come across. -/
def unusedVariables (c : OperationContext) (fs : List Finding) : List Finding :=
  let used := fs.filterMap (·.usedVariable?)
  (c.declared.filter fun v => !used.contains v.definition.name.text).map fun v =>
    .problem (.ofCause (.unusedVariable v.definition.name.text c.operation.nameText?)
      [v.definition.pos])

end OperationContext

/-- Everything that is come across in an operation. Without a root type the selections are not looked
at, and no variable counts as unused. -/
def operationFindings (s : Schema) (d : Document) (op : OperationDefinition) : List Finding :=
  let (c, declarations) := (OperationContext.mk s d op []).declareAll op.variableDefinitions
  let (root, location, rootProblems) := c.root
  let head := declarations ++ rootProblems ++ c.directiveFindings [] location op.directives
  match root with
  | none => head
  | some t =>
    let all := head ++ c.rootFindings t
    all ++ c.unusedVariables all

end GraphQL
