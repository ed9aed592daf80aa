import GraphQL.Coercion
import GraphQL.Document.Spread
import GraphQL.Document.Walk
import GraphQL.Grouping
import GraphQL.Response.Error

/-!
The fields that are selected on an object, ready to be resolved.

Fragments are looked through, what a condition excludes is left out, and fields with one response key
are merged: the first of them gives the arguments, and all of them the selections below. Fragments only
apply to objects of their type.
-/

namespace GraphQL

/-- A field that is to be resolved, with a value for every declared argument. -/
structure FieldCall where
  /-- The response key. -/
  key : String
  name : String
  location : LineColumn
  arguments : List (String × Value)
  type : TypeId
deriving Repr

namespace FieldCall

def argument? (f : FieldCall) (name : String) : Option Value := f.arguments.lookup name

end FieldCall

/-- A field of a selection. Fields are selected below it exactly if it holds objects. -/
inductive SelectedField where
  | leaf (call : FieldCall)
  | object (call : FieldCall) (below : List SelectedField)
deriving Repr

namespace SelectedField

def call : SelectedField → FieldCall
  | leaf c | object c _ => c

/-- The fields selected below a field, if it holds objects. -/
def below? : SelectedField → Option (List SelectedField)
  | leaf _ => none
  | object _ below => some below

/-- The field of a response key. -/
def find? (fs : List SelectedField) (key : String) : Option SelectedField :=
  fs.find? fun f => f.call.key == key

end SelectedField

/-- What selections are worked out against. -/
structure SelectionContext where
  schema : Schema
  document : Document
  source : List Char
  variableValues : Variables

/-- What a walk through selections comes across. -/
inductive Collected where
  | field (field : Field) (below : Option SelectionSet)
  | error (error : ResponseError)

namespace Collected

def field? : Collected → Option (Field × Option SelectionSet)
  | field f below => some (f, below)
  | error _ => none

def error? : Collected → Option ResponseError
  | field .. => none
  | error e => some e

end Collected

namespace SelectionContext

/-- Errors of values; one that stands nowhere is reported at `p`. -/
def responseErrors (c : SelectionContext) (p : Pos) (es : List CoercionError) :
    List ResponseError :=
  es.map fun e =>
    ⟨e.message, [(if e.pos = .start then p else e.pos).lineColumn c.source], none⟩

/-! ### Conditions -/

/-- The value of the condition of a directive, if it is one that has a condition. -/
def condition? (c : SelectionContext) (d : Directive) :
    Option (Except (List CoercionError) (Option Bool)) :=
  let name := d.name.text
  if name == "skip" || name == "include" then
    (c.schema.directive? name).map fun spec =>
      (c.schema.coerceArguments spec.arguments d.arguments (some c.variableValues) d.pos).map fun args =>
        (args.lookup "if").bind (·.bool?)
  else none

/-- Whether directives let in the selection at `p`. The first one that does not decides. -/
def admits (c : SelectionContext) (p : Pos) : List Directive → Bool × List ResponseError
  | [] => (true, [])
  | d :: ds =>
    match c.condition? d with
    | none => c.admits p ds
    | some (.error es) =>
      let (isAdmitted, more) := c.admits p ds
      (isAdmitted, c.responseErrors p es ++ more)
    | some (.ok value) =>
      if (d.name.text == "skip" && value = some true)
          || (d.name.text == "include" && value = some false) then (false, [])
      else c.admits p ds

/-- A walk through a selection that directives may exclude. -/
def guarded (c : SelectionContext) (p : Pos) (ds : List Directive) (w : Walk Collected) :
    Walk Collected :=
  let (isAdmitted, errors) := c.admits p ds
  Walk.emit (errors.map .error) ++ if isAdmitted then w else Walk.emit []

/-! ### The fields of one object -/

/-- Whether a fragment applies to objects of a type. -/
def applies (c : SelectionContext) (parent : TypeId) (condition : Option Name) : Bool :=
  match condition with
  | none => true
  | some n => c.schema.typeId? n.text = some parent.nullable

/-- The use of a fragment. -/
def spreadWalk (c : SelectionContext) (enter : FragmentDefinition → Walk Collected)
    (parent : TypeId) (name : String) : Walk Collected :=
  Walk.once name
    (match c.document.fragment? name with
     | none => Walk.emit []
     | some f => if c.applies parent (some f.typeCondition) then enter f else Walk.emit [])

mutual

def selectionWalk (c : SelectionContext) (enter : FragmentDefinition → Walk Collected)
    (parent : TypeId) : Selection → Walk Collected
  | .field f below => c.guarded f.pos f.directives (Walk.emit [.field f below])
  | .spread s => c.guarded s.pos s.directives (c.spreadWalk enter parent s.name.text)
  | .inline i below =>
    c.guarded i.pos i.directives
      (if c.applies parent i.typeCondition then selectionSetWalk c enter parent below
        else Walk.emit [])

def selectionSetWalk (c : SelectionContext) (enter : FragmentDefinition → Walk Collected)
    (parent : TypeId) : SelectionSet → Walk Collected
  | .mk selections _ => selectionsWalk c enter parent selections

def selectionsWalk (c : SelectionContext) (enter : FragmentDefinition → Walk Collected)
    (parent : TypeId) : List Selection → Walk Collected
  | [] => Walk.emit []
  | s :: ss => selectionWalk c enter parent s ++ selectionsWalk c enter parent ss

end

/-- A walk through the body of a fragment, with fragments at most `steps` deep below it. -/
def fragmentWalk (c : SelectionContext) (parent : TypeId) :
    Nat → FragmentDefinition → Walk Collected
  | 0 => fun _ => Walk.emit []
  | steps + 1 => fun f => c.selectionSetWalk (c.fragmentWalk parent steps) parent f.selectionSet

/-- Everything that selection sets hold for objects of a type. A fragment counts once for all of
them. -/
def collect (c : SelectionContext) (parent : TypeId) (sets : List SelectionSet) : List Collected :=
  let enter := c.fragmentWalk parent c.document.fragments.length
  let walks := sets.map (c.selectionSetWalk enter parent)
  (walks.foldr Walk.append (Walk.emit [])).found

/-! ### Merged fields -/

/-- Merges the fields of one response key; `build` works out the selections below them. An unknown
field is left out. -/
def mergeFields (c : SelectionContext)
    (build : TypeId → List SelectionSet → List SelectedField × List ResponseError)
    (parent : TypeId) (key : String) (group : List (Field × Option SelectionSet)) :
    Option (SelectedField × List ResponseError) :=
  match group with
  | [] => none
  | (first, _) :: _ =>
    (c.schema.field? parent first.name.text).map fun spec =>
      let arguments := c.schema.coerceArguments spec.arguments first.arguments (some c.variableValues) first.pos
      let (args, errors) :=
        match arguments with
        | .ok args => (args, [])
        | .error es => ([], c.responseErrors first.pos es)
      let call : FieldCall :=
        ⟨key, first.name.text, first.pos.lineColumn c.source, args, spec.type⟩
      if c.schema.isComposite spec.type then
        let (below, more) := build (c.schema.registry.innermost spec.type) (group.filterMap (·.2))
        (.object call below, errors ++ more)
      else (.leaf call, errors)

/-- The merged fields of selection sets, at most `levels` deep. -/
def build (c : SelectionContext) :
    Nat → TypeId → List SelectionSet → List SelectedField × List ResponseError
  | 0, _, _ => ([], [])
  | levels + 1, parent, sets =>
    let collected := c.collect parent sets
    let groups := groupByKey (·.1.responseKey) (collected.filterMap (·.field?))
    let merged := groups.filterMap fun (key, group) =>
      c.mergeFields (c.build levels) parent key group
    (merged.map (·.1), collected.filterMap (·.error?) ++ merged.flatMap (·.2))

/-- The merged fields of a selection set on objects of a type, and what is wrong with their arguments.
An operation with errors must not be executed. -/
def select (c : SelectionContext) (parent : TypeId) (ss : SelectionSet) :
    List SelectedField × List ResponseError :=
  c.build (c.document.maxLevels + 1) parent [ss]

end SelectionContext

end GraphQL
