import GraphQL.Document.Spread
import GraphQL.Document.Walk
import GraphQL.Grouping
import GraphQL.Schema
import GraphQL.Validation.Error
import Std.Data.HashMap
import Std.Data.HashSet

/-!
Whether the fields of an operation that have the same response key can be merged into one.

Fields that may be selected on the same object have to be the same field with the same arguments, and
all fields of a key have to produce responses of the same shape. Fragments are looked through, so that
one pair of fields comes up in many places. A memo keeps the selection sets that were checked and the
outcomes of all comparisons, each known by where it is written and by the types that are selected on.
-/

namespace GraphQL

/-- A field, with the type that it is selected on and what that type says of it. -/
structure SelectedOn where
  parent : TypeId
  field : Field
  below : Option SelectionSet
  spec : Option FieldSpec

/-- Why two fields cannot be merged, and the places of all fields that this is about. -/
structure MergeConflict where
  reason : String
  positions : List Pos
deriving DecidableEq, Repr

/-- The document and the schema in which fields are merged. -/
structure MergeContext where
  schema : Schema
  document : Document

namespace MergeContext

/-! ### The fields of a selection set -/

/-- A fragment stands for its fields, as selected on its type. -/
def spreadFields (c : MergeContext) (enter : TypeId → FragmentDefinition → Walk SelectedOn)
    (name : String) : Walk SelectedOn :=
  Walk.once name
    (match c.document.fragment? name with
     | none => Walk.emit []
     | some f =>
       match c.schema.typeId? f.typeCondition.text with
       | none => Walk.emit []
       | some t => enter t f)

/-- The type that an inline fragment selects on. -/
def inlineType (c : MergeContext) (parent : TypeId) (i : InlineFragment) : Option TypeId :=
  match i.typeCondition with
  | none => some parent
  | some condition => c.schema.typeId? condition.text

mutual

def selectionFields (c : MergeContext) (enter : TypeId → FragmentDefinition → Walk SelectedOn)
    (parent : TypeId) : Selection → Walk SelectedOn
  | .field f below => Walk.emit [⟨parent, f, below, c.schema.field? parent f.name.text⟩]
  | .spread s => c.spreadFields enter s.name.text
  | .inline i below =>
    match c.inlineType parent i with
    | none => Walk.emit []
    | some t => selectionSetFields c enter t below

def selectionSetFields (c : MergeContext) (enter : TypeId → FragmentDefinition → Walk SelectedOn)
    (parent : TypeId) : SelectionSet → Walk SelectedOn
  | .mk selections _ => selectionsFields c enter parent selections

def selectionsFields (c : MergeContext) (enter : TypeId → FragmentDefinition → Walk SelectedOn)
    (parent : TypeId) : List Selection → Walk SelectedOn
  | [] => Walk.emit []
  | s :: ss => selectionFields c enter parent s ++ selectionsFields c enter parent ss

end

/-- The fields of a fragment, with fragments at most `steps` deep. -/
def fragmentFields (c : MergeContext) : Nat → TypeId → FragmentDefinition → Walk SelectedOn
  | 0 => fun _ _ => Walk.emit []
  | steps + 1 => fun t f => c.selectionSetFields (c.fragmentFields steps) t f.selectionSet

/-- The fields of a selection set by response key, with all fragments looked through. -/
def fieldGroups (c : MergeContext) (parent : TypeId) (ss : SelectionSet) :
    List (String × List SelectedOn) :=
  let steps := c.document.fragments.length
  groupByKey (·.field.responseKey) (c.selectionSetFields (c.fragmentFields steps) parent ss).found

/-! ### Comparing two fields -/

/-- The same arguments, in whatever order. -/
def sameArguments (f g : Field) : Bool :=
  f.arguments.length == g.arguments.length
    && f.arguments.all fun a =>
      match g.argument? a.name.text with
      | some b => a.value.isEquivalent b.value
      | none => false

/-- Whether values of two types cannot share a place in a response. Looks at most `steps` list layers
deep. -/
def differentShapes (s : Schema) : Nat → TypeId → TypeId → Bool
  | 0, _, _ => false
  | steps + 1, t, u =>
    t.isNonNull != u.isNonNull
      || match s.element? t, s.element? u with
         | some e, some f => differentShapes s steps e f
         | none, none => (s.isLeaf t || s.isLeaf u) && t.nullable != u.nullable
         | _, _ => true

/-- Fields on two object types never apply to one object. -/
def areExclusive (a b : SelectedOn) : Bool := a.parent.nullable != b.parent.nullable

/-- Why two fields cannot be merged, whatever stands below them. Exclusive fields only have to agree in
the shape of their responses. -/
def ownConflict (c : MergeContext) (exclusive : Bool) (a b : SelectedOn) : Option String :=
  let m := a.field.name.text
  let n := b.field.name.text
  if !exclusive && m != n then some ("`" ++ m ++ "` and `" ++ n ++ "` are different fields")
  else if !exclusive && !sameArguments a.field b.field then some "they have differing arguments"
  else
    match a.spec, b.spec with
    | some f, some g =>
      if differentShapes c.schema (c.schema.registry.size + 1) f.type g.type then
        some ("they return conflicting types `" ++ c.schema.typeName f.type ++ "` and `"
          ++ c.schema.typeName g.type ++ "`")
      else none
    | _, _ => none

/-- The fields below a field, if it is known and has selections. -/
def groupsBelow (c : MergeContext) (a : SelectedOn) : List (String × List SelectedOn) :=
  match a.spec, a.below with
  | some spec, some below => c.fieldGroups (c.schema.registry.innermost spec.type) below
  | _, _ => []

/-- The pairs of fields with one key, the first from `as` and the second from `bs`. -/
def pairsAcross (as bs : List (String × List SelectedOn)) :
    List (String × SelectedOn × SelectedOn) :=
  as.flatMap fun (key, group) =>
    group.flatMap fun a => ((bs.lookup key).getD []).map fun b => (key, a, b)

/-- The pairs of fields with one key, the first in front of the second. -/
def pairsWithin (groups : List (String × List SelectedOn)) :
    List (String × SelectedOn × SelectedOn) :=
  let pairs (group : List SelectedOn) : List (SelectedOn × SelectedOn) :=
    group.zipIdx.flatMap fun (a, n) => (group.drop (n + 1)).map fun b => (a, b)
  groups.flatMap fun (key, group) => (pairs group).map fun p => (key, p)

/-- The conflict of two fields because of conflicts below them. What comes up more than once is said
once. -/
def conflictBelow (a b : SelectedOn) (found : List (String × MergeConflict)) :
    Option MergeConflict :=
  if found.isEmpty then none
  else
    let reasons := found.map fun (key, m) =>
      "subfields `" ++ key ++ "` conflict because " ++ m.reason
    let positions := a.field.pos :: b.field.pos :: found.flatMap fun (_, m) => m.positions
    some ⟨String.intercalate " and " reasons.eraseDups, positions.eraseDups⟩

/-- Compares two fields; `compare` compares fields below them. -/
def compareWith {m : Type → Type} [Monad m] (c : MergeContext)
    (compare : Bool → SelectedOn → SelectedOn → m (Option MergeConflict)) (exclusive : Bool)
    (a b : SelectedOn) : m (Option MergeConflict) := do
  let exclusive := exclusive || areExclusive a b
  match c.ownConflict exclusive a b with
  | some reason => return some ⟨reason, [a.field.pos, b.field.pos]⟩
  | none =>
    let found ← (pairsAcross (c.groupsBelow a) (c.groupsBelow b)).mapM fun (key, x, y) => do
      return (← compare exclusive x y).map fun conflict => (key, conflict)
    return conflictBelow a b (found.filterMap id)

/-! ### The memo -/

/-- What a comparison is known by: both fields, by place and type, and whether the types that they
stand below are exclusive. -/
structure ComparisonKey where
  first : Pos
  firstParent : TypeId
  second : Pos
  secondParent : TypeId
  exclusive : Bool
deriving DecidableEq, Hashable

def ComparisonKey.of (exclusive : Bool) (a b : SelectedOn) : ComparisonKey :=
  ⟨a.field.pos, a.parent, b.field.pos, b.parent, exclusive⟩

structure MergeMemo where
  /-- The selection sets that were checked, by place and type. -/
  checked : Std.HashSet (Pos × TypeId)
  compared : Std.HashMap ComparisonKey (Option MergeConflict)

/-- The memo in front of all checks. -/
def MergeMemo.empty : MergeMemo := ⟨∅, ∅⟩

/-- Compares two fields once, with fields at most `steps` deep below them. -/
def compareOnce (c : MergeContext) :
    Nat → Bool → SelectedOn → SelectedOn → StateM MergeMemo (Option MergeConflict)
  | 0, _, _, _ => return none
  | steps + 1, exclusive, a, b => do
    let key := ComparisonKey.of exclusive a b
    match (← get).compared[key]? with
    | some known => return known
    | none =>
      let conflict ← c.compareWith (c.compareOnce steps) exclusive a b
      modify fun memo => { memo with compared := memo.compared.insert key conflict }
      return conflict

/-- How many fields can stand above each other. -/
def maxLevels (c : MergeContext) : Nat := c.document.maxLevels + 1

def conflictProblem (key : String) (m : MergeConflict) : Problem :=
  .ofCause (.fieldsConflict key m.reason) m.positions

/-- Checks a selection set and those below it once, at most `steps` deep: first its own fields, then the
selection sets below each of them. -/
def checkOnce (c : MergeContext) :
    Nat → TypeId → SelectionSet → StateM MergeMemo (List Problem)
  | 0, _, _ => return []
  | steps + 1, parent, ss => do
    if (← get).checked.contains (ss.pos, parent) then return []
    else
      modify fun memo => { memo with checked := memo.checked.insert (ss.pos, parent) }
      let groups := c.fieldGroups parent ss
      let own ← (pairsWithin groups).mapM fun (key, a, b) => do
        return (← c.compareOnce c.maxLevels false a b).map (conflictProblem key)
      let below ← (groups.flatMap (·.2)).mapM fun a =>
        match a.spec, a.below with
        | some spec, some below => c.checkOnce steps (c.schema.registry.innermost spec.type) below
        | _, _ => return []
      return own.filterMap id ++ below.flatten

end MergeContext

/-- The fields of an operation that cannot be merged. -/
def mergeProblems (s : Schema) (d : Document) (op : OperationDefinition) : List Problem :=
  let c : MergeContext := ⟨s, d⟩
  match op.type, s.root? op.type with
  | .subscription, _ | _, none => []
  | _, some root => ((c.checkOnce c.maxLevels root op.selectionSet).run .empty).1

end GraphQL
