import Mathlib.Data.List.Basic
import GraphQL.Document

/-!
How deep a document nests.

Values, types and selection sets count. What stands in another of them is one level deeper, whatever
their kinds; names, lists of arguments and lists of directives do not count.
-/

namespace GraphQL

/-- The size of the largest of some things. -/
def largest {α : Type} (size : α → Nat) : List α → Nat
  | [] => 0
  | a :: as => max (size a) (largest size as)

lemma largest_le {α : Type} {size : α → Nat} {as : List α} {n : Nat} :
    largest size as ≤ n ↔ ∀ a ∈ as, size a ≤ n := by
  induction as with
  | nil => simp [largest]
  | cons a as ih => rw [largest, Nat.max_le, ih, List.forall_mem_cons]

namespace Literal

mutual

def nesting : Literal → Nat
  | null _ | var _ _ | scalar _ _ _ => 1
  | list items _ => nestingOfItems items + 1
  | object fields _ => nestingOfFields fields + 1

def nestingOfItems : List Literal → Nat
  | [] => 0
  | v :: vs => max v.nesting (nestingOfItems vs)

def nestingOfFields : List (Name × Literal) → Nat
  | [] => 0
  | (_, v) :: fs => max v.nesting (nestingOfFields fs)

end

lemma nestingOfItems_eq (vs : List Literal) : nestingOfItems vs = largest nesting vs := by
  induction vs with
  | nil => rfl
  | cons v vs ih => rw [nestingOfItems, largest, ih]

lemma nestingOfFields_eq (fs : List (Name × Literal)) :
    nestingOfFields fs = largest (fun f => f.2.nesting) fs := by
  induction fs with
  | nil => rfl
  | cons f fs ih => rw [nestingOfFields, largest, ih]

lemma nesting_pos (v : Literal) : 0 < v.nesting := by
  cases v <;> simp [nesting]

end Literal

namespace TypeRef

/-- A mark that makes a type a required one is no level of its own. -/
def nesting : TypeRef → Nat
  | named _ => 1
  | list t _ => t.nesting + 1
  | nonNull t _ => t.nesting

lemma nesting_pos (t : TypeRef) : 0 < t.nesting := by
  induction t with
  | named => exact Nat.one_pos
  | list => exact Nat.succ_pos _
  | nonNull t _ ih => exact ih

end TypeRef

def Argument.nesting (a : Argument) : Nat := a.value.nesting

def Directive.nesting (d : Directive) : Nat := largest Argument.nesting d.arguments

def Field.nesting (f : Field) : Nat :=
  max (largest Argument.nesting f.arguments) (largest Directive.nesting f.directives)

mutual

def Selection.nesting : Selection → Nat
  | .field f none => f.nesting
  | .field f (some below) => max f.nesting below.nesting
  | .spread s => largest Directive.nesting s.directives
  | .inline i below => max (largest Directive.nesting i.directives) below.nesting

def SelectionSet.nesting : SelectionSet → Nat
  | .mk selections _ => Selection.nestingOfAll selections + 1

def Selection.nestingOfAll : List Selection → Nat
  | [] => 0
  | s :: ss => max s.nesting (Selection.nestingOfAll ss)

end

lemma Selection.nestingOfAll_eq (ss : List Selection) : nestingOfAll ss = largest nesting ss := by
  induction ss with
  | nil => rfl
  | cons s ss ih => rw [nestingOfAll, largest, ih]

def VariableDefinition.nesting (v : VariableDefinition) : Nat :=
  max v.type.nesting
    (max (largest Literal.nesting v.default?.toList) (largest Directive.nesting v.directives))

def OperationDefinition.nesting (op : OperationDefinition) : Nat :=
  max (largest VariableDefinition.nesting op.variableDefinitions)
    (max (largest Directive.nesting op.directives) op.selectionSet.nesting)

def FragmentDefinition.nesting (f : FragmentDefinition) : Nat :=
  max (largest Directive.nesting f.directives) f.selectionSet.nesting

def InputDefinition.nesting (i : InputDefinition) : Nat :=
  max i.type.nesting
    (max (largest Literal.nesting i.default?.toList) (largest Directive.nesting i.directives))

def FieldDefinition.nesting (f : FieldDefinition) : Nat :=
  max (largest InputDefinition.nesting f.arguments)
    (max f.type.nesting (largest Directive.nesting f.directives))

def EnumValueDefinition.nesting (v : EnumValueDefinition) : Nat :=
  largest Directive.nesting v.directives

def TypeBody.nesting : TypeBody → Nat
  | scalar => 0
  | object fields => largest FieldDefinition.nesting fields
  | enum values => largest EnumValueDefinition.nesting values
  | input fields => largest InputDefinition.nesting fields

def TypeDefinition.nesting (t : TypeDefinition) : Nat :=
  max (largest Directive.nesting t.directives) t.body.nesting

def Definition.nesting : Definition → Nat
  | operation d => d.nesting
  | fragment d => d.nesting
  | type d => d.nesting

def Document.nesting (d : Document) : Nat := largest Definition.nesting d.definitions

end GraphQL
