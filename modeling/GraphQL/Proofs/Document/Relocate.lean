import Mathlib.Data.List.Basic
import GraphQL.Document

/-!
Documents that are written elsewhere.

What a document says does not change with the places where its parts stand. Moving it gives each part
another place and leaves all the rest.
-/

namespace GraphQL

variable (move : Pos → Pos) {f g : Pos → Pos}

namespace Name

def relocate (n : Name) : Name := ⟨n.text, move n.pos⟩

@[simp] lemma relocate_id (n : Name) : n.relocate id = n := rfl

lemma relocate_relocate (n : Name) : (n.relocate f).relocate g = n.relocate (g ∘ f) := rfl

end Name

namespace Literal

mutual

/-- The literal with each of its places moved. -/
def relocate : Literal → Literal
  | null p => null (move p)
  | var name p => var name (move p)
  | scalar kind text p => scalar kind text (move p)
  | list items p => list (relocateItems items) (move p)
  | object fields p => object (relocateFields fields) (move p)

def relocateItems : List Literal → List Literal
  | [] => []
  | v :: vs => v.relocate :: relocateItems vs

def relocateFields : List (Name × Literal) → List (Name × Literal)
  | [] => []
  | (n, v) :: fs => (n.relocate move, v.relocate) :: relocateFields fs

end

lemma relocateItems_eq (items : List Literal) : relocateItems move items = items.map (relocate move) := by
  induction items with
  | nil => rfl
  | cons v vs ih => rw [relocateItems, ih, List.map_cons]

lemma relocateFields_eq (fields : List (Name × Literal)) :
    relocateFields move fields = fields.map fun f => (f.1.relocate move, f.2.relocate move) := by
  induction fields with
  | nil => rfl
  | cons f fs ih => rw [relocateFields, ih, List.map_cons]

mutual

@[simp] lemma relocate_id : ∀ v : Literal, v.relocate id = v
  | null _ | var .. | scalar .. => rfl
  | list items _ => by rw [relocate, relocateItems_id items, id]
  | object fields _ => by rw [relocate, relocateFields_id fields, id]

lemma relocateItems_id : ∀ vs : List Literal, relocateItems id vs = vs
  | [] => rfl
  | v :: vs => by rw [relocateItems, relocate_id v, relocateItems_id vs]

lemma relocateFields_id : ∀ fs : List (Name × Literal), relocateFields id fs = fs
  | [] => rfl
  | (n, v) :: fs => by rw [relocateFields, n.relocate_id, relocate_id v, relocateFields_id fs]

end

mutual

/-- Moving twice is moving once. -/
lemma relocate_relocate : ∀ v : Literal, (v.relocate f).relocate g = v.relocate (g ∘ f)
  | null _ | var .. | scalar .. => rfl
  | list items _ => by
    rw [relocate, relocate, relocate, relocateItems_relocateItems items, Function.comp_apply]
  | object fields _ => by
    rw [relocate, relocate, relocate, relocateFields_relocateFields fields, Function.comp_apply]

lemma relocateItems_relocateItems : ∀ vs : List Literal,
    relocateItems g (relocateItems f vs) = relocateItems (g ∘ f) vs
  | [] => rfl
  | v :: vs => by
    rw [relocateItems, relocateItems, relocateItems, relocate_relocate v, relocateItems_relocateItems vs]

lemma relocateFields_relocateFields : ∀ fs : List (Name × Literal),
    relocateFields g (relocateFields f fs) = relocateFields (g ∘ f) fs
  | [] => rfl
  | (n, v) :: fs => by
    rw [relocateFields, relocateFields, relocateFields, n.relocate_relocate, relocate_relocate v,
      relocateFields_relocateFields fs]

end

end Literal

namespace TypeRef

def relocate : TypeRef → TypeRef
  | named n => named (n.relocate move)
  | list t p => list t.relocate (move p)
  | nonNull t p => nonNull t.relocate (move p)

@[simp] lemma relocate_id (t : TypeRef) : t.relocate id = t := by
  induction t with
  | named n => rfl
  | list t p ih | nonNull t p ih => rw [relocate, ih, id]

lemma relocate_relocate (t : TypeRef) : (t.relocate f).relocate g = t.relocate (g ∘ f) := by
  induction t with
  | named n => rfl
  | list t p ih | nonNull t p ih => rw [relocate, relocate, relocate, ih, Function.comp_apply]

end TypeRef

/-- To move all members of a list by nothing leaves the list. -/
lemma map_relocate_id {α : Type} {f : α → α} (hf : ∀ a, f a = a) (as : List α) : as.map f = as := by
  rw [show f = id from funext hf, List.map_id]

/-- The same, where there may be nothing to move. -/
lemma option_relocate_id {α : Type} {f : α → α} (hf : ∀ a, f a = a) (a : Option α) : a.map f = a := by
  rw [show f = id from funext hf, Option.map_id, id]

/-- To move all members of a list twice is to move them once. -/
lemma map_relocate_relocate {α : Type} {h h' k : α → α} (hk : ∀ a, h' (h a) = k a) (as : List α) :
    (as.map h).map h' = as.map k := by
  rw [List.map_map, show h' ∘ h = k from funext hk]

/-- The same, where there may be nothing to move. -/
lemma option_relocate_relocate {α : Type} {h h' k : α → α} (hk : ∀ a, h' (h a) = k a) (a : Option α) :
    (a.map h).map h' = a.map k := by
  rw [Option.map_map, show h' ∘ h = k from funext hk]

namespace Argument

def relocate (a : Argument) : Argument := ⟨a.name.relocate move, a.value.relocate move⟩

@[simp] lemma relocate_id (a : Argument) : a.relocate id = a := by
  rw [relocate, Name.relocate_id, Literal.relocate_id]

lemma relocate_relocate (a : Argument) : (a.relocate f).relocate g = a.relocate (g ∘ f) := by
  simp only [relocate, Name.relocate_relocate, Literal.relocate_relocate]

end Argument

namespace Directive

def relocate (d : Directive) : Directive :=
  ⟨d.name.relocate move, d.arguments.map (Argument.relocate move), move d.pos⟩

@[simp] lemma relocate_id (d : Directive) : d.relocate id = d := by
  rw [relocate, Name.relocate_id, map_relocate_id Argument.relocate_id, id]

lemma relocate_relocate (d : Directive) : (d.relocate f).relocate g = d.relocate (g ∘ f) := by
  simp only [relocate, Name.relocate_relocate, map_relocate_relocate Argument.relocate_relocate,
    Function.comp_apply]

end Directive

namespace Field

def relocate (f : Field) : Field :=
  ⟨f.alias?.map (Name.relocate move), f.name.relocate move, f.arguments.map (Argument.relocate move),
    f.directives.map (Directive.relocate move), move f.pos⟩

@[simp] lemma relocate_id (f : Field) : f.relocate id = f := by
  rw [relocate, option_relocate_id Name.relocate_id, Name.relocate_id,
    map_relocate_id Argument.relocate_id, map_relocate_id Directive.relocate_id, id]

lemma relocate_relocate (fld : Field) : (fld.relocate f).relocate g = fld.relocate (g ∘ f) := by
  simp only [relocate, option_relocate_relocate Name.relocate_relocate, Name.relocate_relocate,
    map_relocate_relocate Argument.relocate_relocate, map_relocate_relocate Directive.relocate_relocate,
    Function.comp_apply]

end Field

namespace FragmentSpread

def relocate (s : FragmentSpread) : FragmentSpread :=
  ⟨s.name.relocate move, s.directives.map (Directive.relocate move), move s.pos⟩

@[simp] lemma relocate_id (s : FragmentSpread) : s.relocate id = s := by
  rw [relocate, Name.relocate_id, map_relocate_id Directive.relocate_id, id]

lemma relocate_relocate (s : FragmentSpread) : (s.relocate f).relocate g = s.relocate (g ∘ f) := by
  simp only [relocate, Name.relocate_relocate, map_relocate_relocate Directive.relocate_relocate,
    Function.comp_apply]

end FragmentSpread

namespace InlineFragment

def relocate (i : InlineFragment) : InlineFragment :=
  ⟨i.typeCondition.map (Name.relocate move), i.directives.map (Directive.relocate move), move i.pos⟩

@[simp] lemma relocate_id (i : InlineFragment) : i.relocate id = i := by
  rw [relocate, option_relocate_id Name.relocate_id, map_relocate_id Directive.relocate_id, id]

lemma relocate_relocate (i : InlineFragment) : (i.relocate f).relocate g = i.relocate (g ∘ f) := by
  simp only [relocate, option_relocate_relocate Name.relocate_relocate,
    map_relocate_relocate Directive.relocate_relocate, Function.comp_apply]

end InlineFragment

mutual

def Selection.relocate : Selection → Selection
  | .field f none => .field (f.relocate move) none
  | .field f (some below) => .field (f.relocate move) (some below.relocate)
  | .spread s => .spread (s.relocate move)
  | .inline i below => .inline (i.relocate move) below.relocate

def SelectionSet.relocate : SelectionSet → SelectionSet
  | .mk selections p => .mk (relocateSelections selections) (move p)

def relocateSelections : List Selection → List Selection
  | [] => []
  | s :: ss => s.relocate :: relocateSelections ss

end

lemma relocateSelections_eq (ss : List Selection) :
    relocateSelections move ss = ss.map (Selection.relocate move) := by
  induction ss with
  | nil => rfl
  | cons s ss ih => rw [relocateSelections, ih, List.map_cons]

mutual

@[simp] lemma Selection.relocate_id : ∀ s : Selection, s.relocate id = s
  | .field f none => by rw [Selection.relocate, f.relocate_id]
  | .field f (some below) => by rw [Selection.relocate, f.relocate_id, below.relocate_id]
  | .spread s => by rw [Selection.relocate, s.relocate_id]
  | .inline i below => by rw [Selection.relocate, i.relocate_id, below.relocate_id]

@[simp] lemma SelectionSet.relocate_id : ∀ ss : SelectionSet, ss.relocate id = ss
  | .mk selections _ => by rw [SelectionSet.relocate, relocateSelections_id selections, id]

lemma relocateSelections_id : ∀ ss : List Selection, relocateSelections id ss = ss
  | [] => rfl
  | s :: ss => by rw [relocateSelections, s.relocate_id, relocateSelections_id ss]

end

mutual

lemma Selection.relocate_relocate : ∀ s : Selection, (s.relocate f).relocate g = s.relocate (g ∘ f)
  | .field fld none => by simp only [Selection.relocate, Field.relocate_relocate]
  | .field fld (some below) => by
    simp only [Selection.relocate, Field.relocate_relocate, below.relocate_relocate]
  | .spread s => by simp only [Selection.relocate, FragmentSpread.relocate_relocate]
  | .inline i below => by
    simp only [Selection.relocate, InlineFragment.relocate_relocate, below.relocate_relocate]

lemma SelectionSet.relocate_relocate : ∀ ss : SelectionSet,
    (ss.relocate f).relocate g = ss.relocate (g ∘ f)
  | .mk selections _ => by
    simp only [SelectionSet.relocate, relocateSelections_relocateSelections selections, Function.comp_apply]

lemma relocateSelections_relocateSelections : ∀ ss : List Selection,
    relocateSelections g (relocateSelections f ss) = relocateSelections (g ∘ f) ss
  | [] => rfl
  | s :: ss => by
    simp only [relocateSelections, s.relocate_relocate, relocateSelections_relocateSelections ss]

end

namespace VariableDefinition

def relocate (v : VariableDefinition) : VariableDefinition :=
  ⟨v.name.relocate move, v.type.relocate move, v.default?.map (Literal.relocate move),
    v.directives.map (Directive.relocate move), move v.pos⟩

@[simp] lemma relocate_id (v : VariableDefinition) : v.relocate id = v := by
  rw [relocate, Name.relocate_id, TypeRef.relocate_id, option_relocate_id Literal.relocate_id,
    map_relocate_id Directive.relocate_id, id]

lemma relocate_relocate (v : VariableDefinition) : (v.relocate f).relocate g = v.relocate (g ∘ f) := by
  simp only [relocate, Name.relocate_relocate, TypeRef.relocate_relocate,
    option_relocate_relocate Literal.relocate_relocate, map_relocate_relocate Directive.relocate_relocate,
    Function.comp_apply]

end VariableDefinition

namespace OperationDefinition

def relocate (d : OperationDefinition) : OperationDefinition :=
  ⟨d.type, d.name.map (Name.relocate move), d.variableDefinitions.map (VariableDefinition.relocate move),
    d.directives.map (Directive.relocate move), d.selectionSet.relocate move, d.isShorthand, move d.pos⟩

@[simp] lemma relocate_id (d : OperationDefinition) : d.relocate id = d := by
  rw [relocate, option_relocate_id Name.relocate_id, map_relocate_id VariableDefinition.relocate_id,
    map_relocate_id Directive.relocate_id, SelectionSet.relocate_id, id]

lemma relocate_relocate (d : OperationDefinition) : (d.relocate f).relocate g = d.relocate (g ∘ f) := by
  simp only [relocate, option_relocate_relocate Name.relocate_relocate,
    map_relocate_relocate VariableDefinition.relocate_relocate,
    map_relocate_relocate Directive.relocate_relocate, SelectionSet.relocate_relocate, Function.comp_apply]

end OperationDefinition

namespace FragmentDefinition

def relocate (d : FragmentDefinition) : FragmentDefinition :=
  ⟨d.name.relocate move, d.typeCondition.relocate move, d.directives.map (Directive.relocate move),
    d.selectionSet.relocate move, move d.pos⟩

@[simp] lemma relocate_id (d : FragmentDefinition) : d.relocate id = d := by
  rw [relocate, Name.relocate_id, Name.relocate_id, map_relocate_id Directive.relocate_id,
    SelectionSet.relocate_id, id]

lemma relocate_relocate (d : FragmentDefinition) : (d.relocate f).relocate g = d.relocate (g ∘ f) := by
  simp only [relocate, Name.relocate_relocate, map_relocate_relocate Directive.relocate_relocate,
    SelectionSet.relocate_relocate, Function.comp_apply]

end FragmentDefinition

namespace InputDefinition

def relocate (d : InputDefinition) : InputDefinition :=
  ⟨d.description, d.name.relocate move, d.type.relocate move, d.default?.map (Literal.relocate move),
    d.directives.map (Directive.relocate move), move d.pos⟩

@[simp] lemma relocate_id (d : InputDefinition) : d.relocate id = d := by
  rw [relocate, Name.relocate_id, TypeRef.relocate_id, option_relocate_id Literal.relocate_id,
    map_relocate_id Directive.relocate_id, id]

lemma relocate_relocate (d : InputDefinition) : (d.relocate f).relocate g = d.relocate (g ∘ f) := by
  simp only [relocate, Name.relocate_relocate, TypeRef.relocate_relocate,
    option_relocate_relocate Literal.relocate_relocate, map_relocate_relocate Directive.relocate_relocate,
    Function.comp_apply]

end InputDefinition

namespace FieldDefinition

def relocate (d : FieldDefinition) : FieldDefinition :=
  ⟨d.description, d.name.relocate move, d.arguments.map (InputDefinition.relocate move),
    d.type.relocate move, d.directives.map (Directive.relocate move), move d.pos⟩

@[simp] lemma relocate_id (d : FieldDefinition) : d.relocate id = d := by
  rw [relocate, Name.relocate_id, TypeRef.relocate_id, map_relocate_id InputDefinition.relocate_id,
    map_relocate_id Directive.relocate_id, id]

lemma relocate_relocate (d : FieldDefinition) : (d.relocate f).relocate g = d.relocate (g ∘ f) := by
  simp only [relocate, Name.relocate_relocate, TypeRef.relocate_relocate,
    map_relocate_relocate InputDefinition.relocate_relocate,
    map_relocate_relocate Directive.relocate_relocate, Function.comp_apply]

end FieldDefinition

namespace EnumValueDefinition

def relocate (d : EnumValueDefinition) : EnumValueDefinition :=
  ⟨d.description, d.name.relocate move, d.directives.map (Directive.relocate move), move d.pos⟩

@[simp] lemma relocate_id (d : EnumValueDefinition) : d.relocate id = d := by
  rw [relocate, Name.relocate_id, map_relocate_id Directive.relocate_id, id]

lemma relocate_relocate (d : EnumValueDefinition) : (d.relocate f).relocate g = d.relocate (g ∘ f) := by
  simp only [relocate, Name.relocate_relocate, map_relocate_relocate Directive.relocate_relocate,
    Function.comp_apply]

end EnumValueDefinition

namespace TypeBody

def relocate : TypeBody → TypeBody
  | scalar => scalar
  | object fields => object (fields.map (FieldDefinition.relocate move))
  | enum values => enum (values.map (EnumValueDefinition.relocate move))
  | input fields => input (fields.map (InputDefinition.relocate move))

@[simp] lemma relocate_id (b : TypeBody) : b.relocate id = b := by
  cases b with
  | scalar => rfl
  | object fields => rw [relocate, map_relocate_id FieldDefinition.relocate_id]
  | enum values => rw [relocate, map_relocate_id EnumValueDefinition.relocate_id]
  | input fields => rw [relocate, map_relocate_id InputDefinition.relocate_id]

lemma relocate_relocate (b : TypeBody) : (b.relocate f).relocate g = b.relocate (g ∘ f) := by
  cases b with
  | scalar => rfl
  | object fields => simp only [relocate, map_relocate_relocate FieldDefinition.relocate_relocate]
  | enum values => simp only [relocate, map_relocate_relocate EnumValueDefinition.relocate_relocate]
  | input fields => simp only [relocate, map_relocate_relocate InputDefinition.relocate_relocate]

end TypeBody

namespace TypeDefinition

def relocate (d : TypeDefinition) : TypeDefinition :=
  ⟨d.description, d.name.relocate move, d.directives.map (Directive.relocate move),
    d.body.relocate move, move d.pos⟩

@[simp] lemma relocate_id (d : TypeDefinition) : d.relocate id = d := by
  rw [relocate, Name.relocate_id, map_relocate_id Directive.relocate_id, TypeBody.relocate_id, id]

lemma relocate_relocate (d : TypeDefinition) : (d.relocate f).relocate g = d.relocate (g ∘ f) := by
  simp only [relocate, Name.relocate_relocate, map_relocate_relocate Directive.relocate_relocate,
    TypeBody.relocate_relocate, Function.comp_apply]

end TypeDefinition

namespace Definition

/-- The definition with each place in it moved. -/
def relocate : Definition → Definition
  | operation d => operation (d.relocate move)
  | fragment d => fragment (d.relocate move)
  | type d => type (d.relocate move)

@[simp] lemma relocate_id (d : Definition) : d.relocate id = d := by
  cases d with
  | operation d => rw [relocate, d.relocate_id]
  | fragment d => rw [relocate, d.relocate_id]
  | type d => rw [relocate, d.relocate_id]

lemma relocate_relocate (d : Definition) : (d.relocate f).relocate g = d.relocate (g ∘ f) := by
  cases d with
  | operation d => simp only [relocate, d.relocate_relocate]
  | fragment d => simp only [relocate, d.relocate_relocate]
  | type d => simp only [relocate, d.relocate_relocate]

end Definition

end GraphQL
