import GraphQL.Document.Spread
import GraphQL.Proofs.Document.Unplaced
import GraphQL.Proofs.Lists

/-!
Selections in another order.

Selections are rearranged if those of one list stand in another list in some order, and likewise all
selection sets below them. Where they are written does not count either. Rearranging a document leaves
alone what its walks count: its fragments, and how many fields stand above each other.
-/

namespace GraphQL

mutual

/-- Two selections that say the same, but for their places and for the order of what stands below. -/
inductive Selection.Alike : Selection → Selection → Prop where
  | field {f g : Field} (same : f.unplaced = g.unplaced) : Selection.Alike (.field f none) (.field g none)
  | object {f g : Field} {ss ss' : SelectionSet} (same : f.unplaced = g.unplaced)
      (below : Rearranged ss.selections ss'.selections) :
      Selection.Alike (.field f (some ss)) (.field g (some ss'))
  | spread {s s' : FragmentSpread} (same : s.unplaced = s'.unplaced) : Selection.Alike (.spread s) (.spread s')
  | inline {i i' : InlineFragment} {ss ss' : SelectionSet} (same : i.unplaced = i'.unplaced)
      (below : Rearranged ss.selections ss'.selections) : Selection.Alike (.inline i ss) (.inline i' ss')

/-- Each selection of the first list is like one of the second, and each of the second is taken
once. -/
inductive Rearranged : List Selection → List Selection → Prop where
  | nil : Rearranged [] []
  | cons {sel sel' : Selection} {rest before after : List Selection} (first : Selection.Alike sel sel')
      (others : Rearranged rest (before ++ after)) : Rearranged (sel :: rest) (before ++ sel' :: after)

end

section

variable {sel sel' : Selection} {sels sels' rest before after : List Selection}

/-! ### An equivalence -/

lemma Rearranged.head (first : Selection.Alike sel sel') (others : Rearranged rest after) :
    Rearranged (sel :: rest) (sel' :: after) :=
  show Rearranged (sel :: rest) ([] ++ sel' :: after) from .cons first others

mutual

lemma Selection.Alike.refl : ∀ sel : Selection, Selection.Alike sel sel
  | .field _ none => .field rfl
  | .field _ (some ss) => .object rfl (.refl_set ss)
  | .spread _ => .spread rfl
  | .inline _ ss => .inline rfl (.refl_set ss)

lemma Rearranged.refl_set : ∀ ss : SelectionSet, Rearranged ss.selections ss.selections
  | .mk sels _ => .refl sels

lemma Rearranged.refl : ∀ sels : List Selection, Rearranged sels sels
  | [] => .nil
  | sel :: sels => .head (.refl sel) (.refl sels)

end

/-- Selections in another order are rearranged. -/
lemma Rearranged.of_perm (h : sels.Perm sels') : Rearranged sels sels' := by
  induction sels generalizing sels' with
  | nil => exact List.nil_perm.mp h ▸ .nil
  | cons sel sels ih =>
    obtain ⟨before, after, rfl⟩ := List.append_of_mem (h.subset List.mem_cons_self)
    exact .cons (.refl sel) (ih (List.Perm.cons_inv (h.trans List.perm_middle)))

/-- What is put in front of the second list may stand anywhere in the first one. -/
lemma Rearranged.insert (h : Rearranged (before ++ after) rest) (hsel : Selection.Alike sel sel') :
    Rearranged (before ++ sel :: after) (sel' :: rest) := by
  induction before generalizing rest with
  | nil => exact .head hsel h
  | cons x before ih =>
    generalize hxs : x :: before ++ after = xs at h
    cases h with
    | nil => simp at hxs
    | @cons y y' _ front back first others =>
      obtain ⟨rfl, rfl⟩ := List.cons.inj hxs
      show Rearranged _ ((sel' :: front) ++ y' :: back)
      exact .cons first (ih others)

mutual

lemma Selection.Alike.symm {sel sel' : Selection} : Selection.Alike sel sel' → Selection.Alike sel' sel
  | .field same => .field same.symm
  | .object same below => .object same.symm below.symm
  | .spread same => .spread same.symm
  | .inline same below => .inline same.symm below.symm

lemma Rearranged.symm {sels sels' : List Selection} : Rearranged sels sels' → Rearranged sels' sels
  | .nil => .nil
  | .cons first others => others.symm.insert first.symm

end

lemma Selection.Alike.directives (h : Selection.Alike sel sel') :
    sel.directives.map Directive.unplaced = sel'.directives.map Directive.unplaced := by
  cases h with
  | field same | object same _ => exact congrArg Field.directives same
  | spread same => exact congrArg FragmentSpread.directives same
  | inline same _ => exact congrArg InlineFragment.directives same

lemma Selection.Alike.field_same {f g : Field} {below below' : Option SelectionSet}
    (h : Selection.Alike (.field f below) (.field g below')) : f.unplaced = g.unplaced := by
  cases h with
  | field same | object same _ => exact same

lemma Rearranged.exists_alike (h : Rearranged sels sels') (hsel : sel ∈ sels) :
    ∃ sel' ∈ sels', Selection.Alike sel sel' := by
  induction sels generalizing sels' with
  | nil => simp at hsel
  | cons x xs ih =>
    cases h with
    | cons first others =>
      rcases List.mem_cons.mp hsel with rfl | hsel
      · exact ⟨_, by simp, first⟩
      · obtain ⟨y, hy, halike⟩ := ih others hsel
        refine ⟨y, ?_, halike⟩
        simp only [List.mem_append, List.mem_cons] at hy ⊢
        exact hy.imp_right .inr

/-! ### Levels -/

lemma SelectionSet.levels_eq (ss : SelectionSet) : ss.levels = levelsOfAll ss.selections := by
  cases ss
  rfl

lemma levelsOfAll_append (xs ys : List Selection) :
    levelsOfAll (xs ++ ys) = max (levelsOfAll xs) (levelsOfAll ys) := by
  induction xs with
  | nil => simp [levelsOfAll]
  | cons x xs ih => rw [List.cons_append, levelsOfAll, levelsOfAll, ih, max_assoc]

mutual

lemma Selection.Alike.levels {sel sel' : Selection} : Selection.Alike sel sel' → sel.levels = sel'.levels
  | .field _ => rfl
  | .object _ below => by
    rw [Selection.levels, Selection.levels, SelectionSet.levels_eq, SelectionSet.levels_eq,
      below.levels]
  | .spread _ => rfl
  | .inline _ below => by
    rw [Selection.levels, Selection.levels, SelectionSet.levels_eq, SelectionSet.levels_eq,
      below.levels]

lemma Rearranged.levels {sels sels' : List Selection} :
    Rearranged sels sels' → levelsOfAll sels = levelsOfAll sels'
  | .nil => rfl
  | .cons first others => by
    rw [levelsOfAll, first.levels, others.levels, levelsOfAll_append, levelsOfAll_append, levelsOfAll,
      max_left_comm]

end

end

/-! ### Documents -/

namespace SelectionSet

/-- A selection set with its selections, and those below them, in another order. -/
def Rearranged (ss ss' : SelectionSet) : Prop := GraphQL.Rearranged ss.selections ss'.selections

lemma Rearranged.levels_eq {ss ss' : SelectionSet} (h : ss.Rearranged ss') : ss.levels = ss'.levels := by
  rw [SelectionSet.levels_eq, SelectionSet.levels_eq, GraphQL.Rearranged.levels h]

end SelectionSet

/-- Operations of one type, with rearranged selections. -/
structure OperationDefinition.Rearranged (op op' : OperationDefinition) : Prop where
  type : op.type = op'.type
  selections : op.selectionSet.Rearranged op'.selectionSet

/-- Fragments of one name and on one type, with rearranged selections. -/
structure FragmentDefinition.Rearranged (f f' : FragmentDefinition) : Prop where
  name : f.name.text = f'.name.text
  typeCondition : f.typeCondition.text = f'.typeCondition.text
  selections : f.selectionSet.Rearranged f'.selectionSet

/-- Definitions that only differ in what does not count when fields are selected. -/
inductive Definition.Rearranged : Definition → Definition → Prop where
  | operation {op op' : OperationDefinition} (h : op.Rearranged op') :
      Definition.Rearranged (.operation op) (.operation op')
  | fragment {f f' : FragmentDefinition} (h : f.Rearranged f') :
      Definition.Rearranged (.fragment f) (.fragment f')
  | type (t t' : TypeDefinition) : Definition.Rearranged (.type t) (.type t')

namespace Document

/-- A document in which the selections of any operations and fragments are in another order. -/
def Rearranged (d d' : Document) : Prop :=
  List.Forall₂ Definition.Rearranged d.definitions d'.definitions

namespace Rearranged

variable {d d' : Document}

lemma operations (h : d.Rearranged d') :
    List.Forall₂ OperationDefinition.Rearranged d.operations d'.operations := by
  refine List.rel_filterMap (fun e e' he => ?_) h
  cases he with
  | operation h => exact .some h
  | fragment _ => exact .none
  | type _ _ => exact .none

lemma fragments (h : d.Rearranged d') :
    List.Forall₂ FragmentDefinition.Rearranged d.fragments d'.fragments := by
  refine List.rel_filterMap (fun e e' he => ?_) h
  cases he with
  | operation _ => exact .none
  | fragment h => exact .some h
  | type _ _ => exact .none

lemma fragment? (h : d.Rearranged d') {name : String} {f : FragmentDefinition}
    (hf : d.fragment? name = some f) : ∃ f', d'.fragment? name = some f' ∧ f.Rearranged f' := by
  have hfind : Option.Rel FragmentDefinition.Rearranged (d.fragment? name) (d'.fragment? name) :=
    forall₂_find? h.fragments fun f f' hff' => by rw [hff'.name]
  rw [hf] at hfind
  generalize d'.fragment? name = o at hfind
  cases hfind with
  | some h => exact ⟨_, rfl, h⟩

lemma symm (h : d.Rearranged d') : d'.Rearranged d := by
  refine h.flip.imp fun e' e he => ?_
  cases he with
  | operation h => exact .operation ⟨h.type.symm, GraphQL.Rearranged.symm h.selections⟩
  | fragment h =>
    exact .fragment ⟨h.name.symm, h.typeCondition.symm, GraphQL.Rearranged.symm h.selections⟩
  | type t t' => exact .type t' t

lemma levels_eq (h : d.Rearranged d') : d.levels = d'.levels := by
  have hops : d.operations.map (·.selectionSet.levels) = d'.operations.map (·.selectionSet.levels) :=
    forall₂_map_eq h.operations fun op op' hop => hop.selections.levels_eq
  have hfragments :
      d.fragments.map (·.selectionSet.levels) = d'.fragments.map (·.selectionSet.levels) :=
    forall₂_map_eq h.fragments fun f f' hf => hf.selections.levels_eq
  unfold levels selectionSets
  rw [List.map_append, List.map_append, List.map_map, List.map_map, List.map_map, List.map_map]
  exact congrArg (List.foldl max 0) (congrArg₂ (· ++ ·) hops hfragments)

lemma maxLevels_eq (h : d.Rearranged d') : d.maxLevels = d'.maxLevels := by
  rw [maxLevels, maxLevels, h.levels_eq, h.fragments.length_eq]

end Rearranged

end Document

/-! ### The other way round -/

/-- The selections of a set, the last one first. -/
def SelectionSet.reversed : SelectionSet → SelectionSet
  | .mk selections p => .mk selections.reverse p

lemma SelectionSet.rearranged_reversed (ss : SelectionSet) : ss.Rearranged ss.reversed := by
  cases ss with
  | mk sels p => exact .of_perm sels.reverse_perm.symm

def OperationDefinition.reversed (op : OperationDefinition) : OperationDefinition :=
  { op with selectionSet := op.selectionSet.reversed }

def Definition.reversed : Definition → Definition
  | .operation op => .operation op.reversed
  | .fragment f => .fragment { f with selectionSet := f.selectionSet.reversed }
  | .type t => .type t

namespace Document

/-- A document with the selections of its operations and fragments the other way round. -/
def reversed (d : Document) : Document := ⟨d.definitions.map Definition.reversed⟩

lemma rearranged_reversed (d : Document) : d.Rearranged d.reversed := by
  rw [Rearranged, reversed, List.forall₂_map_right_iff, List.forall₂_same]
  intro e _
  cases e with
  | operation op => exact .operation ⟨rfl, op.selectionSet.rearranged_reversed⟩
  | fragment f => exact .fragment ⟨rfl, rfl, f.selectionSet.rearranged_reversed⟩
  | type t => exact .type t t

lemma operations_reversed (d : Document) :
    d.reversed.operations = d.operations.map OperationDefinition.reversed := by
  unfold operations reversed
  rw [List.filterMap_map, List.map_filterMap]
  refine List.filterMap_congr fun e _ => ?_
  cases e <;> rfl

lemma zip_reversed (d : Document) {op : OperationDefinition} (h : op ∈ d.operations) :
    (op, op.reversed) ∈ d.operations.zip d.reversed.operations := by
  rw [operations_reversed, ← List.map_prod_left_eq_zip]
  exact List.mem_map_of_mem h

end Document

end GraphQL
