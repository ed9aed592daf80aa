import GraphQL.Proofs.Document.Spread

/-!
The selections that an operation is made of.

They are written in its selection set, at any depth, or in one of the fragments that it leads to. No type
has a say in this: it is the document alone that tells which selections, fragments and variables belong
to an operation.
-/

namespace GraphQL

open Relation (ReflTransGen)

mutual

/-- A selection and all that are written below it. -/
def Selection.nested : Selection → List Selection
  | .field f none => [.field f none]
  | .field f (some below) => .field f (some below) :: below.nested
  | .spread s => [.spread s]
  | .inline i below => .inline i below :: below.nested

def SelectionSet.nested : SelectionSet → List Selection
  | .mk selections _ => nestedOfAll selections

def nestedOfAll : List Selection → List Selection
  | [] => []
  | s :: ss => s.nested ++ nestedOfAll ss

end

lemma nestedOfAll_eq (sels : List Selection) : nestedOfAll sels = sels.flatMap (·.nested) := by
  induction sels with
  | nil => rfl
  | cons s sels ih => rw [nestedOfAll, ih, List.flatMap_cons]

lemma SelectionSet.nested_eq (ss : SelectionSet) : ss.nested = ss.selections.flatMap (·.nested) := by
  cases ss with
  | mk sels p => exact nestedOfAll_eq sels

namespace Selection

variable {sel sel' : Selection} {inner : SelectionSet}

lemma self_mem_nested (sel : Selection) : sel ∈ sel.nested := by
  cases sel with
  | field f below => cases below <;> simp [nested]
  | spread s => simp [nested]
  | inline i below => simp [nested]

lemma nested_inner (h : sel.inner? = some inner) : sel.nested = sel :: inner.nested := by
  cases sel with
  | field f below =>
    obtain rfl : below = some inner := h
    rw [nested]
  | spread s => simp [inner?] at h
  | inline i below =>
    obtain rfl : below = inner := Option.some.inj h
    rw [nested]

lemma nested_leaf (h : sel.inner? = none) : sel.nested = [sel] := by
  cases sel with
  | field f below =>
    obtain rfl : below = none := h
    rw [nested]
  | spread s => rw [nested]
  | inline i below => simp [inner?] at h

lemma spreads_inner (h : sel.inner? = some inner) : sel.spreads = inner.spreads := by
  cases sel with
  | field f below =>
    obtain rfl : below = some inner := h
    rw [spreads]
  | spread s => simp [inner?] at h
  | inline i below =>
    obtain rfl : below = inner := Option.some.inj h
    rw [spreads]

lemma sizeOf_lt_of_inner (h : sel.inner? = some inner) {sel' : Selection}
    (hmem : sel' ∈ inner.selections) : sizeOf sel' < sizeOf sel := by
  have hinner : sizeOf inner < sizeOf sel := by
    cases sel with
    | field f below =>
      obtain rfl : below = some inner := h
      simp only [field.sizeOf_spec, Option.some.sizeOf_spec]
      omega
    | spread s => simp [inner?] at h
    | inline i below =>
      obtain rfl : below = inner := Option.some.inj h
      simp only [inline.sizeOf_spec]
      omega
  cases inner with
  | mk sels p =>
    have hsel : sizeOf sel' < sizeOf sels := List.sizeOf_lt_of_mem hmem
    simp only [SelectionSet.mk.sizeOf_spec] at hinner
    omega

/-- Induction on selections: what holds of a selection may rest on those right below it. -/
theorem induct {P : Selection → Prop}
    (step : ∀ sel, (∀ inner, sel.inner? = some inner → ∀ sel' ∈ inner.selections, P sel') → P sel)
    (sel : Selection) : P sel :=
  step sel fun _ h sel' hmem =>
    have := sizeOf_lt_of_inner h hmem
    induct step sel'
termination_by sizeOf sel

end Selection

lemma mem_spreadsOfAll {s : FragmentSpread} {sels : List Selection} :
    s ∈ spreadsOfAll sels ↔ ∃ sel ∈ sels, s ∈ sel.spreads := by
  induction sels with
  | nil => simp [spreadsOfAll]
  | cons sel sels ih => simp [spreadsOfAll, ih]

lemma SelectionSet.mem_spreads {s : FragmentSpread} {ss : SelectionSet} :
    s ∈ ss.spreads ↔ ∃ sel ∈ ss.selections, s ∈ sel.spreads := by
  cases ss with
  | mk sels p => exact mem_spreadsOfAll

lemma Selection.mem_spreads_iff (s : FragmentSpread) (sel : Selection) :
    s ∈ sel.spreads ↔ .spread s ∈ sel.nested := by
  induction sel using Selection.induct with
  | step sel ih =>
    cases hinner : sel.inner? with
    | some inner =>
      have hne : sel ≠ .spread s := by
        rintro rfl
        simp [inner?] at hinner
      rw [spreads_inner hinner, nested_inner hinner, SelectionSet.mem_spreads, List.mem_cons,
        SelectionSet.nested_eq, List.mem_flatMap]
      simp only [hne.symm, false_or]
      exact exists_congr fun sel' => and_congr_right fun hsel' => ih inner hinner sel' hsel'
    | none =>
      rw [nested_leaf hinner, List.mem_singleton]
      cases sel with
      | field f below =>
        obtain rfl : below = none := hinner
        simp [spreads]
      | spread u => simp [spreads]
      | inline i below => simp [inner?] at hinner

lemma SelectionSet.mem_spreads_iff {s : FragmentSpread} {ss : SelectionSet} :
    s ∈ ss.spreads ↔ .spread s ∈ ss.nested := by
  rw [mem_spreads, nested_eq, List.mem_flatMap]
  exact exists_congr fun sel => and_congr_right fun _ => Selection.mem_spreads_iff s sel

namespace Document

variable {d : Document} {ss : SelectionSet} {sel : Selection} {s : FragmentSpread}
  {f : FragmentDefinition} {name : String}

/-- A selection is written in a selection set, or in a fragment that the set leads to. -/
def Holds (d : Document) (ss : SelectionSet) (sel : Selection) : Prop :=
  sel ∈ ss.nested ∨
    ∃ f, d.fragment? f.name.text = some f ∧ d.LeadsTo ss f.name.text ∧ sel ∈ f.selectionSet.nested

/-- What is held by a fragment is held by all that lead to it. -/
lemma Holds.of_leads (hf : d.fragment? f.name.text = some f) (hleads : d.LeadsTo ss f.name.text)
    (h : d.Holds f.selectionSet sel) : d.Holds ss sel := by
  rcases h with h | ⟨g, hg, ⟨-, u, hu, hpath⟩, h⟩
  · exact .inr ⟨f, hf, hleads, h⟩
  · obtain ⟨-, s, hs, hto⟩ := hleads
    have huses : d.Uses f.name.text u.name.text := ⟨f, u, hf, hu, rfl⟩
    exact .inr ⟨g, hg, ⟨by simp [hg], s, hs, (hto.tail huses).trans hpath⟩, h⟩

lemma leadsTo_of_mem (hs : s ∈ ss.spreads) (hf : d.fragment? s.name.text = some f) :
    d.LeadsTo ss f.name.text := by
  rw [fragment?_name hf]
  exact ⟨by simp [hf], s, hs, .refl⟩

/-- An operation leads to those fragments that its selections name. -/
lemma leadsTo_iff : d.LeadsTo ss name ↔
    (d.fragment? name).isSome ∧ ∃ s, d.Holds ss (.spread s) ∧ s.name.text = name := by
  constructor
  · rintro ⟨hsome, s, hs, hpath⟩
    refine ⟨hsome, ?_⟩
    induction hpath with
    | refl => exact ⟨s, .inl (SelectionSet.mem_spreads_iff.mp hs), rfl⟩
    | @tail a b hpath huses _ =>
      obtain ⟨f, u, hf, hu, rfl⟩ := huses
      have hname := fragment?_name hf
      refine ⟨u, .inr ⟨f, hname ▸ hf, ⟨by simp [hname, hf], s, hs, hname ▸ hpath⟩, ?_⟩, rfl⟩
      exact SelectionSet.mem_spreads_iff.mp hu
  · rintro ⟨hsome, s, hs, rfl⟩
    refine ⟨hsome, ?_⟩
    rcases hs with hs | ⟨f, hf, ⟨-, u, hu, hpath⟩, hs⟩
    · exact ⟨s, SelectionSet.mem_spreads_iff.mpr hs, .refl⟩
    · exact ⟨u, hu, hpath.tail ⟨f, s, hf, SelectionSet.mem_spreads_iff.mpr hs, rfl⟩⟩

end Document

end GraphQL
