import GraphQL.Proofs.Document.Spread

/-!
Documents without the uses of fragments.

In place of the use of a fragment there may stand an inline fragment with its condition and its body. Where
no fragment leads back to itself, this comes to an end, and only the names of fragments that do not exist are
left over.
-/

namespace GraphQL

open Relation (ReflTransGen TransGen)

mutual

/-- A selection, with others in place of the uses of fragments. -/
def Selection.replaced (r : FragmentSpread → Selection) : Selection → Selection
  | .field f none => .field f none
  | .field f (some below) => .field f (some (below.replaced r))
  | .spread s => r s
  | .inline i below => .inline i (below.replaced r)

def SelectionSet.replaced (r : FragmentSpread → Selection) : SelectionSet → SelectionSet
  | .mk selections p => .mk (replacedAll r selections) p

def replacedAll (r : FragmentSpread → Selection) : List Selection → List Selection
  | [] => []
  | s :: ss => s.replaced r :: replacedAll r ss

end

namespace Document

/-- The body of a fragment where it is used, with the fragments in it at most `steps` deep. -/
def inlined (d : Document) : Nat → FragmentSpread → Selection
  | 0, s => .spread s
  | steps + 1, s =>
    match d.fragment? s.name.text with
    | none => .spread s
    | some f =>
      .inline ⟨some f.typeCondition, s.directives, s.pos⟩ (f.selectionSet.replaced (d.inlined steps))

/-- Selections with the bodies of all fragments that they lead to. No way leads through more fragments than
there are. -/
def expand (d : Document) (ss : SelectionSet) : SelectionSet := ss.replaced (d.inlined d.fragments.length)

def expandDefinition (d : Document) : Definition → Definition
  | .operation op => .operation { op with selectionSet := d.expand op.selectionSet }
  | .fragment f => .fragment { f with selectionSet := d.expand f.selectionSet }
  | .type t => .type t

/-- The document with the bodies of fragments in place of their uses. -/
def expanded (d : Document) : Document := ⟨d.definitions.map d.expandDefinition⟩

end Document

/-! ### Replacing -/

section

variable {r r' : FragmentSpread → Selection} {u : FragmentSpread}

mutual

lemma Selection.replaced_congr : ∀ sel : Selection, (∀ s ∈ sel.spreads, r s = r' s) →
    sel.replaced r = sel.replaced r'
  | .field _ none, _ => rfl
  | .field f (some below), h => by
    rw [Selection.replaced, Selection.replaced, below.replaced_congr h]
  | .spread s, h => h s (List.mem_singleton_self s)
  | .inline i below, h => by
    rw [Selection.replaced, Selection.replaced, below.replaced_congr h]

lemma SelectionSet.replaced_congr : ∀ ss : SelectionSet, (∀ s ∈ ss.spreads, r s = r' s) →
    ss.replaced r = ss.replaced r'
  | .mk sels p, h => by
    rw [SelectionSet.replaced, SelectionSet.replaced, replacedAll_congr sels h]

lemma replacedAll_congr : ∀ sels : List Selection, (∀ s ∈ spreadsOfAll sels, r s = r' s) →
    replacedAll r sels = replacedAll r' sels
  | [], _ => rfl
  | sel :: sels, h => by
    rw [spreadsOfAll, List.forall_mem_append] at h
    rw [replacedAll, replacedAll, sel.replaced_congr h.1, replacedAll_congr sels h.2]

end

mutual

lemma Selection.spreads_replaced (r : FragmentSpread → Selection) : ∀ sel : Selection,
    (sel.replaced r).spreads = sel.spreads.flatMap fun s => (r s).spreads
  | .field _ none => rfl
  | .field _ (some below) => below.spreads_replaced r
  | .spread s => by rw [Selection.replaced, Selection.spreads, List.flatMap_singleton]
  | .inline _ below => below.spreads_replaced r

lemma SelectionSet.spreads_replaced (r : FragmentSpread → Selection) : ∀ ss : SelectionSet,
    (ss.replaced r).spreads = ss.spreads.flatMap fun s => (r s).spreads
  | .mk sels _ => spreadsOfAll_replaced r sels

lemma spreadsOfAll_replaced (r : FragmentSpread → Selection) : ∀ sels : List Selection,
    spreadsOfAll (replacedAll r sels) = (spreadsOfAll sels).flatMap fun s => (r s).spreads
  | [] => rfl
  | sel :: sels => by
    rw [replacedAll, spreadsOfAll, spreadsOfAll, List.flatMap_append, sel.spreads_replaced r,
      spreadsOfAll_replaced r sels]

end

end

namespace Document

variable {d : Document} {s u : FragmentSpread} {f : FragmentDefinition} {ss : SelectionSet} {name : String}

/-! ### Where no fragment leads back to itself -/

lemma ends_undefined (h : d.fragment? name = none) : d.Ends name := by
  refine .intro _ fun b huses => ?_
  obtain ⟨f, -, hf, -⟩ := huses
  cases h.symm.trans hf

/-- There are no more ways on than fragments, and those that are behind never come again. -/
lemma ends_of_acyclic (h : ∀ name, ¬ TransGen d.Uses name name) (name : String) : d.Ends name := by
  have hfinite : ∃ names : Finset String, ∀ n, (d.fragment? n).isSome → TransGen d.Uses name n → n ∈ names := by
    refine ⟨(d.fragments.map (·.name.text)).toFinset, fun n hn _ => ?_⟩
    obtain ⟨f, hf⟩ := Option.isSome_iff_exists.mp hn
    exact List.mem_toFinset.mpr (List.mem_map.mpr ⟨f, fragment?_mem hf, fragment?_name hf⟩)
  obtain ⟨names, hnames⟩ := hfinite
  induction names using Finset.strongInduction generalizing name with
  | H names ih =>
    refine .intro _ fun b huses => ?_
    cases hb : d.fragment? b with
    | none => exact ends_undefined hb
    | some g =>
      have hmem := hnames b (by simp [hb]) (.single huses)
      refine ih (names.erase b) (Finset.erase_ssubset hmem) b fun n hn hpath => ?_
      refine Finset.mem_erase.mpr ⟨?_, hnames n hn (.head huses hpath)⟩
      rintro rfl
      exact h _ hpath

/-- All fragments that the use of one leads to are among these. -/
def LeadsWithin (d : Document) (s : FragmentSpread) (names : Finset String) : Prop :=
  ∀ name, (d.fragment? name).isSome → ReflTransGen d.Uses s.name.text name → name ∈ names

lemma LeadsWithin.mem {names : Finset String} (h : d.LeadsWithin s names) (hf : d.fragment? s.name.text = some f) :
    s.name.text ∈ names :=
  h _ (by simp [hf]) .refl

lemma LeadsWithin.next {names : Finset String} (hacyclic : ∀ name, ¬ TransGen d.Uses name name)
    (h : d.LeadsWithin s names) (hf : d.fragment? s.name.text = some f) (hu : u ∈ f.selectionSet.spreads) :
    d.LeadsWithin u (names.erase s.name.text) := by
  have huses : d.Uses s.name.text u.name.text := ⟨f, u, hf, hu, rfl⟩
  intro name hname hpath
  refine Finset.mem_erase.mpr ⟨?_, h name hname (.head huses hpath)⟩
  rintro rfl
  exact hacyclic _ (.head' huses hpath)

lemma inlined_undefined (h : d.fragment? s.name.text = none) (steps : Nat) : d.inlined steps s = .spread s := by
  cases steps with
  | zero => rfl
  | succ steps => rw [inlined, h]

/-- More steps than there are fragments left make no difference. -/
lemma inlined_stable (hacyclic : ∀ name, ¬ TransGen d.Uses name name) {names : Finset String}
    (hnames : d.LeadsWithin s names) {steps steps' : Nat} (hsteps : names.card ≤ steps)
    (hsteps' : names.card ≤ steps') : d.inlined steps s = d.inlined steps' s := by
  induction steps generalizing s names steps' with
  | zero =>
    cases hf : d.fragment? s.name.text with
    | none => rw [inlined_undefined hf, inlined_undefined hf]
    | some f =>
      have := Finset.card_pos.mpr ⟨_, hnames.mem hf⟩
      omega
  | succ steps ih =>
    cases hf : d.fragment? s.name.text with
    | none => rw [inlined_undefined hf, inlined_undefined hf]
    | some f =>
      have hcard := Finset.card_erase_add_one (hnames.mem hf)
      cases steps' with
      | zero => omega
      | succ steps' =>
        rw [inlined, inlined, hf]
        refine congrArg _ (SelectionSet.replaced_congr _ fun u hu => ?_)
        exact ih (hnames.next hacyclic hf hu) (by omega) (by omega)

/-- The body of a fragment is expanded wherever it stands for the fragment. -/
lemma inlined_eq (hacyclic : ∀ name, ¬ TransGen d.Uses name name) (hf : d.fragment? s.name.text = some f) :
    d.inlined d.fragments.length s
      = .inline ⟨some f.typeCondition, s.directives, s.pos⟩ (d.expand f.selectionSet) := by
  have hall : d.LeadsWithin s (d.fragments.map (·.name.text)).toFinset := by
    intro name hname _
    obtain ⟨g, hg⟩ := Option.isSome_iff_exists.mp hname
    exact List.mem_toFinset.mpr (List.mem_map.mpr ⟨g, fragment?_mem hg, fragment?_name hg⟩)
  have hcard : (d.fragments.map (·.name.text)).toFinset.card ≤ d.fragments.length := by
    simpa using List.toFinset_card_le (d.fragments.map (·.name.text))
  have herase := Finset.card_erase_add_one (hall.mem hf)
  obtain ⟨steps, hsteps⟩ : ∃ steps, d.fragments.length = steps + 1 := ⟨d.fragments.length - 1, by omega⟩
  rw [expand, hsteps, inlined, hf]
  refine congrArg _ (SelectionSet.replaced_congr _ fun u hu => ?_)
  exact inlined_stable hacyclic (hall.next hacyclic hf hu) (by omega) (by omega)

/-! ### What is left over -/

/-- What is left over where a fragment was used are uses of fragments that do not exist, and the document had
them before. -/
lemma mem_spreads_inlined (hacyclic : ∀ name, ¬ TransGen d.Uses name name)
    (hu : u ∈ (d.inlined d.fragments.length s).spreads) :
    d.fragment? u.name.text = none ∧ (u = s ∨ ∃ f ∈ d.fragments, u ∈ f.selectionSet.spreads) := by
  generalize hname : s.name.text = name
  induction ends_of_acyclic hacyclic name generalizing s with
  | intro name _ ih =>
    cases hf : d.fragment? s.name.text with
    | none =>
      rw [inlined_undefined hf, Selection.spreads, List.mem_singleton] at hu
      exact ⟨hu ▸ hf, .inl hu⟩
    | some f =>
      rw [inlined_eq hacyclic hf, Selection.spreads, expand, SelectionSet.spreads_replaced, List.mem_flatMap] at hu
      obtain ⟨w, hw, hu⟩ := hu
      obtain ⟨hnone, hfrom⟩ := ih w.name.text ⟨f, w, hname ▸ hf, hw, rfl⟩ hu rfl
      refine ⟨hnone, .inr ?_⟩
      rcases hfrom with rfl | hfrom
      · exact ⟨f, fragment?_mem hf, hw⟩
      · exact hfrom

lemma mem_spreads_expand (hacyclic : ∀ name, ¬ TransGen d.Uses name name) (hu : u ∈ (d.expand ss).spreads) :
    d.fragment? u.name.text = none ∧ (u ∈ ss.spreads ∨ ∃ f ∈ d.fragments, u ∈ f.selectionSet.spreads) := by
  rw [expand, SelectionSet.spreads_replaced, List.mem_flatMap] at hu
  obtain ⟨s, hs, hu⟩ := hu
  obtain ⟨hnone, hfrom⟩ := mem_spreads_inlined hacyclic hu
  exact ⟨hnone, hfrom.imp_left fun (heq : u = s) => heq ▸ hs⟩

/-! ### The expanded document -/

lemma operations_expanded (d : Document) : d.expanded.operations
    = d.operations.map fun op => { op with selectionSet := d.expand op.selectionSet } := by
  rw [operations, operations, expanded, List.filterMap_map, List.map_filterMap]
  refine List.filterMap_congr fun e _ => ?_
  cases e <;> rfl

lemma fragments_expanded (d : Document) : d.expanded.fragments
    = d.fragments.map fun f => { f with selectionSet := d.expand f.selectionSet } := by
  rw [fragments, fragments, expanded, List.filterMap_map, List.map_filterMap]
  refine List.filterMap_congr fun e _ => ?_
  cases e <;> rfl

lemma fragment?_expanded (d : Document) (name : String) : d.expanded.fragment? name
    = (d.fragment? name).map fun f => { f with selectionSet := d.expand f.selectionSet } := by
  rw [fragment?, fragment?, fragments_expanded, List.find?_map]
  rfl

lemma selectionSets_expanded (d : Document) : d.expanded.selectionSets = d.selectionSets.map d.expand := by
  simp [selectionSets, operations_expanded, fragments_expanded, Function.comp_def]

lemma ends_expanded (hacyclic : ∀ name, ¬ TransGen d.Uses name name) (name : String) : d.expanded.Ends name := by
  refine .intro _ fun b huses => ?_
  obtain ⟨f, s, hf, hs, rfl⟩ := huses
  obtain ⟨g, -, rfl⟩ := Option.map_eq_some_iff.mp (fragment?_expanded d name ▸ hf)
  refine ends_undefined ?_
  rw [fragment?_expanded, (mem_spreads_expand hacyclic hs).1]
  rfl

/-- Where all fragments that are used exist, the expanded document uses none. -/
theorem spreads_expanded (hacyclic : ∀ name, ¬ TransGen d.Uses name name)
    (hdefined : ∀ ss ∈ d.selectionSets, ∀ s ∈ ss.spreads, (d.fragment? s.name.text).isSome) :
    ∀ ss ∈ d.expanded.selectionSets, ss.spreads = [] := by
  intro ss hss
  rw [selectionSets_expanded] at hss
  obtain ⟨inner, hinner, rfl⟩ := List.mem_map.mp hss
  refine List.eq_nil_iff_forall_not_mem.mpr fun u hu => ?_
  obtain ⟨hnone, hfrom⟩ := mem_spreads_expand hacyclic hu
  have hsome : (d.fragment? u.name.text).isSome := by
    rcases hfrom with hu | ⟨f, hf, hu⟩
    · exact hdefined inner hinner u hu
    · exact hdefined _ (List.mem_append_right _ (List.mem_map_of_mem hf)) u hu
  rw [hnone] at hsome
  cases hsome

end Document

end GraphQL
