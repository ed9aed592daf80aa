import GraphQL.Document.Spread
import GraphQL.Proofs.Validation.Structure

/-!
How deep the fields of a document nest.

Behind a use of a fragment only those fragments can follow that its body leads to, and where all ways
end the fragment itself is not among them. So the fragments that can still follow become fewer, and
with them the levels that they can add.
-/

namespace GraphQL

open Relation (ReflTransGen TransGen)

/-! ### The parts of a selection set -/

lemma spreads_of_mem {sel : Selection} {sels : List Selection} (h : sel ∈ sels) :
    ∀ s ∈ sel.spreads, s ∈ spreadsOfAll sels := by
  induction sels with
  | nil => simp at h
  | cons x xs ih =>
    intro s hs
    rw [spreadsOfAll, List.mem_append]
    rcases List.mem_cons.mp h with rfl | h
    · exact .inl hs
    · exact .inr (ih h s hs)

lemma levels_le_of_mem {sel : Selection} {sels : List Selection} (h : sel ∈ sels) :
    sel.levels ≤ levelsOfAll sels := by
  induction sels with
  | nil => simp at h
  | cons x xs ih =>
    rw [levelsOfAll]
    rcases List.mem_cons.mp h with rfl | h
    · exact le_max_left _ _
    · exact (ih h).trans (le_max_right _ _)

namespace SelectionSet

variable {ss : SelectionSet} {sel : Selection}

lemma spreads_subset (h : sel ∈ ss.selections) : ∀ s ∈ sel.spreads, s ∈ ss.spreads := by
  cases ss with
  | mk sels p => exact spreads_of_mem h

lemma levels_le (h : sel ∈ ss.selections) : sel.levels ≤ ss.levels := by
  cases ss with
  | mk sels p => exact levels_le_of_mem h

end SelectionSet

namespace Document

variable {d : Document} {k : Nat} {ss below : SelectionSet} {f : Field}

lemma le_foldl_max (as : List Nat) (m : Nat) : m ≤ as.foldl max m ∧ ∀ a ∈ as, a ≤ as.foldl max m := by
  induction as generalizing m with
  | nil => simp
  | cons a as ih =>
    obtain ⟨hm, hall⟩ := ih (max m a)
    rw [List.foldl_cons]
    refine ⟨(le_max_left m a).trans hm, ?_⟩
    exact List.forall_mem_cons.mpr ⟨(le_max_right m a).trans hm, hall⟩

lemma levels_le_levels (h : ss ∈ d.selectionSets) : ss.levels ≤ d.levels :=
  (le_foldl_max _ 0).2 _ (List.mem_map_of_mem h)

/-- The fragments that a selection set leads to. -/
def LeadsTo (d : Document) (ss : SelectionSet) (name : String) : Prop :=
  (d.fragment? name).isSome ∧ ∃ s ∈ ss.spreads, ReflTransGen d.Uses s.name.text name

/-- The fields of a selection set nest at most `k` deep, with all fragments looked through: each
fragment that can follow adds its levels at most. -/
def Nests (d : Document) (k : Nat) (ss : SelectionSet) : Prop :=
  ∃ names : Finset String, (∀ name, d.LeadsTo ss name → name ∈ names) ∧
    ss.levels + names.card * d.levels ≤ k

namespace Nests

/-- What leads to no more fragments and has no more levels nests no deeper. -/
lemma of_part {inner : SelectionSet} (h : d.Nests k ss) (hspreads : ∀ s ∈ inner.spreads, s ∈ ss.spreads)
    {n : Nat} (hlevels : inner.levels + n ≤ ss.levels) : ∃ m, k = m + n ∧ d.Nests m inner := by
  obtain ⟨names, hnames, hk⟩ := h
  refine ⟨k - n, by omega, names, fun name hname => ?_, by omega⟩
  obtain ⟨hsome, s, hs, hpath⟩ := hname
  exact hnames name ⟨hsome, s, hspreads s hs, hpath⟩

lemma field (h : d.Nests k ss) (hf : .field f (some below) ∈ ss.selections) :
    ∃ m, k = m + 1 ∧ d.Nests m below :=
  h.of_part (SelectionSet.spreads_subset hf) (SelectionSet.levels_le hf)

lemma leaf (h : d.Nests k ss) (hf : .field f none ∈ ss.selections) : ∃ m, k = m + 1 := by
  obtain ⟨names, -, hk⟩ := h
  have hlevels : 1 ≤ ss.levels := SelectionSet.levels_le hf
  exact ⟨k - 1, by omega⟩

lemma inline {i : InlineFragment} (h : d.Nests k ss) (hi : .inline i below ∈ ss.selections) :
    d.Nests k below := by
  obtain ⟨m, rfl, hm⟩ := h.of_part (n := 0) (SelectionSet.spreads_subset hi) (SelectionSet.levels_le hi)
  exact hm

lemma spread {s : FragmentSpread} {g : FragmentDefinition}
    (hends : ∀ f ∈ d.fragments, d.Ends f.name.text) (h : d.Nests k ss)
    (hs : .spread s ∈ ss.selections) (hg : d.fragment? s.name.text = some g) :
    d.Nests k g.selectionSet := by
  obtain ⟨names, hnames, hk⟩ := h
  have hsmem : s ∈ ss.spreads := SelectionSet.spreads_subset hs s (List.mem_singleton_self s)
  have hmem : s.name.text ∈ names := hnames _ ⟨by simp [hg], s, hsmem, .refl⟩
  have huses {u : FragmentSpread} (hu : u ∈ g.selectionSet.spreads) :
      d.Uses s.name.text u.name.text := ⟨g, u, hg, hu, rfl⟩
  refine ⟨names.erase s.name.text, fun name hname => ?_, ?_⟩
  · obtain ⟨hsome, u, hu, hpath⟩ := hname
    have hcycle : TransGen d.Uses s.name.text name := TransGen.head' (huses hu) hpath
    refine Finset.mem_erase.mpr ⟨?_, hnames name ⟨hsome, s, hsmem, hcycle.to_reflTransGen⟩⟩
    rintro rfl
    have hend := hends g (fragment?_mem hg)
    rw [fragment?_name hg] at hend
    exact hend.not_transGen hcycle
  · have hlevels : g.selectionSet.levels ≤ d.levels := by
      refine levels_le_levels (List.mem_append_right _ ?_)
      exact List.mem_map.mpr ⟨g, fragment?_mem hg, rfl⟩
    have hcard := Finset.card_erase_add_one hmem
    have hmul : names.card * d.levels
        = (names.erase s.name.text).card * d.levels + d.levels := by
      rw [← hcard, Nat.add_mul, Nat.one_mul]
    omega

end Nests

/-- The fields of an operation nest as deep as all walks look at most. -/
theorem nests_operation {op : OperationDefinition} (hop : op ∈ d.operations) :
    d.Nests d.maxLevels op.selectionSet := by
  refine ⟨(d.fragments.map (·.name.text)).toFinset, fun name hname => ?_, ?_⟩
  · obtain ⟨f, hf⟩ := Option.isSome_iff_exists.mp hname.1
    exact List.mem_toFinset.mpr (List.mem_map.mpr ⟨f, fragment?_mem hf, fragment?_name hf⟩)
  · have hlevels : op.selectionSet.levels ≤ d.levels :=
      levels_le_levels (List.mem_append_left _ (List.mem_map.mpr ⟨op, hop, rfl⟩))
    have hcard : (d.fragments.map (·.name.text)).toFinset.card ≤ d.fragments.length := by
      simpa using List.toFinset_card_le (d.fragments.map (·.name.text))
    have hmul := Nat.mul_le_mul_right d.levels hcard
    rw [maxLevels, Nat.add_mul, Nat.one_mul]
    omega

end Document

end GraphQL
