import Mathlib.Tactic
import GraphQL.Grouping

/-!
What stands in the groups of a list.

A group holds all members of its key, in their order, and no key has two groups.
-/

namespace GraphQL

variable {α : Type} {key : α → String} {as : List α} {k : String} {g : List α}
  {groups : List (String × List α)}

/-- The members of a list that have a key. -/
def membersOf (key : α → String) (k : String) (as : List α) : List α :=
  as.filter fun a => key a == k

lemma mem_membersOf {a : α} : a ∈ membersOf key k as ↔ a ∈ as ∧ key a = k := by
  simp [membersOf]

lemma lookup_cons_of_ne {β : Type} {m : String} {b : β} {l : List (String × β)} (h : k ≠ m) :
    ((m, b) :: l).lookup k = l.lookup k := by
  rw [List.lookup_cons, beq_false_of_ne h]

lemma lookup_addToGroup (l : String) (a : α) :
    (addToGroup l a groups).lookup k
      = if l = k then some ((groups.lookup k).getD [] ++ [a]) else groups.lookup k := by
  induction groups with
  | nil =>
    by_cases h : k = l
    · simp [addToGroup, h]
    · simp [addToGroup, lookup_cons_of_ne h, Ne.symm h]
  | cons p groups ih =>
    obtain ⟨m, bs⟩ := p
    by_cases hm : m = l
    · subst hm
      by_cases hk : k = m
      · simp [addToGroup, hk]
      · simp [addToGroup, lookup_cons_of_ne hk, Ne.symm hk]
    · by_cases hk : k = m
      · subst hk
        simp [addToGroup, hm, Ne.symm hm]
      · simp [addToGroup, hm, lookup_cons_of_ne hk, ih]

lemma keys_addToGroup (l : String) (a : α) :
    (addToGroup l a groups).map (·.1)
      = if l ∈ groups.map (·.1) then groups.map (·.1) else groups.map (·.1) ++ [l] := by
  induction groups with
  | nil => rfl
  | cons p groups ih =>
    obtain ⟨m, bs⟩ := p
    by_cases hm : m = l
    · simp [addToGroup, hm]
    · simp only [addToGroup, beq_iff_eq, hm, if_false, List.map_cons, ih, List.mem_cons,
        Ne.symm hm, false_or]
      split <;> simp

lemma groupByKey_append (as : List α) (a : α) :
    groupByKey key (as ++ [a]) = addToGroup (key a) a (groupByKey key as) := by
  simp [groupByKey]

lemma keys_groupByKey_nodup (as : List α) : ((groupByKey key as).map (·.1)).Nodup := by
  induction as using List.reverseRecOn with
  | nil => exact List.nodup_nil
  | append_singleton as a ih =>
    rw [groupByKey_append, keys_addToGroup]
    split
    · exact ih
    · rename_i hnot
      rw [List.nodup_append]
      refine ⟨ih, List.nodup_singleton _, fun k hk l hl hkl => hnot ?_⟩
      rw [List.mem_singleton] at hl
      rwa [← hl, ← hkl]

/-- The group of a key, which is there if it has members. -/
theorem lookup_groupByKey (as : List α) (k : String) :
    (groupByKey key as).lookup k
      = if membersOf key k as = [] then none else some (membersOf key k as) := by
  induction as using List.reverseRecOn with
  | nil => simp [groupByKey, membersOf]
  | append_singleton as a ih =>
    rw [groupByKey_append, lookup_addToGroup, ih]
    by_cases ha : key a = k
    · have hmore : membersOf key k (as ++ [a]) = membersOf key k as ++ [a] := by
        simp [membersOf, ha]
      rw [if_pos ha, hmore]
      by_cases h : membersOf key k as = [] <;> simp [h]
    · have hsame : membersOf key k (as ++ [a]) = membersOf key k as := by
        simp [membersOf, ha]
      rw [if_neg ha, hsame]

lemma mem_iff_lookup {β : Type} {l : List (String × β)} (h : (l.map (·.1)).Nodup) {b : β} :
    (k, b) ∈ l ↔ l.lookup k = some b := by
  induction l with
  | nil => simp
  | cons p l ih =>
    obtain ⟨m, c⟩ := p
    rw [List.map_cons, List.nodup_cons] at h
    by_cases hk : k = m
    · subst hk
      have hnot : (k, b) ∉ l := fun hmem => h.1 (List.mem_map.mpr ⟨_, hmem, rfl⟩)
      simp [hnot, eq_comm]
    · simp [lookup_cons_of_ne hk, hk, ih h.2]

/-- Where keys are told apart, their order does not count. -/
lemma lookup_perm {β : Type} {l l' : List (String × β)} (h : (l.map (·.1)).Nodup) (hl : l.Perm l')
    (k : String) : l.lookup k = l'.lookup k := by
  ext b
  rw [← mem_iff_lookup h, ← mem_iff_lookup ((hl.map _).nodup_iff.mp h), hl.mem_iff]

/-- The groups are the members of all keys that have members. -/
theorem mem_groupByKey : (k, g) ∈ groupByKey key as ↔ g = membersOf key k as ∧ g ≠ [] := by
  rw [mem_iff_lookup (keys_groupByKey_nodup as), lookup_groupByKey]
  split
  · rename_i h
    constructor
    · simp
    · rintro ⟨rfl, hne⟩
      exact absurd h hne
  · rename_i h
    rw [Option.some_inj, eq_comm]
    exact ⟨fun hg => ⟨hg, hg ▸ h⟩, fun hg => hg.1⟩

end GraphQL
