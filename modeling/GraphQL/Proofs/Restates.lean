import GraphQL.Proofs.Grouping

/-!
Lists that say some things again.

Something that came before says nothing new where only the first of its kind counts. So a list with
repeats has the groups of the list without them, in the same order, and the same members come first there.
-/

namespace GraphQL

/-- The second list has the members of the first one in their order, and between them members that came
before or that were seen. -/
inductive Restates {α : Type} : List α → List α → List α → Prop where
  | nil {seen : List α} : Restates seen [] []
  | next {seen as bs : List α} {a : α} (rest : Restates (a :: seen) as bs) : Restates seen (a :: as) (a :: bs)
  | again {seen as bs : List α} {a : α} (before : a ∈ seen) (rest : Restates seen as bs) :
      Restates seen as (a :: bs)

namespace Restates

variable {α β : Type} {seen seen' as as' bs bs' cs : List α} {a : α}

lemma refl (seen as : List α) : Restates seen as as := by
  induction as generalizing seen with
  | nil => exact .nil
  | cons a as ih => exact .next (ih _)

lemma mono (h : Restates seen as bs) (hseen : seen ⊆ seen') : Restates seen' as bs := by
  induction h generalizing seen' with
  | nil => exact .nil
  | next _ ih => exact .next (ih (List.cons_subset_cons _ hseen))
  | again before _ ih => exact .again (hseen before) (ih hseen)

lemma of_seen (h : ∀ b ∈ bs, b ∈ seen) : Restates seen [] bs := by
  induction bs with
  | nil => exact .nil
  | cons b bs ih =>
    obtain ⟨hb, hbs⟩ := List.forall_mem_cons.mp h
    exact .again hb (ih hbs)

lemma append (h : Restates seen as bs) (h' : Restates (as ++ seen) as' bs') :
    Restates seen (as ++ as') (bs ++ bs') := by
  induction h with
  | nil => exact h'
  | next _ ih => exact .next (ih (h'.mono List.perm_middle.symm.subset))
  | again before _ ih => exact .again before (ih h')

/-- Nothing is new. -/
lemma mem (h : Restates seen as bs) (hb : a ∈ bs) : a ∈ as ++ seen := by
  induction h with
  | nil => cases hb
  | next _ ih =>
    rcases List.mem_cons.mp hb with rfl | hb
    · exact List.mem_cons_self
    · exact List.perm_middle.subset (ih hb)
  | again before _ ih =>
    rcases List.mem_cons.mp hb with rfl | hb
    · exact List.mem_append_right _ before
    · exact ih hb

lemma trans (h : Restates seen as bs) (h' : Restates seen bs cs) : Restates seen as cs := by
  induction h' generalizing as with
  | nil => exact h
  | @next seen bs cs b _ ih =>
    cases h with
    | next rest => exact .next (ih rest)
    | again before rest =>
      have hmore := ih (rest.mono (List.subset_cons_self _ _))
      exact .again before (hmore.mono (List.cons_subset.mpr ⟨before, List.Subset.refl _⟩))
  | again before _ ih => exact .again before (ih h)

lemma flatMap (h : Restates seen as bs) (f : α → List β) :
    Restates (seen.flatMap f) (as.flatMap f) (bs.flatMap f) := by
  induction h with
  | nil => exact .nil
  | next _ ih => exact (Restates.refl _ _).append ih
  | again before _ ih => exact (of_seen fun b hb => List.mem_flatMap.mpr ⟨_, before, hb⟩).append ih

lemma filterMap (h : Restates seen as bs) (f : α → Option β) :
    Restates (seen.filterMap f) (as.filterMap f) (bs.filterMap f) := by
  simpa only [List.filterMap_eq_flatMap_toList] using h.flatMap fun a => (f a).toList

lemma head? (h : Restates [] as bs) : as.head? = bs.head? := by
  cases h with
  | nil => rfl
  | next _ => rfl
  | again before _ => cases before

lemma removeAll_eraseDups [BEq α] [LawfulBEq α] (h : Restates seen as bs) :
    (as.removeAll seen).eraseDups = (bs.removeAll seen).eraseDups := by
  induction h with
  | nil => rfl
  | @next seen as bs a _ ih =>
    have hdrop (cs : List α) : cs.removeAll (a :: seen) = (cs.removeAll seen).filter fun b => !b == a := by
      simp [List.removeAll, List.filter_filter]
    rw [hdrop, hdrop] at ih
    rw [List.cons_removeAll, List.cons_removeAll]
    split
    · rw [List.eraseDups_cons, List.eraseDups_cons, ih]
    · rename_i hseen
      have hmem : a ∈ seen := by simpa using hseen
      -- what was seen is gone already
      have hsame (cs : List α) : (cs.removeAll seen).filter (fun b => !b == a) = cs.removeAll seen := by
        refine List.filter_eq_self.mpr fun b hb => ?_
        have hb := List.mem_filter.mp hb
        simp only [List.elem_eq_mem, Bool.not_eq_true', decide_eq_false_iff_not] at hb
        grind
      rwa [hsame, hsame] at ih
  | again before _ ih => simpa [List.cons_removeAll, before] using ih

/-- Where only the first of its kind is kept, nothing is left of the repeats. -/
lemma eraseDups_eq [BEq α] [LawfulBEq α] (h : Restates [] as bs) : as.eraseDups = bs.eraseDups := by
  simpa using h.removeAll_eraseDups

end Restates

/-! ### One list behind the other -/

lemma append_subset_of_more {α : Type} (as bs seen : List α) : as ++ seen ⊆ as ++ bs ++ seen := by
  rw [List.append_assoc]
  exact List.append_subset.mpr ⟨List.subset_append_left _ _,
    List.Subset.trans (List.subset_append_right _ _) (List.subset_append_right _ _)⟩

lemma append_subset_of_behind {α : Type} (as bs seen : List α) : bs ++ (as ++ seen) ⊆ as ++ bs ++ seen := by
  rw [List.append_assoc]
  exact (List.perm_append_comm_assoc bs as seen).subset

/-! ### Groups -/

section

variable {α β : Type} {key : α → String} {seen as bs : List α}

lemma Restates.membersOf (h : Restates seen as bs) (k : String) :
    Restates (membersOf key k seen) (membersOf key k as) (membersOf key k bs) := by
  simpa only [GraphQL.membersOf, List.filterMap_eq_filter] using h.filterMap (Option.guard fun a => key a == k)

/-- Keys with the key of one more member. -/
def addKey (key : α → String) (keys : List String) (a : α) : List String :=
  if key a ∈ keys then keys else keys ++ [key a]

lemma keys_groupByKey (as : List α) : (groupByKey key as).map (·.1) = as.foldl (addKey key) [] := by
  induction as using List.reverseRecOn with
  | nil => rfl
  | append_singleton as a ih =>
    rw [groupByKey_append, keys_addToGroup, ih, List.foldl_append]
    rfl

lemma Restates.foldl_addKey (h : Restates seen as bs) {keys : List String} (hseen : ∀ a ∈ seen, key a ∈ keys) :
    as.foldl (addKey key) keys = bs.foldl (addKey key) keys := by
  induction h generalizing keys with
  | nil => rfl
  | @next seen as bs a _ ih =>
    refine ih (List.forall_mem_cons.mpr ⟨?_, fun b hb => ?_⟩)
    · unfold addKey
      split
      · assumption
      · exact List.mem_append_right _ List.mem_cons_self
    · unfold addKey
      split
      · exact hseen b hb
      · exact List.mem_append_left _ (hseen b hb)
  | again before _ ih => rw [List.foldl_cons, addKey, if_pos (hseen _ before), ih hseen]

lemma groupByKey_eq (as : List α) : groupByKey key as
    = ((groupByKey key as).map (·.1)).map fun k => (k, GraphQL.membersOf key k as) := by
  conv_lhs => rw [← List.map_id (groupByKey key as)]
  rw [List.map_map]
  refine List.map_congr_left fun ⟨k, g⟩ hg => ?_
  exact congrArg (k, ·) (mem_groupByKey.mp hg).1

/-- The groups of a list with repeats stand beside those of the list without them. -/
lemma Restates.groupByKey {f : α → β} {key' : β → String} {bs : List β} (h : Restates [] (as.map f) bs)
    (hkey : ∀ a, key' (f a) = key a) :
    List.Forall₂ (fun g g' => g.1 = g'.1 ∧ Restates [] (g.2.map f) g'.2) (groupByKey key as) (groupByKey key' bs) := by
  have hkeys : (GraphQL.groupByKey key as).map (·.1) = (GraphQL.groupByKey key' bs).map (·.1) := by
    have hadd : (fun keys a => addKey key' keys (f a)) = addKey key := by
      funext keys a
      rw [addKey, addKey, hkey]
    rw [keys_groupByKey, keys_groupByKey, ← h.foldl_addKey (by simp), List.foldl_map, hadd]
  rw [groupByKey_eq as, groupByKey_eq bs, hkeys, List.forall₂_map_left_iff, List.forall₂_map_right_iff,
    List.forall₂_same]
  intro k _
  have hmembers : (GraphQL.membersOf key k as).map f = GraphQL.membersOf key' k (as.map f) := by
    simp only [GraphQL.membersOf, List.filter_map, Function.comp_def, hkey]
  exact ⟨rfl, hmembers ▸ h.membersOf k⟩

end

end GraphQL
