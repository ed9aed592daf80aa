import GraphQL.Proofs.Validation.Merge

/-!
The check for conflicts comes to an end.

Comparing two fields leads to comparisons of the fields below them, and checking a selection set to
checks of those below its fields. Where all ways from all fragments end, what comes next nests less
deep, so that there are no endless ways down, and more steps make no difference.
-/

namespace GraphQL

namespace MergeContext

open Relation (ReflTransGen)

variable {c : MergeContext} {parent t : TypeId} {ss below : SelectionSet} {a b x y : SelectedOn}
  {exclusive : Bool} {key : String} {k steps steps' : Nat}

/-- The comparison of two fields needs that of two fields below them. -/
inductive ComparesNext (c : MergeContext) :
    Bool × SelectedOn × SelectedOn → Bool × SelectedOn × SelectedOn → Prop where
  | mk {exclusive : Bool} {a b x y : SelectedOn} {key : String}
      (own : c.ownConflict (exclusive || areExclusive a b) a b = none)
      (pair : (key, x, y) ∈ pairsAcross (c.groupsBelow a) (c.groupsBelow b)) :
      ComparesNext c (exclusive || areExclusive a b, x, y) (exclusive, a, b)

/-- The check of a selection set needs that of the selections below one of its fields. -/
inductive ChecksNext (c : MergeContext) : TypeId × SelectionSet → TypeId × SelectionSet → Prop where
  | mk {parent t : TypeId} {ss below : SelectionSet} {a : SelectedOn}
      (field : a ∈ c.fieldsOf parent ss) (under : c.below? a = some (t, below)) :
      ChecksNext c (t, below) (parent, ss)

/-- Fields below a written field are written, and nest less deep. -/
lemma within_below (hends : ∀ f ∈ c.document.fragments, c.document.Ends f.name.text)
    (ha : c.Within (k + 1) a) (hb : c.Written b)
    (h : (key, x, y) ∈ pairsAcross (c.groupsBelow a) (c.groupsBelow b)) :
    c.Within k x ∧ c.Written y := by
  obtain ⟨⟨t, below, hbelow, hx⟩, u, under, hunder, hy⟩ := mem_groupsBelow h
  obtain ⟨m, hm, hnests⟩ := ha.nests
  obtain rfl := Nat.succ.inj hm
  have hbelow := below_of_below? hbelow
  have hset := ha.written.below below hbelow
  exact ⟨within_of_mem hends hset (hnests below hbelow) hx,
    written_of_mem (hb.below under (below_of_below? hunder)) hy⟩

/-- Selections below a field nest less deep. -/
lemma nests_below (hends : ∀ f ∈ c.document.fragments, c.document.Ends f.name.text)
    (hss : c.document.HasSet ss) (hk : c.document.Nests k ss)
    (ha : a ∈ c.fieldsOf parent ss) (hbelow : c.below? a = some (t, below)) :
    ∃ m, k = m + 1 ∧ c.document.HasSet below ∧ c.document.Nests m below := by
  obtain ⟨hwritten, m, rfl, hnests⟩ := within_of_mem hends hss hk ha
  have hbelow := below_of_below? hbelow
  exact ⟨m, rfl, hwritten.below below hbelow, hnests below hbelow⟩

/-! ### No endless ways -/

lemma compares_acc (hends : ∀ f ∈ c.document.fragments, c.document.Ends f.name.text)
    (ha : c.Within k a) (hb : c.Written b) : Acc c.ComparesNext (exclusive, a, b) := by
  induction k generalizing exclusive a b with
  | zero =>
    obtain ⟨m, hm, -⟩ := ha.nests
    omega
  | succ k ih =>
    refine .intro _ fun next hnext => ?_
    cases hnext with
    | mk own pair =>
      obtain ⟨hx, hy⟩ := within_below hends ha hb pair
      exact ih hx hy

lemma checks_acc (hends : ∀ f ∈ c.document.fragments, c.document.Ends f.name.text)
    (hss : c.document.HasSet ss) (hk : c.document.Nests k ss) : Acc c.ChecksNext (parent, ss) := by
  induction k using Nat.strong_induction_on generalizing parent ss with
  | _ k ih =>
    refine .intro _ fun next hnext => ?_
    cases hnext with
    | mk field under =>
      obtain ⟨m, rfl, hset, hnests⟩ := nests_below hends hss hk field under
      exact ih m (Nat.lt_succ_self m) hset hnests

/-! ### Enough steps -/

lemma mapM_congr {m : Type → Type} [Monad m] [LawfulMonad m] {α β : Type} {f g : α → m β} {as : List α}
    (h : ∀ a ∈ as, f a = g a) : as.mapM f = as.mapM g := by
  induction as with
  | nil => rfl
  | cons a as ih =>
    obtain ⟨ha, has⟩ := List.forall_mem_cons.mp h
    rw [List.mapM_cons, List.mapM_cons, ha, ih has]

lemma compareWith_congr {m : Type → Type} [Monad m] [LawfulMonad m]
    {compare compare' : Bool → SelectedOn → SelectedOn → m (Option MergeConflict)}
    (h : ∀ e key x y, (key, x, y) ∈ pairsAcross (c.groupsBelow a) (c.groupsBelow b) →
      compare e x y = compare' e x y) :
    c.compareWith compare exclusive a b = c.compareWith compare' exclusive a b := by
  unfold compareWith
  dsimp only
  split
  · rfl
  · rw [mapM_congr]
    intro p hp
    rw [h _ p.1 p.2.1 p.2.2 hp]

/-- Comparing further down than fields nest makes no difference. -/
lemma compareOnce_stable (hends : ∀ f ∈ c.document.fragments, c.document.Ends f.name.text)
    (ha : c.Within k a) (hb : c.Written b) (hk : k ≤ steps) (hk' : k ≤ steps') :
    c.compareOnce steps exclusive a b = c.compareOnce steps' exclusive a b := by
  induction k generalizing exclusive a b steps steps' with
  | zero =>
    obtain ⟨m, hm, -⟩ := ha.nests
    omega
  | succ k ih =>
    obtain ⟨n, rfl⟩ := Nat.exists_eq_succ_of_ne_zero (Nat.ne_of_gt (Nat.zero_lt_of_lt hk))
    obtain ⟨n', rfl⟩ := Nat.exists_eq_succ_of_ne_zero (Nat.ne_of_gt (Nat.zero_lt_of_lt hk'))
    have hwith : c.compareWith (c.compareOnce n) exclusive a b
        = c.compareWith (c.compareOnce n') exclusive a b := by
      refine compareWith_congr fun e key x y hmem => ?_
      obtain ⟨hx, hy⟩ := within_below hends ha hb hmem
      exact ih hx hy (by omega) (by omega)
    rw [compareOnce, compareOnce, hwith]

/-- Checking further down than selections nest makes no difference. -/
lemma checkOnce_stable (hends : ∀ f ∈ c.document.fragments, c.document.Ends f.name.text)
    (hss : c.document.HasSet ss) (hnests : c.document.Nests k ss) (hk : k < steps)
    (hk' : k < steps') : c.checkOnce steps parent ss = c.checkOnce steps' parent ss := by
  induction k using Nat.strong_induction_on generalizing parent ss steps steps' with
  | _ k ih =>
    obtain ⟨n, rfl⟩ := Nat.exists_eq_succ_of_ne_zero (Nat.ne_of_gt (Nat.zero_lt_of_lt hk))
    obtain ⟨n', rfl⟩ := Nat.exists_eq_succ_of_ne_zero (Nat.ne_of_gt (Nat.zero_lt_of_lt hk'))
    have hbelow : c.checkBelow n parent ss = c.checkBelow n' parent ss := by
      unfold checkBelow
      rw [mapM_congr]
      intro a ha
      cases hunder : c.below? a with
      | none => rfl
      | some p =>
        obtain ⟨m, rfl, hset, hm⟩ := nests_below hends hss hnests (mem_groups_members.mp ha) hunder
        exact ih m (Nat.lt_succ_self m) hset hm (by omega) (by omega)
    funext memo
    refine (checkOnce_succ c n parent ss memo).trans (Eq.trans ?_ (checkOnce_succ c n' parent ss memo).symm)
    rw [checkSet, checkSet, hbelow]

/-! ### The end -/

/-- **Checking ends**: all ways down from the selections of an operation end, those of the check and
those of the comparisons that it makes, at no more levels than are looked at. To find the fields of a
selection set takes no more steps into fragments than there are fragments. -/
structure Ends (c : MergeContext) (parent : TypeId) (ss : SelectionSet) : Prop where
  checks : Acc c.ChecksNext (parent, ss)
  compares : ∀ p, ReflTransGen c.ChecksNext p (parent, ss) → ∀ a ∈ c.fieldsOf p.1 p.2,
    ∀ b ∈ c.fieldsOf p.1 p.2, ∀ exclusive, Acc c.ComparesNext (exclusive, a, b)
  check : ∀ more, c.checkOnce (c.maxLevels + more) parent ss = c.checkOnce c.maxLevels parent ss
  compare : ∀ p, ReflTransGen c.ChecksNext p (parent, ss) → ∀ a ∈ c.fieldsOf p.1 p.2,
    ∀ b ∈ c.fieldsOf p.1 p.2, ∀ exclusive more,
      c.compareOnce (c.maxLevels + more) exclusive a b = c.compareOnce c.maxLevels exclusive a b
  fragments : ∀ t inner more,
    (c.selectionSetFields (c.fragmentFields (c.document.fragments.length + more)) t inner).found
      = c.fieldsOf t inner

/-- What the check of an operation leads to is written in the document, and nests as deep as all walks
look at most. -/
lemma nests_reached (hends : ∀ f ∈ c.document.fragments, c.document.Ends f.name.text)
    (hss : c.document.HasSet ss) (hk : c.document.Nests k ss) {p : TypeId × SelectionSet}
    (h : ReflTransGen c.ChecksNext p (parent, ss)) :
    c.document.HasSet p.2 ∧ ∃ m ≤ k, c.document.Nests m p.2 := by
  induction h using ReflTransGen.head_induction_on with
  | refl => exact ⟨hss, k, le_rfl, hk⟩
  | head hstep _ ih =>
    obtain ⟨hset, m, hm, hnests⟩ := ih
    cases hstep with
    | mk field under =>
      obtain ⟨n, rfl, hset', hnests'⟩ := nests_below hends hset hnests field under
      exact ⟨hset', n, by omega, hnests'⟩

theorem ends_operation (hends : ∀ f ∈ c.document.fragments, c.document.Ends f.name.text)
    {op : OperationDefinition} (hop : op ∈ c.document.operations) (parent : TypeId) :
    c.Ends parent op.selectionSet := by
  have hset : c.document.HasSet op.selectionSet := .operation hop
  have hnests : c.document.Nests c.document.maxLevels op.selectionSet := Document.nests_operation hop
  have hmax : c.maxLevels = c.document.maxLevels + 1 := rfl
  refine ⟨checks_acc hends hset hnests, fun p hp a ha b hb exclusive => ?_, fun more => ?_,
    fun p hp a ha b hb exclusive more => ?_, fun t inner more => ?_⟩
  · obtain ⟨hset', m, -, hnests'⟩ := nests_reached hends hset hnests hp
    exact compares_acc hends (within_of_mem hends hset' hnests' ha) (written_of_mem hset' hb)
  · exact checkOnce_stable hends hset hnests (by omega) (by omega)
  · obtain ⟨hset', m, hm, hnests'⟩ := nests_reached hends hset hnests hp
    exact compareOnce_stable hends (within_of_mem hends hset' hnests' ha) (written_of_mem hset' hb)
      (by omega) (by omega)
  · rw [fieldsOf, selectionSetFields_eq, selectionSetFields_eq, fragmentFields_eq, fragmentFields_eq]
    exact c.walker.selectionSet_stable c.document t inner more

end MergeContext

end GraphQL
