import GraphQL.Proofs.Document.Spread
import GraphQL.Proofs.Execution.Selection

/-!
Selecting comes to an end.

The selections of one level lead to those below the fields of each response key. Where all ways from
all fragments end, these nest less deep, so there is a last level, and looking further down than to
that one makes no difference.
-/

namespace GraphQL

namespace SelectionContext

variable {c : SelectionContext} {parent : TypeId} {sets : List SelectionSet} {ss : SelectionSet}
  {f first : Field} {below under : Option SelectionSet} {rest : List (Field × Option SelectionSet)}
  {spec : FieldSpec} {key : String} {k : Nat}

/-- From the selections of a level, those below the fields of one response key are worked out. -/
inductive Descends (c : SelectionContext) :
    TypeId × List SelectionSet → TypeId × List SelectionSet → Prop where
  | mk {parent : TypeId} {sets : List SelectionSet} {key : String} {first : Field}
      {under : Option SelectionSet} {rest : List (Field × Option SelectionSet)} {spec : FieldSpec}
      (group : (key, (first, under) :: rest) ∈
        groupByKey (·.1.responseKey) (c.collectedFields parent sets))
      (known : c.schema.field? parent first.name.text = some spec)
      (composite : c.schema.isComposite spec.type = true) :
      Descends c (c.schema.registry.innermost spec.type, ((first, under) :: rest).filterMap (·.2))
        (parent, sets)

/-- What is selected on some type nests less deep than the selections it is found in. -/
lemma Selects.nests (hends : ∀ g ∈ c.document.fragments, c.document.Ends g.name.text)
    (h : c.Selects ss f below) (hk : c.document.Nests k ss) :
    ∃ m, k = m + 1 ∧ ∀ inner, below = some inner → c.document.Nests m inner := by
  induction h with
  | @field ss f below mem _ =>
    cases below with
    | none =>
      obtain ⟨m, rfl⟩ := hk.leaf mem
      exact ⟨m, rfl, by simp⟩
    | some inner =>
      obtain ⟨m, rfl, hm⟩ := hk.field mem
      exact ⟨m, rfl, fun _ h => Option.some.inj h ▸ hm⟩
  | inline mem _ _ ih => exact ih (hk.inline mem)
  | spread mem _ fragment _ ih => exact ih (hk.spread hends mem fragment)

/-- The selections below the fields of one response key nest less deep than their level. -/
lemma nests_group (hends : ∀ g ∈ c.document.fragments, c.document.Ends g.name.text)
    (hsets : ∀ ss ∈ sets, c.document.Nests k ss)
    (h : (key, (first, under) :: rest) ∈
      groupByKey (·.1.responseKey) (c.collectedFields parent sets)) :
    ∃ m, k = m + 1 ∧
      ∀ inner ∈ ((first, under) :: rest).filterMap (·.2), c.document.Nests m inner := by
  have hmember : ∀ f below, (f, below) ∈ (first, under) :: rest →
      ∃ m, k = m + 1 ∧ ∀ inner, below = some inner → c.document.Nests m inner := by
    intro f below hf
    obtain ⟨hgroup, -⟩ := mem_groupByKey.mp h
    rw [hgroup] at hf
    obtain ⟨ss, hss, hreaches, hadmitted⟩ := mem_collectedFields.mp (mem_membersOf.mp hf).1
    exact (selects_of_reaches hreaches hadmitted).nests hends (hsets ss hss)
  obtain ⟨m, rfl, -⟩ := hmember first under List.mem_cons_self
  refine ⟨m, rfl, fun inner hinner => ?_⟩
  obtain ⟨⟨f, below⟩, hf, hbelow⟩ := List.mem_filterMap.mp hinner
  obtain ⟨n, hn, hnests⟩ := hmember f below hf
  obtain rfl : m = n := by omega
  exact hnests inner hbelow

/-- **The last level**: every way down from selections that nest `k` deep ends. -/
lemma descends_acc (hends : ∀ g ∈ c.document.fragments, c.document.Ends g.name.text)
    (hsets : ∀ ss ∈ sets, c.document.Nests k ss) : Acc c.Descends (parent, sets) := by
  induction k using Nat.strong_induction_on generalizing parent sets with
  | _ k ih =>
    refine .intro _ fun next hnext => ?_
    cases hnext with
    | mk group known composite =>
      obtain ⟨m, rfl, hnests⟩ := nests_group hends hsets group
      exact ih m (Nat.lt_succ_self m) hnests

lemma mergeFields_congr {run run' : TypeId → List SelectionSet → List SelectedField × List ResponseError}
    {group : List (Field × Option SelectionSet)}
    (h : ∀ t, run t (group.filterMap (·.2)) = run' t (group.filterMap (·.2))) :
    c.mergeFields run parent key group = c.mergeFields run' parent key group := by
  cases group with
  | nil => rfl
  | cons member rest =>
    obtain ⟨first, under⟩ := member
    unfold mergeFields
    simp only [h]

/-- Looking further down than selections nest makes no difference. -/
lemma build_stable (hends : ∀ g ∈ c.document.fragments, c.document.Ends g.name.text)
    (hsets : ∀ ss ∈ sets, c.document.Nests k ss) {levels levels' : Nat} (hl : k < levels)
    (hl' : k < levels') : c.build levels parent sets = c.build levels' parent sets := by
  induction k using Nat.strong_induction_on generalizing parent sets levels levels' with
  | _ k ih =>
    obtain ⟨l, rfl⟩ := Nat.exists_eq_succ_of_ne_zero (Nat.ne_of_gt (Nat.zero_lt_of_lt hl))
    obtain ⟨l', rfl⟩ := Nat.exists_eq_succ_of_ne_zero (Nat.ne_of_gt (Nat.zero_lt_of_lt hl'))
    have hmerged : c.mergedFields l parent sets = c.mergedFields l' parent sets := by
      refine List.filterMap_congr fun ⟨key, group⟩ hgroup => mergeFields_congr fun t => ?_
      obtain ⟨⟨first, under⟩, rest, rfl⟩ := List.exists_cons_of_ne_nil (mem_groupByKey.mp hgroup).2
      obtain ⟨m, rfl, hnests⟩ := nests_group hends hsets hgroup
      exact ih m (Nat.lt_succ_self m) hnests (by omega) (by omega)
    rw [build_succ, build_succ, hmerged]

/-- **Selecting ends**: all ways down from the selections of an operation end, at no more levels than
are looked at, and each level takes no more steps into fragments than there are fragments. -/
structure Ends (c : SelectionContext) (parent : TypeId) (ss : SelectionSet) : Prop where
  levels : Acc c.Descends (parent, [ss])
  select : ∀ more, c.build (c.document.maxLevels + 1 + more) parent [ss] = c.select parent ss
  fragments : ∀ t inner more,
    (c.selectionSetWalk (c.fragmentWalk t (c.document.fragments.length + more)) t inner).found
      = (c.selectionSetWalk (c.fragmentWalk t c.document.fragments.length) t inner).found

theorem ends_operation (hends : ∀ g ∈ c.document.fragments, c.document.Ends g.name.text)
    {op : OperationDefinition} (hop : op ∈ c.document.operations) (parent : TypeId) :
    c.Ends parent op.selectionSet := by
  have hsets : ∀ ss ∈ [op.selectionSet], c.document.Nests c.document.maxLevels ss := by
    intro ss hss
    rw [List.mem_singleton.mp hss]
    exact Document.nests_operation hop
  refine ⟨descends_acc hends hsets, fun more => ?_, fun t inner more => ?_⟩
  · exact build_stable hends hsets (by omega) (Nat.lt_succ_self _)
  · rw [selectionSetWalk_eq, selectionSetWalk_eq, fragmentWalk_eq, fragmentWalk_eq]
    exact (c.walker t).selectionSet_stable c.document () inner more

end SelectionContext

end GraphQL
