import GraphQL.Proofs.Parser.Document
import GraphQL.Proofs.Restates
import GraphQL.Proofs.Sample
import GraphQL.Proofs.Validation.Ending

/-!
The memo of the check for conflicts changes nothing but repeats.

The same check without a memo compares two fields again wherever they come up, and checks a selection set
again wherever a field leads to it. An outcome that the memo knows is what the comparison would come to, and
what a selection set that it counts as checked would report was reported before.
-/

namespace GraphQL

deriving instance DecidableEq for Problem

namespace MergeContext

open Relation (ReflTransGen TransGen)

variable {c : MergeContext} {parent t : TypeId} {ss below : SelectionSet} {a b x y : SelectedOn}
  {exclusive : Bool} {key : String} {k levels steps steps' : Nat} {memo : MergeMemo}

/-! ### The check without a memo -/

/-- Compares two fields with fields at most `steps` deep below them, each time anew. -/
def compareAgain (c : MergeContext) : Nat → Bool → SelectedOn → SelectedOn → Option MergeConflict
  | 0, _, _, _ => none
  | steps + 1, exclusive, a, b => Id.run (c.compareWith (m := Id) (c.compareAgain steps) exclusive a b)

/-- The conflicts of the fields of a selection set itself. Comparisons look `levels` levels deep. -/
def ownAgain (c : MergeContext) (levels : Nat) (parent : TypeId) (ss : SelectionSet) : List Problem :=
  (pairsWithin (c.fieldGroups parent ss)).filterMap fun (key, a, b) =>
    (c.compareAgain levels false a b).map (conflictProblem key)

/-- Checks a selection set and those below it, at most `steps` deep, each time anew: first its own fields, then the
selection sets below each of them. -/
def checkAgain (c : MergeContext) (levels : Nat) : Nat → TypeId → SelectionSet → List Problem
  | 0, _, _ => []
  | steps + 1, parent, ss =>
    c.ownAgain levels parent ss ++ ((c.fieldGroups parent ss).flatMap (·.2)).flatMap fun a =>
      match c.below? a with
      | some (t, below) => c.checkAgain levels steps t below
      | none => []

/-- What is found below a field. -/
def belowAgain (c : MergeContext) (levels steps : Nat) (a : SelectedOn) : List Problem :=
  match c.below? a with
  | some (t, below) => c.checkAgain levels steps t below
  | none => []

lemma checkAgain_succ (levels steps : Nat) (parent : TypeId) (ss : SelectionSet) :
    c.checkAgain levels (steps + 1) parent ss = c.ownAgain levels parent ss
      ++ ((c.fieldGroups parent ss).flatMap (·.2)).flatMap (c.belowAgain levels steps) := rfl

lemma ownAgain_eq (levels : Nat) (parent : TypeId) (ss : SelectionSet) : c.ownAgain levels parent ss
    = ((pairsWithin (c.fieldGroups parent ss)).map fun p =>
        (c.compareAgain levels false p.2.1 p.2.2).map (conflictProblem p.1)).filterMap id := by
  rw [List.filterMap_map]
  rfl

lemma compareAgain_stable (hends : ∀ f ∈ c.document.fragments, c.document.Ends f.name.text)
    (ha : c.Within k a) (hb : c.Written b) (hk : k ≤ steps) (hk' : k ≤ steps') :
    c.compareAgain steps exclusive a b = c.compareAgain steps' exclusive a b := by
  induction k generalizing exclusive a b steps steps' with
  | zero =>
    obtain ⟨m, hm, -⟩ := ha.nests
    omega
  | succ k ih =>
    obtain ⟨n, rfl⟩ := Nat.exists_eq_succ_of_ne_zero (Nat.ne_of_gt (Nat.zero_lt_of_lt hk))
    obtain ⟨n', rfl⟩ := Nat.exists_eq_succ_of_ne_zero (Nat.ne_of_gt (Nat.zero_lt_of_lt hk'))
    rw [compareAgain, compareAgain]
    refine congrArg Id.run (compareWith_congr fun e key x y hmem => ?_)
    obtain ⟨hx, hy⟩ := within_below hends ha hb hmem
    exact ih hx hy (by omega) (by omega)

lemma checkAgain_stable {levels' : Nat} (hends : ∀ f ∈ c.document.fragments, c.document.Ends f.name.text)
    (hss : c.document.HasSet ss) (hnests : c.document.Nests k ss) (hk : k < steps) (hk' : k < steps')
    (hl : k ≤ levels) (hl' : k ≤ levels') :
    c.checkAgain levels steps parent ss = c.checkAgain levels' steps' parent ss := by
  induction k using Nat.strong_induction_on generalizing parent ss steps steps' with
  | _ k ih =>
    obtain ⟨n, rfl⟩ := Nat.exists_eq_succ_of_ne_zero (Nat.ne_of_gt (Nat.zero_lt_of_lt hk))
    obtain ⟨n', rfl⟩ := Nat.exists_eq_succ_of_ne_zero (Nat.ne_of_gt (Nat.zero_lt_of_lt hk'))
    have hown : c.ownAgain levels parent ss = c.ownAgain levels' parent ss := by
      refine List.filterMap_congr fun ⟨key, a, b⟩ hp => ?_
      obtain ⟨ha, hb⟩ := mem_of_mem_pairsWithin hp
      dsimp only
      rw [compareAgain_stable hends (within_of_mem hends hss hnests ha) (written_of_mem hss hb) hl hl']
    have hbelow : ∀ a ∈ (c.fieldGroups parent ss).flatMap (·.2),
        c.belowAgain levels n a = c.belowAgain levels' n' a := by
      intro a ha
      unfold belowAgain
      cases hunder : c.below? a with
      | none => rfl
      | some p =>
        obtain ⟨m, rfl, hset, hm⟩ := nests_below hends hss hnests (mem_groups_members.mp ha) hunder
        exact ih m (Nat.lt_succ_self m) hset hm (by omega) (by omega) (by omega) (by omega)
    rw [checkAgain_succ, checkAgain_succ, hown, List.flatMap_congr hbelow]

/-- A selection set reports its own conflicts, and what each field reports below it. -/
lemma checkAgain_eq (hends : ∀ f ∈ c.document.fragments, c.document.Ends f.name.text)
    (hss : c.document.HasSet ss) (hnests : c.document.Nests k ss) (hk : k < levels) :
    c.checkAgain levels levels parent ss = c.ownAgain levels parent ss
      ++ ((c.fieldGroups parent ss).flatMap (·.2)).flatMap (c.belowAgain levels levels) := by
  rw [← checkAgain_succ]
  exact checkAgain_stable hends hss hnests hk (Nat.lt_succ_of_lt hk) hk.le hk.le

/-! ### Known outcomes -/

/-- What a memo knows is what comparing two fields again comes to. -/
def Exact (c : MergeContext) (memo : MergeMemo) : Prop :=
  ∀ exclusive a b o, c.Written a → c.Written b → memo.compared[ComparisonKey.of exclusive a b]? = some o →
    o = c.compareAgain c.maxLevels exclusive a b

/-- A computation compares fields only: it keeps a memo exact, and comes to this outcome. -/
def Recalls {α : Type} (c : MergeContext) (m : StateM MergeMemo α) (outcome : α) : Prop :=
  ∀ memo, c.Exact memo → c.Exact (m.run memo).2 ∧ (m.run memo).2.checked = memo.checked ∧ (m.run memo).1 = outcome

namespace Recalls

variable {α β : Type} {m : StateM MergeMemo α} {o : α} {o' : β}

lemma pure (o : α) : c.Recalls (Pure.pure o) o := fun _ h => ⟨h, rfl, rfl⟩

lemma bind {f : α → StateM MergeMemo β} (hm : c.Recalls m o) (hf : c.Recalls (f o) o') : c.Recalls (m >>= f) o' := by
  intro memo h
  obtain ⟨hexact, hchecked, rfl⟩ := hm memo h
  obtain ⟨hexact', hchecked', rfl⟩ := hf _ hexact
  exact ⟨hexact', hchecked'.trans hchecked, rfl⟩

lemma mapM {f : β → StateM MergeMemo α} {g : β → α} {bs : List β} (hf : ∀ b ∈ bs, c.Recalls (f b) (g b)) :
    c.Recalls (bs.mapM f) (bs.map g) := by
  induction bs with
  | nil => exact .pure []
  | cons b bs ih =>
    obtain ⟨hb, hbs⟩ := List.forall_mem_cons.mp hf
    rw [List.mapM_cons]
    exact hb.bind ((ih hbs).bind (.pure _))

end Recalls

lemma compareWith_recalls {compare : Bool → SelectedOn → SelectedOn → StateM MergeMemo (Option MergeConflict)}
    {again : Bool → SelectedOn → SelectedOn → Id (Option MergeConflict)}
    (h : ∀ e key x y, (key, x, y) ∈ pairsAcross (c.groupsBelow a) (c.groupsBelow b) →
      c.Recalls (compare e x y) (again e x y).run) :
    c.Recalls (c.compareWith compare exclusive a b) (c.compareWith again exclusive a b).run := by
  unfold compareWith
  dsimp only
  split
  · exact .pure _
  · rw [Id.run_bind, List.idRun_mapM]
    refine Recalls.bind (Recalls.mapM fun p hp => ?_) (.pure _)
    exact (h _ p.1 p.2.1 p.2.2 hp).bind (.pure _)

/-- A comparison with enough steps comes to the same whatever an exact memo knows. -/
lemma compareOnce_recalls (hd : Tidy c.document) (hk : k ≤ steps) (hmax : k ≤ c.maxLevels) (ha : c.Within k a)
    (hb : c.Written b) : c.Recalls (c.compareOnce steps exclusive a b) (c.compareAgain c.maxLevels exclusive a b) := by
  induction steps generalizing k exclusive a b with
  | zero =>
    obtain ⟨m, rfl, -⟩ := ha.nests
    omega
  | succ steps ih =>
    have hwith : c.Recalls (c.compareWith (c.compareOnce steps) exclusive a b)
        (c.compareAgain c.maxLevels exclusive a b) := by
      refine compareWith_recalls fun e key x y hmem => ?_
      obtain ⟨m, rfl, -⟩ := ha.nests
      obtain ⟨hx, hy⟩ := within_below hd.ends ha hb hmem
      have hstable : c.compareAgain c.document.maxLevels e x y = c.compareAgain c.maxLevels e x y :=
        compareAgain_stable hd.ends hx hy (Nat.le_of_succ_le_succ hmax) (Nat.le_of_succ_le hmax)
      exact hstable ▸ ih (by omega) (by omega) hx hy
    intro memo h
    rw [compareOnce_succ]
    split
    · rename_i known hknown
      exact ⟨h, rfl, h exclusive a b known ha.written hb hknown⟩
    · obtain ⟨hexact, hchecked, hout⟩ := hwith memo h
      refine ⟨fun e x y o hx hy hlook => ?_, hchecked, hout⟩
      simp only [Std.HashMap.getElem?_insert] at hlook
      split at hlook
      · rename_i hkey
        simp only [beq_iff_eq, ComparisonKey.of, ComparisonKey.mk.injEq] at hkey
        obtain ⟨hpos, hparent, hpos', hparent', rfl⟩ := hkey
        obtain rfl := ha.written.eq_of_pos hd.nodup hx hpos hparent
        obtain rfl := hb.eq_of_pos hd.nodup hy hpos' hparent'
        exact (Option.some.inj hlook).symm.trans hout
      · exact hexact e x y o hx hy hlook

lemma compareOwn_recalls (parent : TypeId) (hd : Tidy c.document) (hmax : k ≤ c.maxLevels)
    (hss : c.document.HasSet ss) (hnests : c.document.Nests k ss) :
    c.Recalls (c.compareOwn parent ss) ((pairsWithin (c.fieldGroups parent ss)).map fun p =>
      (c.compareAgain c.maxLevels false p.2.1 p.2.2).map (conflictProblem p.1)) := by
  refine Recalls.mapM fun p hp => ?_
  obtain ⟨ha, hb⟩ := mem_of_mem_pairsWithin hp
  exact (compareOnce_recalls hd hmax hmax (within_of_mem hd.ends hss hnests ha) (written_of_mem hss hb)).bind
    (.pure _)

/-! ### Reported problems -/

/-- What a selection set and those below it report is among other problems. -/
def Reported (c : MergeContext) (before : List Problem) (parent : TypeId) (ss : SelectionSet) : Prop :=
  c.checkAgain c.maxLevels c.maxLevels parent ss ⊆ before

lemma Reported.mono {before before' : List Problem} (h : c.Reported before parent ss) (hsub : before ⊆ before') :
    c.Reported before' parent ss := List.Subset.trans h hsub

/-- A computation checks selection sets that start at these, and reports their problems without those that were
reported before. All that a memo counts as checked there has to be reported before, and what it comes to count as
checked is reported behind it. -/
def Rechecks (c : MergeContext) (starts : TypeId × SelectionSet → Prop) (problems : List Problem)
    (m : StateM MergeMemo (List Problem)) : Prop :=
  ∀ memo before, c.Exact memo →
    (∀ t below, c.InChecked memo t below → (∃ p, starts p ∧ ReflTransGen c.ChecksNext (t, below) p) →
      c.Reported before t below) →
    c.Exact (m.run memo).2 ∧ Restates before (m.run memo).1 problems ∧
      ∀ t below, c.InChecked (m.run memo).2 t below →
        c.InChecked memo t below ∨ c.Reported ((m.run memo).1 ++ before) t below

lemma Rechecks.idle (starts : TypeId × SelectionSet → Prop) : c.Rechecks starts [] (return []) :=
  fun _ _ hexact _ => ⟨hexact, .nil, fun _ _ hin => .inl hin⟩

lemma Rechecks.mapM {α : Type} {g : α → StateM MergeMemo (List Problem)} {problems : α → List Problem}
    {starts : TypeId × SelectionSet → Prop} {as : List α} (h : ∀ a ∈ as, c.Rechecks starts (problems a) (g a)) :
    c.Rechecks starts (as.flatMap problems) (do return (← as.mapM g).flatten) := by
  induction as with
  | nil => exact .idle starts
  | cons a as ih =>
    intro memo before hexact hbefore
    obtain ⟨ha, has⟩ := List.forall_mem_cons.mp h
    obtain ⟨hfirst, hout, hin⟩ := ha memo before hexact hbefore
    rw [run_mapM_flatten]
    generalize (g a).run memo = first at hfirst hout hin
    obtain ⟨found, later⟩ := first
    obtain ⟨hrest, hout', hin'⟩ := ih has later (found ++ before) hfirst fun t below hmem hpath => by
      rcases hin t below hmem with hmem | hreported
      · exact (hbefore t below hmem hpath).mono (List.subset_append_right _ _)
      · exact hreported
    refine ⟨hrest, hout.append hout', fun t below hmem => ?_⟩
    dsimp only
    rcases hin' t below hmem with hmem | hreported
    · exact (hin t below hmem).imp_right fun hreported => hreported.mono (append_subset_of_more _ _ _)
    · exact .inr (hreported.mono (append_subset_of_behind _ _ _))

/-- Fewer selection sets have to be reported before where the computation starts at fewer of them. -/
lemma Rechecks.mono {starts starts' : TypeId × SelectionSet → Prop} {problems : List Problem}
    {m : StateM MergeMemo (List Problem)} (h : c.Rechecks starts problems m) (hstarts : ∀ p, starts p → starts' p) :
    c.Rechecks starts' problems m :=
  fun memo before hexact hbefore => h memo before hexact fun t below hmem ⟨p, hp, hpath⟩ =>
    hbefore t below hmem ⟨p, hstarts p hp, hpath⟩

lemma checkBelow_rechecks (h : ∀ a ∈ c.fieldsOf parent ss, ∀ p, c.below? a = some p →
      c.Rechecks (· = p) (c.checkAgain c.maxLevels c.maxLevels p.1 p.2) (c.checkOnce steps p.1 p.2)) :
    c.Rechecks (c.ChecksNext · (parent, ss))
      (((c.fieldGroups parent ss).flatMap (·.2)).flatMap (c.belowAgain c.maxLevels c.maxLevels))
      (c.checkBelow steps parent ss) := by
  refine Rechecks.mapM fun a ha => ?_
  have ha := mem_groups_members.mp ha
  unfold belowAgain
  cases hunder : c.below? a with
  | none => exact .idle _
  | some p =>
    refine (h a ha p hunder).mono fun q hq => ?_
    subst hq
    exact .mk ha hunder

lemma checkSet_run (steps : Nat) (parent : TypeId) (ss : SelectionSet) (memo : MergeMemo) :
    (c.checkSet steps parent ss).run memo
      = (((c.compareOwn parent ss).run memo).1.filterMap id
          ++ ((c.checkBelow steps parent ss).run ((c.compareOwn parent ss).run memo).2).1,
        ((c.checkBelow steps parent ss).run ((c.compareOwn parent ss).run memo).2).2) := rfl

/-- No selection set stands below itself. -/
lemma not_below_itself (h : Acc c.ChecksNext (parent, ss)) : ¬ TransGen c.ChecksNext (parent, ss) (parent, ss) := by
  generalize (parent, ss) = p at h
  induction h with
  | intro p _ ih =>
    intro hpath
    obtain ⟨q, hfirst, hstep⟩ := TransGen.tail'_iff.mp hpath
    exact ih q hstep (TransGen.head' hstep hfirst)

/-- **The check with a memo**: with enough steps, it reports what the check without one does, and leaves out
nothing but what was reported before. -/
lemma checkOnce_rechecks (hd : Tidy c.document) (hk : k < steps) (hmax : k < c.maxLevels)
    (hss : c.document.HasSet ss) (hnests : c.document.Nests k ss) :
    c.Rechecks (· = (parent, ss)) (c.checkAgain c.maxLevels c.maxLevels parent ss) (c.checkOnce steps parent ss) := by
  induction steps generalizing k parent ss with
  | zero => omega
  | succ steps ih =>
    intro memo before hexact hbefore
    rw [checkOnce_succ]
    split
    · rename_i hmem
      exact ⟨hexact, .of_seen (hbefore parent ss ⟨hss, hmem⟩ ⟨_, rfl, .refl⟩), fun _ _ hin => .inl hin⟩
    · generalize hmemo : ({ memo with checked := memo.checked.insert (ss.pos, parent) } : MergeMemo) = entered
      obtain ⟨hexact', hchecked, hown⟩ := compareOwn_recalls parent hd hmax.le hss hnests entered (hmemo ▸ hexact)
      have hinsert := hchecked.trans (congrArg MergeMemo.checked hmemo.symm)
      have hbelow : c.Rechecks (c.ChecksNext · (parent, ss)) _ (c.checkBelow steps parent ss) :=
        checkBelow_rechecks fun a ha p hunder => by
          obtain ⟨m, rfl, hset, hm⟩ := nests_below hd.ends hss hnests ha hunder
          exact ih (by omega) (by omega) hset hm
      obtain ⟨hexact'', hout, hin⟩ := hbelow _ (c.ownAgain c.maxLevels parent ss ++ before) hexact'
        fun t below hmem ⟨p, hstep, hpath⟩ => by
          rcases inChecked_of_insert hd hss hinsert hmem with ⟨rfl, rfl⟩ | hmem
          · exact absurd (TransGen.tail' hpath hstep) (not_below_itself (checks_acc hd.ends hss hnests))
          · exact (hbefore t below hmem ⟨_, rfl, hpath.tail hstep⟩).mono (List.subset_append_right _ _)
      have hall := (Restates.refl before (c.ownAgain c.maxLevels parent ss)).append hout
      rw [← checkAgain_eq hd.ends hss hnests hmax] at hall
      rw [checkSet_run, hown, ← ownAgain_eq]
      refine ⟨hexact'', hall, fun t below hmem => ?_⟩
      rcases hin t below hmem with hmem | hreported
      · rcases inChecked_of_insert hd hss hinsert hmem with ⟨rfl, rfl⟩ | hmem
        · exact .inr fun x hx => hall.mem hx
        · exact .inl hmem
      · exact .inr (hreported.mono (append_subset_of_behind _ _ _))

end MergeContext

/-- The fields of an operation that cannot be merged, found without a memo: every selection set is checked and every
two fields are compared again wherever they come up, at most `levels` levels deep. -/
def mergeProblemsAgain (s : Schema) (d : Document) (op : OperationDefinition) (levels : Nat) : List Problem :=
  match op.type, s.root? op.type with
  | .subscription, _ | _, none => []
  | _, some root => MergeContext.checkAgain ⟨s, d⟩ levels levels root op.selectionSet

lemma mergeProblemsAgain_eq {s : Schema} {d : Document} {op : OperationDefinition} {root : TypeId}
    (hop : op.type ≠ .subscription) (hroot : s.root? op.type = some root) (levels : ℕ) :
    mergeProblemsAgain s d op levels = MergeContext.checkAgain ⟨s, d⟩ levels levels root op.selectionSet := by
  unfold mergeProblemsAgain
  rw [hroot]
  cases h : op.type <;> simp_all

/-- **The memo changes nothing but repeats**: for each operation of a parsed document whose fragments have names of
their own and form no cycle, the conflicts that are reported are those that are found without a memo, in the same
order, once later repeats are left out. Without a memo nothing more is found further down. -/
theorem mergeProblems_eraseDups {s : Schema} {d : Document} {source : List Char} {op : OperationDefinition}
    (hparse : (Document.parse source).document? = some d) (hdef : d.definitionProblems = [])
    (hcycles : d.cycleProblems = []) (hop : op ∈ d.operations) (more : ℕ) :
    mergeProblemsAgain s d op (d.maxLevels + 1 + more) = mergeProblemsAgain s d op (d.maxLevels + 1) ∧
      (mergeProblems s d op).eraseDups = (mergeProblemsAgain s d op (d.maxLevels + 1)).eraseDups := by
  have hparse : Document.parse source = ⟨some d, (Document.parse source).errors⟩ := hparse ▸ rfl
  have hd : MergeContext.Tidy d :=
    ⟨Document.parse_parts_nodup hparse, Document.ends_of_cycleProblems (Document.fragments_nodup hdef) hcycles⟩
  have hset : d.HasSet op.selectionSet := .operation hop
  have hnests : d.Nests d.maxLevels op.selectionSet := Document.nests_operation hop
  cases hroot : s.root? op.type with
  | none =>
    unfold mergeProblems mergeProblemsAgain
    rw [hroot]
    cases op.type <;> exact ⟨rfl, rfl⟩
  | some root =>
    by_cases htype : op.type = .subscription
    · simp [mergeProblems, mergeProblemsAgain, htype]
    rw [mergeProblems_eq htype hroot, mergeProblemsAgain_eq htype hroot, mergeProblemsAgain_eq htype hroot]
    refine ⟨MergeContext.checkAgain_stable hd.ends hset hnests (by omega) (by omega) (by omega) (by omega), ?_⟩
    have hlevels : d.maxLevels < MergeContext.maxLevels ⟨s, d⟩ := Nat.lt_succ_self d.maxLevels
    have hchecks : MergeContext.Rechecks ⟨s, d⟩ (· = (root, op.selectionSet)) _ _ :=
      MergeContext.checkOnce_rechecks hd hlevels hlevels hset hnests
    obtain ⟨-, hreport, -⟩ := hchecks .empty [] (by simp [MergeContext.Exact, MergeContext.MergeMemo.empty])
      (by simp [MergeContext.InChecked, MergeContext.MergeMemo.empty])
    exact hreport.eraseDups_eq

/-- A fragment with a conflict below its field, used three times. -/
def conflictInFragment : List Char :=
  ("\x7b a \x7b ...F \x7d x: a \x7b ...F a \x7b ...F \x7d \x7d \x7d "
    ++ "fragment F on Query \x7b a \x7b b: c b \x7d \x7d").toList

/-- Without a memo the conflict is found three times. -/
def findsAgain (run : Schema × Document) : Bool :=
  run.2.definitionProblems.isEmpty && run.2.cycleProblems.isEmpty && run.2.operations.any fun op =>
    let again := mergeProblemsAgain run.1 run.2 op (run.2.maxLevels + 1)
    again.length == 3 && again.eraseDups.length == 1

theorem mergeProblems_eraseDups_of_conflictInFragment : ∃ s d op,
    Schema.ofText "type Query \x7b a: Query, b: Int, c: Int \x7d" 0 = .ok s ∧
    (Document.parse conflictInFragment).document? = some d ∧ d.definitionProblems = [] ∧ d.cycleProblems = [] ∧
    op ∈ d.operations ∧ (mergeProblemsAgain s d op (d.maxLevels + 1)).length = 3 ∧
    (mergeProblems s d op).eraseDups.length = 1 ∧ ∀ more,
      mergeProblemsAgain s d op (d.maxLevels + 1 + more) = mergeProblemsAgain s d op (d.maxLevels + 1) ∧
        (mergeProblems s d op).eraseDups = (mergeProblemsAgain s d op (d.maxLevels + 1)).eraseDups := by
  have hrun : (Sample.read? "type Query \x7b a: Query, b: Int, c: Int \x7d" conflictInFragment).any findsAgain = true := by
    decide +kernel
  obtain ⟨s, d, hs, hparse, hcheck⟩ := Sample.exists_of_read hrun
  simp only [findsAgain, Bool.and_eq_true, List.isEmpty_iff, List.any_eq_true, beq_iff_eq] at hcheck
  obtain ⟨⟨hdef, hcycles⟩, op, hop, hthree, hone⟩ := hcheck
  have hmemo := mergeProblems_eraseDups (s := s) hparse hdef hcycles hop
  exact ⟨s, d, op, hs, hparse, hdef, hcycles, hop, hthree, (hmemo 0).2 ▸ hone, hmemo⟩

end GraphQL
