import GraphQL.Proofs.Lists
import GraphQL.Proofs.Validation.Fields

/-!
What the check for conflicts establishes.

`MergeContext.canMerge` compares two fields as far down as it is told to, and without a memo. A memo
only holds outcomes of comparisons that went all the way down: places tell fields apart, and fields nest
no deeper than the steps of a comparison reach. So where the check reports nothing, fields can be merged
however far down they are compared.
-/

namespace GraphQL

namespace MergeContext

variable {c : MergeContext} {parent : TypeId} {ss : SelectionSet} {a b x y : SelectedOn}
  {exclusive : Bool} {levels steps k : Nat} {key : String}

/-! ### Merging without a memo -/

/-- Two fields and those below them can be merged, as far as `levels` levels down. -/
def canMerge (c : MergeContext) : Nat → Bool → SelectedOn → SelectedOn → Bool
  | 0, _, _, _ => true
  | levels + 1, exclusive, a, b =>
    let exclusive := exclusive || areExclusive a b
    (c.ownConflict exclusive a b).isNone
      && (pairsAcross (c.groupsBelow a) (c.groupsBelow b)).all fun (_, x, y) =>
        canMerge c levels exclusive x y

/-- The selection set below a field, with the type that it is selected on. -/
def below? (c : MergeContext) (a : SelectedOn) : Option (TypeId × SelectionSet) :=
  match a.spec, a.below with
  | some spec, some below => some (c.schema.registry.innermost spec.type, below)
  | _, _ => none

/-- The fields of a selection set and of those below it, `steps` levels of them at most, can be merged
as far as `levels` levels down. -/
def canMergeAll (c : MergeContext) (levels : Nat) : Nat → TypeId → SelectionSet → Bool
  | 0, _, _ => true
  | steps + 1, parent, ss =>
    ((pairsWithin (c.fieldGroups parent ss)).all fun (_, a, b) => c.canMerge levels false a b)
      && (c.fieldsOf parent ss).all fun a =>
        match c.below? a with
        | some (t, below) => canMergeAll c levels steps t below
        | none => true

/-- Two fields can be merged. -/
def Merges (c : MergeContext) (exclusive : Bool) (a b : SelectedOn) : Prop :=
  ∀ levels, c.canMerge levels exclusive a b = true

/-- The fields of a selection set can be merged, and so can those of the sets below it. -/
def MergesAll (c : MergeContext) (parent : TypeId) (ss : SelectionSet) : Prop :=
  ∀ levels steps, c.canMergeAll levels steps parent ss = true

lemma merges_iff : c.Merges exclusive a b ↔
    c.ownConflict (exclusive || areExclusive a b) a b = none ∧
      ∀ key x y, (key, x, y) ∈ pairsAcross (c.groupsBelow a) (c.groupsBelow b) →
        c.Merges (exclusive || areExclusive a b) x y := by
  constructor
  · intro h
    have hstep (levels : Nat) := h (levels + 1)
    simp only [canMerge, Bool.and_eq_true, Option.isNone_iff_eq_none, List.all_eq_true] at hstep
    exact ⟨(hstep 0).1, fun key x y hmem levels => (hstep levels).2 (key, x, y) hmem⟩
  · rintro ⟨hown, hbelow⟩ levels
    cases levels with
    | zero => rfl
    | succ levels =>
      simp only [canMerge, Bool.and_eq_true, Option.isNone_iff_eq_none, List.all_eq_true]
      exact ⟨hown, fun p hp => hbelow p.1 p.2.1 p.2.2 hp levels⟩

lemma groupsBelow_eq (a : SelectedOn) :
    c.groupsBelow a = groupByKey (·.field.responseKey)
      (((c.below? a).map fun p => c.fieldsOf p.1 p.2).getD []) := by
  unfold groupsBelow below?
  cases a.spec with
  | none => rfl
  | some spec =>
    cases a.below with
    | none => rfl
    | some below => rfl

/-- One level of a selection set: its own fields can be merged, and the sets below them are of some
kind. -/
def MergesOwn (c : MergeContext) (P : TypeId → SelectionSet → Prop) (parent : TypeId)
    (ss : SelectionSet) : Prop :=
  (∀ key a b, (key, a, b) ∈ pairsWithin (c.fieldGroups parent ss) → c.Merges false a b) ∧
    ∀ a ∈ c.fieldsOf parent ss, ∀ t below, c.below? a = some (t, below) → P t below

lemma MergesAll.own (h : c.MergesAll parent ss) : c.MergesOwn c.MergesAll parent ss := by
  have hstep (levels steps : Nat) := h levels (steps + 1)
  simp only [canMergeAll, Bool.and_eq_true, List.all_eq_true] at hstep
  refine ⟨fun key a b hmem levels => (hstep levels 0).1 (key, a, b) hmem, ?_⟩
  intro a ha t below hbelow levels steps
  have hall := (hstep levels steps).2 a ha
  rwa [hbelow] at hall

lemma MergesOwn.mono {P Q : TypeId → SelectionSet → Prop} (h : c.MergesOwn P parent ss)
    (hPQ : ∀ t below, P t below → Q t below) : c.MergesOwn Q parent ss :=
  ⟨h.1, fun a ha t below hbelow => hPQ t below (h.2 a ha t below hbelow)⟩

/-- Selection sets of which each one merges on its own, and which are closed, merge altogether. -/
lemma mergesAll_of_closed {P : TypeId → SelectionSet → Prop}
    (hP : ∀ parent ss, P parent ss → c.MergesOwn P parent ss) (h : P parent ss) :
    c.MergesAll parent ss := by
  intro levels steps
  induction steps generalizing parent ss with
  | zero => rfl
  | succ steps ih =>
    obtain ⟨hown, hbelow⟩ := hP parent ss h
    simp only [canMergeAll, Bool.and_eq_true, List.all_eq_true]
    refine ⟨fun p hp => hown p.1 p.2.1 p.2.2 hp levels, fun a ha => ?_⟩
    split
    · rename_i t below hunder
      exact ih (hbelow a ha t below hunder)
    · rfl

/-! ### Comparing with a memo -/

/-- A memo that knows of no conflict of two fields has compared them all the way down. -/
def Sound (c : MergeContext) (memo : MergeMemo) : Prop :=
  ∀ exclusive a b, c.Written a → c.Written b →
    memo.compared[ComparisonKey.of exclusive a b]? = some none → c.Merges exclusive a b

/-- A computation compares fields only: it keeps a memo sound, and its outcome is one of `P`. -/
def Keeps {α : Type} (c : MergeContext) (m : StateM MergeMemo α) (P : α → Prop) : Prop :=
  ∀ memo, c.Sound memo →
    c.Sound (m.run memo).2 ∧ (m.run memo).2.checked = memo.checked ∧ P (m.run memo).1

namespace Keeps

variable {α β : Type} {m : StateM MergeMemo α} {P : α → Prop} {Q : β → Prop}

lemma pure {a : α} (h : P a) : c.Keeps (Pure.pure a) P := fun _ hs => ⟨hs, rfl, h⟩

lemma bind {f : α → StateM MergeMemo β} (hm : c.Keeps m P) (hf : ∀ a, P a → c.Keeps (f a) Q) :
    c.Keeps (m >>= f) Q := by
  intro memo hs
  obtain ⟨hsound, hchecked, hP⟩ := hm memo hs
  obtain ⟨hsound', hchecked', hQ⟩ := hf _ hP _ hsound
  exact ⟨hsound', hchecked'.trans hchecked, hQ⟩

lemma mapM {f : β → StateM MergeMemo α} {R : β → α → Prop} {bs : List β}
    (hf : ∀ b ∈ bs, c.Keeps (f b) (R b)) : c.Keeps (bs.mapM f) (List.Forall₂ R bs) := by
  induction bs with
  | nil => exact .pure .nil
  | cons b bs ih =>
    rw [List.mapM_cons]
    refine (hf b List.mem_cons_self).bind fun a ha => ?_
    refine (ih fun b' hb' => hf b' (List.mem_cons_of_mem b hb')).bind fun as has => ?_
    exact .pure (.cons ha has)

end Keeps

lemma eq_none_of_filterMap {α : Type} {os : List (Option α)} (h : os.filterMap id = []) :
    ∀ o ∈ os, o = none := fun o ho => List.filterMap_eq_nil_iff.mp h o ho

/-- The outcomes of comparisons, none of which is a conflict. -/
lemma forall_of_outcomes {α β : Type} {as : List α} {os : List (Option β)} {P : α → Prop}
    (h : List.Forall₂ (fun a o => o = none → P a) as os) (hos : os.filterMap id = []) :
    ∀ a ∈ as, P a := by
  intro a ha
  obtain ⟨o, ho, hP⟩ := forall₂_exists_right h ha
  exact hP (eq_none_of_filterMap hos o ho)

lemma compareWith_keeps
    {compare : Bool → SelectedOn → SelectedOn → StateM MergeMemo (Option MergeConflict)}
    (h : ∀ e key x y, (key, x, y) ∈ pairsAcross (c.groupsBelow a) (c.groupsBelow b) →
      c.Keeps (compare e x y) fun o => o = none → c.Merges e x y) :
    c.Keeps (c.compareWith compare exclusive a b) fun o => o = none → c.Merges exclusive a b := by
  unfold compareWith
  dsimp only
  split
  · exact .pure (by simp)
  · rename_i hown
    refine Keeps.bind (Keeps.mapM (R := fun p o => o = none →
      c.Merges (exclusive || areExclusive a b) p.2.1 p.2.2) ?_) fun os hos => ?_
    · intro p hp
      refine (h _ p.1 p.2.1 p.2.2 hp).bind fun o ho => .pure fun hnone => ho ?_
      simpa using hnone
    · refine .pure fun hnone => merges_iff.mpr ⟨hown, fun key x y hmem => ?_⟩
      refine forall_of_outcomes hos ?_ _ hmem
      unfold conflictBelow at hnone
      split at hnone
      · rename_i hempty
        exact List.isEmpty_iff.mp hempty
      · simp at hnone

lemma compareOnce_succ (c : MergeContext) (steps : Nat) (exclusive : Bool) (a b : SelectedOn)
    (memo : MergeMemo) :
    (c.compareOnce (steps + 1) exclusive a b).run memo =
      match memo.compared[ComparisonKey.of exclusive a b]? with
      | some known => (known, memo)
      | none =>
        let r := (c.compareWith (c.compareOnce steps) exclusive a b).run memo
        (r.1, { r.2 with compared := r.2.compared.insert (ComparisonKey.of exclusive a b) r.1 }) := by
  rw [compareOnce]
  cases h : memo.compared[ComparisonKey.of exclusive a b]? <;> simp [h] <;> rfl

/-- The places in a document are told apart, and no fragment leads back to itself. -/
structure Tidy (d : Document) : Prop where
  nodup : (d.parts.map (·.pos)).Nodup
  ends : ∀ f ∈ d.fragments, d.Ends f.name.text

/-- The fields below a field. -/
lemma mem_groupsBelow (h : (key, x, y) ∈ pairsAcross (c.groupsBelow a) (c.groupsBelow b)) :
    (∃ t below, c.below? a = some (t, below) ∧ x ∈ c.fieldsOf t below) ∧
      ∃ t below, c.below? b = some (t, below) ∧ y ∈ c.fieldsOf t below := by
  rw [groupsBelow_eq, groupsBelow_eq, mem_pairsAcross] at h
  obtain ⟨⟨hx, -⟩, hy, -⟩ := h
  constructor
  · cases hbelow : c.below? a with
    | none => simp [hbelow] at hx
    | some p => exact ⟨p.1, p.2, rfl, by simpa [hbelow] using hx⟩
  · cases hbelow : c.below? b with
    | none => simp [hbelow] at hy
    | some p => exact ⟨p.1, p.2, rfl, by simpa [hbelow] using hy⟩

lemma below_of_below? {t : TypeId} {below : SelectionSet} (h : c.below? a = some (t, below)) :
    a.below = some below := by
  unfold below? at h
  split at h
  · rename_i hunder
    rw [hunder, (Prod.mk.inj (Option.some.inj h)).2]
  · simp at h

/-- A comparison with enough steps keeps a memo sound. -/
lemma compareOnce_keeps (hd : Tidy c.document) (hk : k ≤ steps) (ha : c.Within k a)
    (hb : c.Written b) :
    c.Keeps (c.compareOnce steps exclusive a b) fun o => o = none → c.Merges exclusive a b := by
  induction steps generalizing k exclusive a b with
  | zero =>
    obtain ⟨m, rfl, -⟩ := ha.nests
    omega
  | succ steps ih =>
    have hwith : c.Keeps (c.compareWith (c.compareOnce steps) exclusive a b)
        fun o => o = none → c.Merges exclusive a b := by
      refine compareWith_keeps fun e key x y hmem => ?_
      obtain ⟨⟨t, below, hbelow, hx⟩, u, under, hunder, hy⟩ := mem_groupsBelow hmem
      obtain ⟨m, rfl, hm⟩ := ha.nests
      have hbelow := below_of_below? hbelow
      have hxset := ha.written.below below hbelow
      have hyset := hb.below under (below_of_below? hunder)
      exact ih (by omega) (within_of_mem hd.ends hxset (hm below hbelow) hx) (written_of_mem hyset hy)
    intro memo hs
    rw [compareOnce_succ]
    split
    · rename_i known hknown
      exact ⟨hs, rfl, fun hnone => hs exclusive a b ha.written hb (hnone ▸ hknown)⟩
    · obtain ⟨hsound, hchecked, hmerges⟩ := hwith memo hs
      refine ⟨fun e x y hx hy hlook => ?_, hchecked, hmerges⟩
      simp only [Std.HashMap.getElem?_insert] at hlook
      split at hlook
      · rename_i hkey
        simp only [beq_iff_eq, ComparisonKey.of, ComparisonKey.mk.injEq] at hkey
        obtain ⟨hpos, hparent, hpos', hparent', rfl⟩ := hkey
        obtain rfl := ha.written.eq_of_pos hd.nodup hx hpos hparent
        obtain rfl := hb.eq_of_pos hd.nodup hy hpos' hparent'
        exact hmerges (Option.some.inj hlook)
      · exact hsound e x y hx hy hlook

/-! ### Checking with a memo -/

/-- A selection set of the document that a memo counts as checked. -/
def InChecked (c : MergeContext) (memo : MergeMemo) (parent : TypeId) (ss : SelectionSet) : Prop :=
  c.document.HasSet ss ∧ (ss.pos, parent) ∈ memo.checked

/-- One memo is behind another one, and all selection sets that were checked in between merge on
their own, with sets below them that are checked as well. -/
structure Behind (c : MergeContext) (memo memo' : MergeMemo) : Prop where
  subset : ∀ p ∈ memo.checked, p ∈ memo'.checked
  merges : ∀ parent ss, c.InChecked memo' parent ss →
    c.InChecked memo parent ss ∨ c.MergesOwn (c.InChecked memo') parent ss

namespace Behind

variable {memo memo' memo'' : MergeMemo}

lemma refl (memo : MergeMemo) : c.Behind memo memo := ⟨fun _ h => h, fun _ _ h => .inl h⟩

lemma mono {t : TypeId} (h : ∀ p ∈ memo.checked, p ∈ memo'.checked) (hss : c.InChecked memo t ss) :
    c.InChecked memo' t ss := ⟨hss.1, h _ hss.2⟩

lemma trans (h : c.Behind memo memo') (h' : c.Behind memo' memo'') : c.Behind memo memo'' := by
  refine ⟨fun p hp => h'.subset p (h.subset p hp), fun parent ss hss => ?_⟩
  rcases h'.merges parent ss hss with hss | hmerges
  · exact (h.merges parent ss hss).imp id fun hmerges => hmerges.mono fun _ _ => mono h'.subset
  · exact .inr hmerges

end Behind

/-- A computation checks selection sets: if it reports nothing, they are checked behind it. -/
def Checks (c : MergeContext) (m : StateM MergeMemo (List Problem))
    (sets : TypeId → SelectionSet → Prop) : Prop :=
  ∀ memo, c.Sound memo → c.Sound (m.run memo).2 ∧
    ((m.run memo).1 = [] → c.Behind memo (m.run memo).2 ∧
      ∀ t below, sets t below → c.InChecked (m.run memo).2 t below)

/-- Problems found one after the other. -/
lemma run_mapM_flatten {α : Type} (g : α → StateM MergeMemo (List Problem)) (a : α) (as : List α)
    (memo : MergeMemo) :
    (do return (← (a :: as).mapM g).flatten : StateM MergeMemo (List Problem)).run memo
      = (((g a).run memo).1
          ++ ((do return (← as.mapM g).flatten : StateM MergeMemo (List Problem)).run
              ((g a).run memo).2).1,
        ((do return (← as.mapM g).flatten : StateM MergeMemo (List Problem)).run
              ((g a).run memo).2).2) := by
  rw [List.mapM_cons]
  rfl

lemma Checks.mapM {α : Type} {g : α → StateM MergeMemo (List Problem)}
    {sets : α → TypeId → SelectionSet → Prop} {as : List α}
    (h : ∀ a ∈ as, c.Checks (g a) (sets a)) :
    c.Checks (do return (← as.mapM g).flatten) fun t below => ∃ a ∈ as, sets a t below := by
  induction as with
  | nil => exact fun memo hs => ⟨hs, fun _ => ⟨.refl memo, by simp⟩⟩
  | cons a as ih =>
    intro memo hs
    obtain ⟨hsound, hfirst⟩ := h a List.mem_cons_self memo hs
    obtain ⟨hsound', hrest⟩ := ih (fun a' ha' => h a' (List.mem_cons_of_mem a ha')) _ hsound
    rw [run_mapM_flatten]
    refine ⟨hsound', fun hnil => ?_⟩
    obtain ⟨hnil, hnil'⟩ := List.append_eq_nil_iff.mp hnil
    obtain ⟨hbehind, hsets⟩ := hfirst hnil
    obtain ⟨hbehind', hsets'⟩ := hrest hnil'
    refine ⟨hbehind.trans hbehind', fun t below hbelow => ?_⟩
    obtain ⟨a', ha', hset⟩ := hbelow
    rcases List.mem_cons.mp ha' with rfl | ha'
    · exact Behind.mono hbehind'.subset (hsets t below hset)
    · exact hsets' t below ⟨a', ha', hset⟩

/-- The comparisons of the fields of a selection set itself. -/
def compareOwn (c : MergeContext) (parent : TypeId) (ss : SelectionSet) :
    StateM MergeMemo (List (Option Problem)) :=
  (pairsWithin (c.fieldGroups parent ss)).mapM fun (key, a, b) => do
    return (← c.compareOnce c.maxLevels false a b).map (conflictProblem key)

/-- The checks of the selection sets below its fields. -/
def checkBelow (c : MergeContext) (steps : Nat) (parent : TypeId) (ss : SelectionSet) :
    StateM MergeMemo (List Problem) := do
  return (← ((c.fieldGroups parent ss).flatMap (·.2)).mapM fun a =>
    match c.below? a with
    | some (t, below) => c.checkOnce steps t below
    | none => return []).flatten

def checkSet (c : MergeContext) (steps : Nat) (parent : TypeId) (ss : SelectionSet) :
    StateM MergeMemo (List Problem) := do
  let own ← c.compareOwn parent ss
  let below ← c.checkBelow steps parent ss
  return own.filterMap id ++ below

lemma checkOnce_succ (c : MergeContext) (steps : Nat) (parent : TypeId) (ss : SelectionSet)
    (memo : MergeMemo) :
    (c.checkOnce (steps + 1) parent ss).run memo =
      if (ss.pos, parent) ∈ memo.checked then ([], memo)
      else (c.checkSet steps parent ss).run
        { memo with checked := memo.checked.insert (ss.pos, parent) } := by
  have hbelow : (fun a : SelectedOn => match a.spec, a.below with
      | some spec, some below => c.checkOnce steps (c.schema.registry.innermost spec.type) below
      | _, _ => (return [] : StateM MergeMemo (List Problem)))
      = fun a => match c.below? a with
        | some (t, below) => c.checkOnce steps t below
        | none => return [] := by
    funext a
    unfold below?
    cases a.spec <;> cases a.below <;> rfl
  have hstep : (c.checkOnce (steps + 1) parent ss).run memo
      = (if memo.checked.contains (ss.pos, parent) = true then pure []
        else do
          modify fun memo => { memo with checked := memo.checked.insert (ss.pos, parent) }
          c.checkSet steps parent ss : StateM MergeMemo (List Problem)).run memo := by
    rw [checkOnce, checkSet, checkBelow, ← hbelow]
    rfl
  rw [hstep]
  by_cases h : (ss.pos, parent) ∈ memo.checked
  · rw [if_pos h, if_pos (Std.HashSet.contains_iff_mem.mpr h)]
    rfl
  · rw [if_neg h, if_neg fun hcontains => h (Std.HashSet.contains_iff_mem.mp hcontains)]
    rfl

lemma compareOwn_keeps (parent : TypeId) (hd : Tidy c.document) (hk : k ≤ c.maxLevels)
    (hss : c.document.HasSet ss) (hnests : c.document.Nests k ss) :
    c.Keeps (c.compareOwn parent ss) fun os => os.filterMap id = [] →
      ∀ key a b, (key, a, b) ∈ pairsWithin (c.fieldGroups parent ss) → c.Merges false a b := by
  have houtcomes : c.Keeps (c.compareOwn parent ss) (List.Forall₂
      (fun p o => o = none → c.Merges false p.2.1 p.2.2)
      (pairsWithin (c.fieldGroups parent ss))) := by
    refine Keeps.mapM fun p hp => ?_
    obtain ⟨ha, hb⟩ := mem_of_mem_pairsWithin hp
    refine (compareOnce_keeps hd hk (within_of_mem hd.ends hss hnests ha)
      (written_of_mem hss hb)).bind fun o ho => .pure fun hnone => ho ?_
    simpa using hnone
  intro memo hs
  obtain ⟨hsound, hchecked, hos⟩ := houtcomes memo hs
  exact ⟨hsound, hchecked, fun hnil key a b hmem => forall_of_outcomes hos hnil (key, a, b) hmem⟩

lemma mem_groups_members : a ∈ (c.fieldGroups parent ss).flatMap (·.2) ↔ a ∈ c.fieldsOf parent ss := by
  rw [fieldGroups_eq, List.mem_flatMap]
  constructor
  · rintro ⟨⟨key, group⟩, hgroup, ha⟩
    obtain ⟨rfl, -⟩ := mem_groupByKey.mp hgroup
    exact (mem_membersOf.mp ha).1
  · intro ha
    have hmem : a ∈ membersOf (·.field.responseKey) a.field.responseKey (c.fieldsOf parent ss) :=
      mem_membersOf.mpr ⟨ha, rfl⟩
    exact ⟨_, mem_groupByKey.mpr ⟨rfl, List.ne_nil_of_mem hmem⟩, hmem⟩

/-- A selection set is known by its place. -/
lemma set_eq_of_pos {ss' : SelectionSet} (hd : Tidy c.document) (hss : c.document.HasSet ss)
    (hss' : c.document.HasSet ss') (hpos : ss.pos = ss'.pos) : ss = ss' :=
  Part.set.inj (List.inj_on_of_nodup_map hd.nodup hss.set_mem hss'.set_mem hpos)

/-- Only one selection set comes to be checked where one is entered. -/
lemma inChecked_of_insert {memo entered : MergeMemo} {t : TypeId} {below : SelectionSet} (hd : Tidy c.document)
    (hss : c.document.HasSet ss) (hentered : entered.checked = memo.checked.insert (ss.pos, parent))
    (h : c.InChecked entered t below) : (t = parent ∧ below = ss) ∨ c.InChecked memo t below := by
  obtain ⟨hset, hmem⟩ := h
  rw [hentered, Std.HashSet.mem_insert, beq_iff_eq] at hmem
  rcases hmem with heq | hmem
  · obtain ⟨hpos, rfl⟩ := Prod.mk.inj heq
    exact .inl ⟨rfl, set_eq_of_pos hd hset hss hpos.symm⟩
  · exact .inr ⟨hset, hmem⟩

/-- Behind the check of a selection set and of the sets below it, all of them are checked. -/
lemma Behind.checkSet {memo entered memo' : MergeMemo} (hd : Tidy c.document)
    (hss : c.document.HasSet ss) (hentered : entered.checked = memo.checked.insert (ss.pos, parent))
    (h : c.Behind entered memo') (hmerges : c.MergesOwn (c.InChecked memo') parent ss) :
    c.Behind memo memo' ∧ c.InChecked memo' parent ss := by
  have hmem : ∀ p, p ∈ entered.checked ↔ (ss.pos, parent) = p ∨ p ∈ memo.checked := by
    simp [hentered]
  refine ⟨⟨fun p hp => h.subset p ((hmem p).mpr (.inr hp)), fun t below hbelow => ?_⟩,
    hss, h.subset _ ((hmem _).mpr (.inl rfl))⟩
  rcases h.merges t below hbelow with hin | hown
  · rcases inChecked_of_insert hd hss hentered hin with ⟨rfl, rfl⟩ | hin
    · exact .inr hmerges
    · exact .inl hin
  · exact .inr hown

/-- The sets below the fields of a selection set are checked if each of them is, one level down. -/
lemma checkBelow_checks (hd : Tidy c.document) (hss : c.document.HasSet ss)
    (hnests : c.document.Nests k ss)
    (hcheck : ∀ m t below, m < k → c.document.HasSet below → c.document.Nests m below →
      c.Checks (c.checkOnce steps t below) fun t' below' => t' = t ∧ below' = below) :
    c.Checks (c.checkBelow steps parent ss) fun t below =>
      ∃ a ∈ (c.fieldGroups parent ss).flatMap (·.2), c.below? a = some (t, below) := by
  refine Checks.mapM fun a ha => ?_
  rw [mem_groups_members] at ha
  obtain ⟨hwritten, m, rfl, hm⟩ := within_of_mem hd.ends hss hnests ha
  cases hbelow : c.below? a with
  | none => exact fun memo hs => ⟨hs, fun _ => ⟨.refl memo, by simp⟩⟩
  | some p =>
    have hunder := below_of_below? hbelow
    have hone := hcheck m p.1 p.2 (Nat.lt_succ_self m) (hwritten.below p.2 hunder) (hm p.2 hunder)
    intro memo hs
    obtain ⟨hsound, hchecks⟩ := hone memo hs
    refine ⟨hsound, fun hnil => ?_⟩
    obtain ⟨hbehind, hall⟩ := hchecks hnil
    refine ⟨hbehind, fun t below h => ?_⟩
    obtain rfl := Option.some.inj h
    exact hall _ _ ⟨rfl, rfl⟩

/-- **The check**: with enough steps, a selection set without a conflict and the sets below it are
checked in the end, and each of them merges on its own. -/
lemma checkOnce_checks (hd : Tidy c.document) (hk : k < steps) (hmax : k ≤ c.maxLevels)
    (hss : c.document.HasSet ss) (hnests : c.document.Nests k ss) :
    c.Checks (c.checkOnce steps parent ss) fun t below => t = parent ∧ below = ss := by
  induction steps generalizing k parent ss with
  | zero => omega
  | succ steps ih =>
    intro memo hs
    rw [checkOnce_succ]
    split
    · rename_i hmem
      refine ⟨hs, fun _ => ⟨.refl memo, ?_⟩⟩
      rintro t below ⟨rfl, rfl⟩
      exact ⟨hss, hmem⟩
    · generalize hmemo : ({ memo with checked := memo.checked.insert (ss.pos, parent) } : MergeMemo)
        = entered
      have hentered : c.Sound entered := hmemo ▸ hs
      obtain ⟨hsound, hchecked, hown⟩ :=
        compareOwn_keeps parent hd hmax hss hnests entered hentered
      have hbelow : c.Checks (c.checkBelow steps parent ss) _ :=
        checkBelow_checks hd hss hnests fun m t below hm hset hnests' =>
          ih (show m < steps by omega) (by omega) hset hnests'
      obtain ⟨hsound', hrest⟩ := hbelow _ hsound
      refine ⟨hsound', fun hnil => ?_⟩
      obtain ⟨hnilOwn, hnilBelow⟩ := List.append_eq_nil_iff.mp hnil
      obtain ⟨hbehind, hall⟩ := hrest hnilBelow
      have hmerges : c.MergesOwn (c.InChecked ((c.checkSet steps parent ss).run entered).2) parent ss :=
        ⟨hown hnilOwn, fun a ha t below hb => hall t below ⟨a, mem_groups_members.mpr ha, hb⟩⟩
      have hinsert := hchecked.trans (congrArg MergeMemo.checked hmemo.symm)
      obtain ⟨hresult, hin⟩ := hbehind.checkSet hd hss hinsert hmerges
      refine ⟨hresult, ?_⟩
      rintro t below ⟨rfl, rfl⟩
      exact hin

/-! ### Nothing to report -/

/-- No conflict is known. -/
def Quiet (memo : MergeMemo) : Prop := ∀ (key : ComparisonKey) (o : Option MergeConflict),
  memo.compared[key]? = some o → o = none

/-- A computation that comes to know of no conflict, and has an outcome in `P`. -/
def StaysQuiet {α : Type} (m : StateM MergeMemo α) (P : α → Prop) : Prop :=
  ∀ memo, Quiet memo → Quiet (m.run memo).2 ∧ P (m.run memo).1

namespace StaysQuiet

variable {α β : Type} {m : StateM MergeMemo α} {P : α → Prop} {Q : β → Prop}

lemma pure {a : α} (h : P a) : StaysQuiet (Pure.pure a) P := fun _ hq => ⟨hq, h⟩

lemma bind {f : α → StateM MergeMemo β} (hm : StaysQuiet m P) (hf : ∀ a, P a → StaysQuiet (f a) Q) :
    StaysQuiet (m >>= f) Q := by
  intro memo hq
  obtain ⟨hquiet, hP⟩ := hm memo hq
  exact hf _ hP _ hquiet

lemma mapM {f : β → StateM MergeMemo α} {bs : List β} (hf : ∀ b ∈ bs, StaysQuiet (f b) P) :
    StaysQuiet (bs.mapM f) fun as => ∀ a ∈ as, P a := by
  induction bs with
  | nil => exact .pure (by simp)
  | cons b bs ih =>
    rw [List.mapM_cons]
    refine (hf b List.mem_cons_self).bind fun a ha => ?_
    refine (ih fun b' hb' => hf b' (List.mem_cons_of_mem b hb')).bind fun as has => ?_
    exact .pure (List.forall_mem_cons.mpr ⟨ha, has⟩)

end StaysQuiet

lemma compareOnce_quiet (h : c.canMerge levels exclusive a b = true) :
    StaysQuiet (c.compareOnce levels exclusive a b) (· = none) := by
  induction levels generalizing exclusive a b with
  | zero => exact .pure rfl
  | succ levels ih =>
    simp only [canMerge, Bool.and_eq_true, Option.isNone_iff_eq_none, List.all_eq_true] at h
    obtain ⟨hown, hbelow⟩ := h
    have hwith : StaysQuiet (c.compareWith (c.compareOnce levels) exclusive a b) (· = none) := by
      unfold compareWith
      dsimp only
      rw [hown]
      refine StaysQuiet.bind (StaysQuiet.mapM (P := (· = none)) fun p hp => ?_) fun os hos => ?_
      · refine (ih (hbelow p hp)).bind fun o ho => .pure ?_
        rw [ho, Option.map_none]
      · refine .pure ?_
        have hnil : os.filterMap id = [] := List.filterMap_eq_nil_iff.mpr hos
        rw [hnil]
        rfl
    intro memo hq
    rw [compareOnce_succ]
    split
    · rename_i known hknown
      exact ⟨hq, hq _ _ hknown⟩
    · obtain ⟨hquiet, hnone⟩ := hwith memo hq
      refine ⟨fun key o hlook => ?_, hnone⟩
      simp only [Std.HashMap.getElem?_insert] at hlook
      split at hlook
      · exact (Option.some.inj hlook).symm.trans hnone
      · exact hquiet key o hlook

lemma checkOnce_quiet (h : c.canMergeAll c.maxLevels steps parent ss = true) :
    StaysQuiet (c.checkOnce steps parent ss) (· = []) := by
  induction steps generalizing parent ss with
  | zero => exact .pure rfl
  | succ steps ih =>
    simp only [canMergeAll, Bool.and_eq_true, List.all_eq_true] at h
    obtain ⟨hown, hbelow⟩ := h
    have hset : StaysQuiet (c.checkSet steps parent ss) (· = []) := by
      refine StaysQuiet.bind (StaysQuiet.mapM (P := (· = none)) fun p hp => ?_) fun os hos => ?_
      · refine (compareOnce_quiet (hown p hp)).bind fun o ho => .pure ?_
        rw [ho, Option.map_none]
      refine StaysQuiet.bind (P := (· = [])) ?_ fun ps hps => .pure ?_
      · refine StaysQuiet.bind (StaysQuiet.mapM (P := (· = [])) fun a ha => ?_) fun pss hpss =>
          .pure (List.flatten_eq_nil_iff.mpr hpss)
        have ha := hbelow a (mem_groups_members.mp ha)
        cases hunder : c.below? a with
        | none => exact .pure rfl
        | some p =>
          rw [hunder] at ha
          exact ih ha
      · have hnil : os.filterMap id = [] := List.filterMap_eq_nil_iff.mpr hos
        rw [hnil, hps]
        rfl
    intro memo hq
    rw [checkOnce_succ]
    split
    · exact ⟨hq, rfl⟩
    · exact hset _ hq

end MergeContext

section

variable {s : Schema} {d : Document} {op : OperationDefinition} {root : TypeId}

lemma mergeProblems_eq (hop : op.type ≠ .subscription) (hroot : s.root? op.type = some root) :
    mergeProblems s d op = ((MergeContext.checkOnce ⟨s, d⟩ (MergeContext.maxLevels ⟨s, d⟩) root
      op.selectionSet).run .empty).1 := by
  unfold mergeProblems
  rw [hroot]
  cases h : op.type <;> simp_all

/-- **Soundness of the check**: if no conflict is reported, all fields of an operation can be merged,
however far down they are compared. -/
theorem mergesAll_of_mergeProblems (hd : MergeContext.Tidy d) (hop : op ∈ d.operations)
    (htype : op.type ≠ .subscription) (hroot : s.root? op.type = some root)
    (h : mergeProblems s d op = []) : MergeContext.MergesAll ⟨s, d⟩ root op.selectionSet := by
  rw [mergeProblems_eq htype hroot] at h
  have hchecks : MergeContext.Checks ⟨s, d⟩
      (MergeContext.checkOnce ⟨s, d⟩ (MergeContext.maxLevels ⟨s, d⟩) root op.selectionSet)
      fun t below => t = root ∧ below = op.selectionSet :=
    MergeContext.checkOnce_checks hd (Nat.lt_succ_self d.maxLevels) (Nat.le_succ d.maxLevels)
      (.operation hop) (Document.nests_operation hop)
  obtain ⟨-, hnil⟩ := hchecks .empty (by
    simp [MergeContext.Sound, MergeContext.MergeMemo.empty])
  obtain ⟨hbehind, hin⟩ := hnil h
  refine MergeContext.mergesAll_of_closed (fun parent ss hss => ?_) (hin _ _ ⟨rfl, rfl⟩)
  refine (hbehind.merges parent ss hss).resolve_left fun hempty => ?_
  simpa [MergeContext.MergeMemo.empty] using hempty.2

/-- **Completeness of the check**: where all fields can be merged, no conflict is reported. -/
theorem mergeProblems_of_canMergeAll (htype : op.type ≠ .subscription)
    (hroot : s.root? op.type = some root)
    (h : MergeContext.canMergeAll ⟨s, d⟩ (MergeContext.maxLevels ⟨s, d⟩)
      (MergeContext.maxLevels ⟨s, d⟩) root op.selectionSet = true) : mergeProblems s d op = [] := by
  rw [mergeProblems_eq htype hroot]
  refine (MergeContext.checkOnce_quiet h .empty ?_).2
  simp [MergeContext.Quiet, MergeContext.MergeMemo.empty]

end

end GraphQL
