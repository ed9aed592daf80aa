import GraphQL.Proofs.Validation.Merge
import GraphQL.Proofs.Validation.Operation

/-!
What is reported of a document of the right structure.

Each report comes from one part of the check: from the fragments where they are defined, from the walk
through an operation, or from the comparison of its fields. That something is not used is said behind the
walk alone, and fragments count as used at their spreads alone. All else that the walk comes across is a
detail.
-/

namespace GraphQL

variable {s : Schema} {d : Document} {op : OperationDefinition} {source : List Char} {p : Problem}
  {e : ValidationError}

/-! ### The parts of the check -/

/-- A document of the right structure gets a report for each problem of its parts. -/
lemma mem_validate (hd : d.definitionProblems = []) (hc : d.cycleProblems = []) :
    e ∈ s.validate d source ↔ ∃ p ∈ d.executionProblems s, p.locate source = e := by
  rw [Schema.validate, List.mem_eraseDups, List.mem_map, Document.problems, hd, hc]
  rfl

lemma mem_executionProblems : p ∈ d.executionProblems s ↔
    p ∈ d.fragmentProblems s ∨ (∃ op ∈ d.operations, .problem p ∈ operationFindings s d op) ∨
      p ∈ d.unusedFragments (d.operations.flatMap (operationFindings s d)) ∨
      ∃ op ∈ d.operations, p ∈ mergeProblems s d op := by
  have hfindings : p ∈ (d.operations.flatMap (operationFindings s d)).filterMap (·.problem?) ↔
      ∃ op ∈ d.operations, .problem p ∈ operationFindings s d op := by
    rw [List.mem_filterMap]
    constructor
    · rintro ⟨f, hf, hp⟩
      obtain ⟨op, hop, hf⟩ := List.mem_flatMap.mp hf
      cases f with
      | problem q => exact ⟨op, hop, Option.some.inj hp ▸ hf⟩
      | variableUse _ => simp [Finding.problem?] at hp
      | fragmentUse _ => simp [Finding.problem?] at hp
    · rintro ⟨op, hop, hp⟩
      exact ⟨_, List.mem_flatMap.mpr ⟨op, hop, hp⟩, rfl⟩
  unfold Document.executionProblems
  dsimp only
  rw [List.mem_append, List.mem_append, List.mem_append, hfindings, List.mem_flatMap, or_assoc,
    or_assoc]

/-- A fragment is reported if no operation has come across a use of it. -/
lemma mem_unusedFragments : p ∈ d.unusedFragments (d.operations.flatMap (operationFindings s d)) ↔
    ∃ f ∈ d.fragments,
      (¬ ∃ op ∈ d.operations, .fragmentUse f.name.text ∈ operationFindings s d op) ∧
      p = .ofCause (.unusedFragment f.name.text) [f.pos] := by
  have hused (name : String) :
      name ∈ (d.operations.flatMap (operationFindings s d)).filterMap (·.usedFragment?) ↔
        ∃ op ∈ d.operations, .fragmentUse name ∈ operationFindings s d op := by
    rw [List.mem_filterMap]
    constructor
    · rintro ⟨f, hf, hname⟩
      obtain ⟨op, hop, hf⟩ := List.mem_flatMap.mp hf
      cases f with
      | problem _ => simp [Finding.usedFragment?] at hname
      | variableUse _ => simp [Finding.usedFragment?] at hname
      | fragmentUse n => exact ⟨op, hop, Option.some.inj hname ▸ hf⟩
    · rintro ⟨op, hop, hname⟩
      exact ⟨_, List.mem_flatMap.mpr ⟨op, hop, hname⟩, rfl⟩
  simp only [Document.unusedFragments, List.mem_map, List.mem_filter, List.contains_eq_mem,
    Bool.not_eq_true', decide_eq_false_iff_not, hused, and_assoc, eq_comm (a := p)]

/-- Operations of a document of the right structure are told apart by their names. -/
lemma eq_of_nameText? (hd : d.definitionProblems = []) {op' : OperationDefinition}
    (hop : op ∈ d.operations) (hop' : op' ∈ d.operations) (h : op.nameText? = op'.nameText?) :
    op = op' := by
  have hnodup := (Document.definitionProblems_eq_nil_iff.mp hd).operations_nodup
  exact List.inj_on_of_nodup_map hnodup hop hop' h

/-! ### Conflicts -/

namespace MergeContext

variable {c : MergeContext} {α β : Type} {m : StateM MergeMemo α} {P : α → Prop} {Q : β → Prop}

/-- Whatever is remembered, a computation has an outcome in `P`. -/
def Results (m : StateM MergeMemo α) (P : α → Prop) : Prop := ∀ memo, P (m.run memo).1

lemma Results.pure {a : α} (h : P a) : Results (Pure.pure a) P := fun _ => h

lemma Results.bind {f : α → StateM MergeMemo β} (hm : Results m P) (hf : ∀ a, P a → Results (f a) Q) :
    Results (m >>= f) Q := fun memo => hf _ (hm memo) _

lemma Results.mapM {f : β → StateM MergeMemo α} {bs : List β} (hf : ∀ b, Results (f b) P) :
    Results (bs.mapM f) fun as => ∀ a ∈ as, P a := by
  induction bs with
  | nil => exact .pure (by simp)
  | cons b bs ih =>
    rw [List.mapM_cons]
    exact (hf b).bind fun a ha => ih.bind fun as has => .pure (List.forall_mem_cons.mpr ⟨ha, has⟩)

def IsConflict (p : Problem) : Prop := ∃ key m, p = conflictProblem key m

lemma checkOnce_conflicts (steps : Nat) (parent : TypeId) (ss : SelectionSet) :
    Results (c.checkOnce steps parent ss) fun ps => ∀ p ∈ ps, IsConflict p := by
  induction steps generalizing parent ss with
  | zero => exact .pure (by simp)
  | succ steps ih =>
    have hown : Results (c.compareOwn parent ss) fun os => ∀ o ∈ os, ∀ p ∈ o, IsConflict p := by
      refine .mapM fun p => .bind (P := fun _ => True) (fun _ => trivial) fun o _ => .pure ?_
      rintro _ hp
      obtain ⟨m, -, rfl⟩ := Option.map_eq_some_iff.mp hp
      exact ⟨_, m, rfl⟩
    have hbelow : Results (c.checkBelow steps parent ss) fun ps => ∀ p ∈ ps, IsConflict p := by
      refine .bind (P := fun pss => ∀ ps ∈ pss, ∀ p ∈ ps, IsConflict p) (.mapM fun a => ?_)
        fun pss hpss => .pure fun p hp => ?_
      · cases c.below? a with
        | none => exact .pure (by simp)
        | some under => exact ih under.1 under.2
      · obtain ⟨ps, hps, hp⟩ := List.mem_flatten.mp hp
        exact hpss ps hps p hp
    have hset : Results (c.checkSet steps parent ss) fun ps => ∀ p ∈ ps, IsConflict p := by
      refine hown.bind fun os hos => hbelow.bind fun ps hps => .pure fun p hp => ?_
      rcases List.mem_append.mp hp with hp | hp
      · obtain ⟨o, ho, hop⟩ := List.mem_filterMap.mp hp
        exact hos o ho p hop
      · exact hps p hp
    intro memo
    rw [checkOnce_succ]
    split
    · simp
    · exact hset _

end MergeContext

/-- The comparison of fields reports conflicts and nothing else. -/
lemma isConflict_of_mergeProblems (h : p ∈ mergeProblems s d op) : MergeContext.IsConflict p := by
  unfold mergeProblems at h
  dsimp only at h
  split at h
  · simp at h
  · simp at h
  · exact MergeContext.checkOnce_conflicts _ _ _ _ p h

/-! ### Details -/

/-- A report that something is not used. -/
def ValidationCause.isUnused : ValidationCause → Bool
  | unusedVariable .. | unusedFragment _ => true
  | _ => false

/-- What the walk comes across apart from uses of fragments. -/
def Finding.IsDetail : Finding → Prop
  | problem p => p.cause.isUnused = false
  | variableUse _ => True
  | fragmentUse _ => False

def Details (fs : List Finding) : Prop := ∀ f ∈ fs, f.IsDetail

namespace Details

variable {fs gs : List Finding}

@[simp] lemma nil : Details [] := by simp [Details]

@[simp] lemma cons_iff {f : Finding} : Details (f :: fs) ↔ f.IsDetail ∧ Details fs :=
  List.forall_mem_cons

@[simp] lemma append_iff : Details (fs ++ gs) ↔ Details fs ∧ Details gs := List.forall_mem_append

lemma flatMap {α : Type} {g : α → List Finding} {as : List α} (h : ∀ a ∈ as, Details (g a)) :
    Details (as.flatMap g) := by
  intro f hf
  obtain ⟨a, ha, hf⟩ := List.mem_flatMap.mp hf
  exact h a ha f hf

lemma map_problem {α : Type} {g : α → Problem} {as : List α}
    (h : ∀ a ∈ as, (g a).cause.isUnused = false) : Details (as.map fun a => .problem (g a)) := by
  intro f hf
  obtain ⟨a, ha, rfl⟩ := List.mem_map.mp hf
  exact h a ha

end Details

/-- What is wrong with the place of a directive. -/
lemma Schema.isUnused_of_misplaced {location : DirectiveLocation} {ds : List Directive}
    (h : p ∈ s.misplacedDirectives location ds) : p.cause.isUnused = false := by
  suffices hall : ∀ seen, ∀ q, .error q ∈ s.placeDirectives location seen ds →
      q.cause.isUnused = false by
    obtain ⟨r, hr, hp⟩ := List.mem_filterMap.mp h
    cases r with
    | error q => exact hall [] p (Option.some.inj hp ▸ hr)
    | ok _ => simp at hp
  clear h
  induction ds with
  | nil => simp [placeDirectives]
  | cons d ds ih =>
    intro seen q hq
    rw [placeDirectives] at hq
    split at hq
    · rcases List.mem_cons.mp hq with heq | hq
      · obtain rfl := Except.error.inj heq
        rfl
      · exact ih seen q hq
    · split at hq
      · rcases List.mem_cons.mp hq with heq | hq
        · obtain rfl := Except.error.inj heq
          rfl
        · exact ih seen q hq
      · rcases List.mem_cons.mp hq with heq | hq
        · split at heq
          · obtain rfl := Except.error.inj heq
            rfl
          · simp at heq
        · exact ih _ q hq

namespace OperationContext

variable {c : OperationContext} {path : Path} {parent t : TypeId}

lemma uses_details (v : Literal) : Details (uses v) := by
  intro f hf
  obtain ⟨use, -, rfl⟩ := List.mem_map.mp hf
  trivial

lemma variableProblem_detail {hasDefault : Bool} {name : String} {pos : Pos} :
    Details ((c.variableProblem path t hasDefault name pos).map Finding.problem).toList := by
  unfold variableProblem
  split
  · simp [Finding.IsDetail, ValidationCause.isUnused]
  · split <;> simp [Finding.IsDetail, ValidationCause.isUnused]

mutual

lemma literalFindings_details (path : Path) : ∀ (t : TypeId) (hasDefault : Bool) (v : Literal),
    Details (c.literalFindings path t hasDefault v)
  | _, _, .null _ => by simp [literalFindings]
  | _, _, .var name p => by
    rw [literalFindings, Details.cons_iff]
    exact ⟨trivial, variableProblem_detail⟩
  | _, _, .scalar .. => by simp [literalFindings]
  | t, _, .list items p => by
    rw [literalFindings]
    split
    · exact itemFindings_details path _ items
    · exact uses_details _
  | t, _, .object fields _ => by
    rw [literalFindings]
    exact fieldFindings_details path _ fields

lemma itemFindings_details (path : Path) : ∀ (t : TypeId) (vs : List Literal),
    Details (c.itemFindings path t vs)
  | _, [] => by simp [itemFindings]
  | t, v :: vs => by
    rw [itemFindings, Details.append_iff]
    exact ⟨literalFindings_details path t false v, itemFindings_details path t vs⟩

lemma fieldFindings_details (path : Path) : ∀ (declared : List InputSpec)
    (fields : List (Name × Literal)), Details (c.fieldFindings path declared fields)
  | _, [] => by simp [fieldFindings]
  | declared, (n, v) :: fs => by
    rw [fieldFindings, Details.append_iff]
    refine ⟨?_, fieldFindings_details path declared fs⟩
    split
    · exact literalFindings_details path _ _ v
    · exact uses_details v

end

lemma valueFindings_details (d : InputSpec) (v : Literal) : Details (c.valueFindings path d v) := by
  unfold valueFindings
  exact Details.append_iff.mpr ⟨literalFindings_details path _ _ v, .map_problem fun _ _ => rfl⟩

lemma suppliedFindings_details (owner : String) (declared : List InputSpec)
    (seen : List (String × Pos)) (args : List Argument) :
    Details (c.suppliedFindings path owner declared seen args) := by
  induction args generalizing seen with
  | nil => simp [suppliedFindings]
  | cons a args ih =>
    rw [suppliedFindings, Details.append_iff]
    refine ⟨?_, ih _⟩
    split
    · simp [Finding.IsDetail, ValidationCause.isUnused]
    · split
      · exact valueFindings_details _ _
      · rw [Details.append_iff]
        exact ⟨uses_details _, by simp [Finding.IsDetail, ValidationCause.isUnused]⟩

lemma argumentFindings_details (owner : String) (pos : Pos) (declared : List InputSpec)
    (args : List Argument) : Details (c.argumentFindings path owner pos declared args) :=
  Details.append_iff.mpr ⟨suppliedFindings_details owner declared [] args, .map_problem fun _ _ => rfl⟩

lemma argumentUses_details (args : List Argument) : Details (argumentUses args) :=
  .flatMap fun a _ => uses_details a.value

lemma directiveFindings_details (location : DirectiveLocation) (ds : List Directive) :
    Details (c.directiveFindings path location ds) := by
  refine Details.append_iff.mpr ⟨Details.append_iff.mpr ⟨?_, ?_⟩, ?_⟩
  · exact .flatMap fun d _ => argumentUses_details d.arguments
  · intro f hf
    obtain ⟨p, hp, rfl⟩ := List.mem_map.mp hf
    exact Schema.isUnused_of_misplaced hp
  · exact .flatMap fun d _ => argumentFindings_details _ _ _ _

lemma fieldFindingsAt_details (f : Field) (below : Option SelectionSet) :
    Details (c.fieldFindingsAt path parent f below) := by
  refine Details.append_iff.mpr ⟨directiveFindings_details _ _, ?_⟩
  split
  · exact Details.append_iff.mpr ⟨argumentUses_details _, by
      simp [Finding.IsDetail, ValidationCause.isUnused]⟩
  · refine Details.append_iff.mpr ⟨argumentFindings_details _ _ _ _, ?_⟩
    unfold belowFindings
    dsimp only
    split
    · split <;> simp [Finding.IsDetail, ValidationCause.isUnused]
    · cases below <;> simp [Finding.IsDetail, ValidationCause.isUnused]

lemma impossibleSpread_details (fragment : Option String) (pos : Pos) :
    Details (c.impossibleSpread fragment parent t pos) := by
  unfold impossibleSpread
  split <;> simp [Finding.IsDetail, ValidationCause.isUnused, Problem.ofCause]

lemma inlineFindings_details (i : InlineFragment) : Details (c.inlineFindings path parent i) := by
  refine Details.append_iff.mpr ⟨directiveFindings_details _ _, ?_⟩
  cases hi : i.typeCondition with
  | none => simp [inlineType, hi]
  | some n =>
    cases ht : c.schema.typeId? n.text with
    | none => simp [inlineType, hi, ht, Finding.IsDetail, ValidationCause.isUnused, Problem.ofCause]
    | some t =>
      by_cases hcomposite : c.schema.isComposite t = true
      · simpa [inlineType, hi, ht, hcomposite] using impossibleSpread_details none i.pos
      · simp [inlineType, hi, ht, hcomposite, Finding.IsDetail, ValidationCause.isUnused,
          Problem.ofCause]

/-- At a spread there are details, and the use of the fragment if the document has it. -/
lemma mem_spreadFindings {u : FragmentSpread} {f : Finding}
    (h : f ∈ c.spreadFindings path parent u) : f.IsDetail ∨
      ∃ g, c.document.fragment? u.name.text = some g ∧ f = .fragmentUse g.name.text := by
  rcases List.mem_append.mp h with h | h
  · exact .inl (directiveFindings_details _ _ f h)
  · split at h
    · rw [List.mem_singleton] at h
      subst h
      exact .inl rfl
    · rename_i g hg
      rcases List.mem_append.mp h with h | h
      · exact .inr ⟨g, hg, List.mem_singleton.mp h⟩
      · split at h
        · simp at h
        · exact .inl (impossibleSpread_details _ _ f h)

end OperationContext

end GraphQL
