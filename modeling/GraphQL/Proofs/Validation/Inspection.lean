import GraphQL.Execution.Prepared
import GraphQL.Proofs.Document.Nested
import GraphQL.Proofs.Validation.Report

/-!
The selections of an operation that are looked at.

The walk through an operation follows types: it goes below a field that is known and can have selections
below it, and into fragments on types of that kind. All that it looks at belongs to the operation. Where
it turns back, the reason is reported; so an operation without such a report is looked at altogether.
-/

namespace GraphQL

/-! ### Looking at selections -/

/-- The type that a condition names, if fields can be selected on it. -/
def Schema.conditionType? (s : Schema) (condition : Name) : Option TypeId :=
  (s.typeId? condition.text).filter s.isComposite

/-- Looking at a selection on one type leads to looking at another selection. -/
inductive Schema.Inspects (s : Schema) (d : Document) :
    TypeId → Selection → TypeId → Selection → Prop where
  | refl (parent : TypeId) (sel : Selection) : Inspects s d parent sel parent sel
  | field {parent t : TypeId} {f : Field} {below : SelectionSet} {spec : FieldSpec}
      {sel sel' : Selection} (known : s.field? parent f.name.text = some spec)
      (composite : s.isComposite spec.type = true) (mem : sel ∈ below.selections)
      (rest : Inspects s d (s.registry.innermost spec.type) sel t sel') :
      Inspects s d parent (.field f (some below)) t sel'
  | spread {parent u t : TypeId} {sp : FragmentSpread} {f : FragmentDefinition}
      {sel sel' : Selection} (fragment : d.fragment? sp.name.text = some f)
      (type : s.conditionType? f.typeCondition = some u) (mem : sel ∈ f.selectionSet.selections)
      (rest : Inspects s d u sel t sel') : Inspects s d parent (.spread sp) t sel'
  | inline {parent u t : TypeId} {i : InlineFragment} {below : SelectionSet}
      {sel sel' : Selection}
      (type : u = parent ∧ i.typeCondition = none ∨
        ∃ n, i.typeCondition = some n ∧ s.conditionType? n = some u)
      (mem : sel ∈ below.selections) (rest : Inspects s d u sel t sel') :
      Inspects s d parent (.inline i below) t sel'

namespace Schema.Inspects

variable {s : Schema} {d : Document} {a b c : TypeId} {sel sel' sel'' : Selection}

lemma trans (h : s.Inspects d a sel b sel') (h' : s.Inspects d b sel' c sel'') :
    s.Inspects d a sel c sel'' := by
  induction h with
  | refl => exact h'
  | field known composite mem _ ih => exact .field known composite mem (ih h')
  | spread fragment type mem _ ih => exact .spread fragment type mem (ih h')
  | inline type mem _ ih => exact .inline type mem (ih h')

/-- What is looked at is written below the selection, or in a fragment that a spread there leads to. -/
lemma holds (h : s.Inspects d a sel b sel') {ss : SelectionSet} (hsel : sel ∈ ss.selections) :
    d.Holds ss sel' := by
  have hinner {x y : Selection} {inner below : SelectionSet} (hx : x.inner? = some below)
      (hmem : x ∈ inner.selections) (hy : d.Holds below y) : d.Holds inner y := by
    rcases hy with hy | ⟨g, hg, ⟨hsome, u, hu, hpath⟩, hy⟩
    · refine .inl ?_
      rw [SelectionSet.nested_eq]
      refine List.mem_flatMap.mpr ⟨x, hmem, ?_⟩
      rw [Selection.nested_inner hx]
      exact List.mem_cons_of_mem x hy
    · have hspread := SelectionSet.mem_spreads.mpr ⟨x, hmem, (Selection.spreads_inner hx).symm ▸ hu⟩
      exact .inr ⟨g, hg, ⟨hsome, u, hspread, hpath⟩, hy⟩
  induction h generalizing ss with
  | refl _ sel =>
    rw [Document.Holds, SelectionSet.nested_eq]
    exact .inl (List.mem_flatMap.mpr ⟨sel, hsel, sel.self_mem_nested⟩)
  | field _ _ mem _ ih => exact hinner rfl hsel (ih mem)
  | @spread _ _ _ sp f _ _ fragment _ mem _ ih =>
    have hspread : sp ∈ ss.spreads :=
      SelectionSet.mem_spreads.mpr ⟨_, hsel, List.mem_singleton_self sp⟩
    have hf : d.fragment? f.name.text = some f := (Document.fragment?_name fragment).symm ▸ fragment
    exact .of_leads hf (Document.leadsTo_of_mem hspread fragment) (ih mem)
  | inline _ mem _ ih => exact hinner rfl hsel (ih mem)

end Schema.Inspects

/-! ### Turning back -/

/-- What is below a selection, or behind it, is not looked at. -/
inductive Schema.TurnsBack (s : Schema) (d : Document) (parent : TypeId) : Selection → Prop where
  | unknown {f : Field} {below : SelectionSet} (unknown : s.field? parent f.name.text = none) :
      TurnsBack s d parent (.field f (some below))
  | leaf {f : Field} {below : SelectionSet} {spec : FieldSpec}
      (known : s.field? parent f.name.text = some spec) (leaf : s.isComposite spec.type = false) :
      TurnsBack s d parent (.field f (some below))
  | spread {sp : FragmentSpread} {f : FragmentDefinition}
      (fragment : d.fragment? sp.name.text = some f)
      (type : s.conditionType? f.typeCondition = none) : TurnsBack s d parent (.spread sp)
  | inline {i : InlineFragment} {below : SelectionSet} {n : Name}
      (condition : i.typeCondition = some n) (type : s.conditionType? n = none) :
      TurnsBack s d parent (.inline i below)

/-- Where there is no turning back, all that is written below a selection is looked at. -/
lemma Schema.inspects_nested {s : Schema} {d : Document} (sel : Selection) {parent : TypeId}
    (hgo : ∀ t sel', s.Inspects d parent sel t sel' → ¬ s.TurnsBack d t sel') :
    ∀ sel' ∈ sel.nested, ∃ t, s.Inspects d parent sel t sel' := by
  induction sel using Selection.induct generalizing parent with
  | step sel ih =>
    have hself : ∃ t, s.Inspects d parent sel t sel := ⟨parent, .refl _ _⟩
    have hstay : ¬ s.TurnsBack d parent sel := hgo parent sel (.refl _ _)
    cases hinner : sel.inner? with
    | none =>
      intro sel' hsel'
      rw [Selection.nested_leaf hinner, List.mem_singleton] at hsel'
      exact hsel' ▸ hself
    | some inner =>
      obtain ⟨u, hstep⟩ : ∃ u, ∀ x ∈ inner.selections, s.Inspects d parent sel u x := by
        cases sel with
        | field f below =>
          obtain rfl : below = some inner := hinner
          cases hspec : s.field? parent f.name.text with
          | none => exact absurd (.unknown hspec) hstay
          | some spec =>
            cases hcomposite : s.isComposite spec.type with
            | false => exact absurd (.leaf hspec hcomposite) hstay
            | true => exact ⟨_, fun x hx => .field hspec hcomposite hx (.refl _ _)⟩
        | spread sp => simp [Selection.inner?] at hinner
        | inline i below =>
          obtain rfl : below = inner := Option.some.inj hinner
          cases hn : i.typeCondition with
          | none => exact ⟨parent, fun x hx => .inline (.inl ⟨rfl, hn⟩) hx (.refl _ _)⟩
          | some n =>
            cases hu : s.conditionType? n with
            | none => exact absurd (.inline hn hu) hstay
            | some u => exact ⟨u, fun x hx => .inline (.inr ⟨n, hn, hu⟩) hx (.refl _ _)⟩
      intro sel' hsel'
      rw [Selection.nested_inner hinner] at hsel'
      rcases List.mem_cons.mp hsel' with rfl | hsel'
      · exact hself
      · rw [SelectionSet.nested_eq] at hsel'
        obtain ⟨x, hx, hsel'⟩ := List.mem_flatMap.mp hsel'
        obtain ⟨t, ht⟩ := ih inner hinner x hx
          (fun t y hy => hgo t y ((hstep x hx).trans hy)) sel' hsel'
        exact ⟨t, (hstep x hx).trans ht⟩

namespace OperationContext

/-! ### What the walk comes across -/

variable {c : OperationContext} {path : Path} {parent t : TypeId} {sel sel' : Selection}

lemma exists_inlineType_eq_ok {i : InlineFragment} :
    (∃ fs, c.inlineType parent i = .ok (fs, t)) ↔ t = parent ∧ i.typeCondition = none ∨
      ∃ n, i.typeCondition = some n ∧ c.schema.conditionType? n = some t := by
  unfold inlineType Schema.conditionType?
  cases i.typeCondition with
  | none => simp [eq_comm]
  | some n =>
    cases hu : c.schema.typeId? n.text with
    | none => simp [hu]
    | some u =>
      by_cases hcomposite : c.schema.isComposite u = true
      · simp [hu, hcomposite, Option.filter]
      · simp [hu, hcomposite, Option.filter]

/-- The walk follows the types. -/
lemma inspects_of_meets {place place' : Path × TypeId}
    (h : c.walker.Meets c.document place sel place' sel') :
    c.schema.Inspects c.document place.2 sel place'.2 sel' := by
  induction h with
  | refl place sel => exact .refl _ _
  | @inside place _ _ sel _ _ inner next isInner mem _ ih =>
    obtain ⟨path, parent⟩ := place
    cases sel with
    | field f below =>
      obtain rfl : below = some inner := isInner
      rw [walker_next_field] at next
      obtain ⟨t, ht, rfl⟩ := Option.map_eq_some_iff.mp next
      obtain ⟨spec, hspec, hif⟩ := Option.bind_eq_some_iff.mp ht
      obtain ⟨hcomposite, rfl⟩ : c.schema.isComposite spec.type = true ∧
          c.schema.registry.innermost spec.type = t := by simpa using hif
      exact .field hspec hcomposite mem ih
    | spread s => simp [Selection.inner?] at isInner
    | inline i below =>
      obtain rfl : below = inner := Option.some.inj isInner
      rw [walker_next_inline] at next
      split at next
      · simp at next
      · rename_i fs t ht
        obtain rfl := Option.some.inj next
        exact .inline (exists_inlineType_eq_ok.mp ⟨fs, ht⟩) mem ih
  | @spread place _ _ _ s f _ _ next fragment body mem _ ih =>
    obtain ⟨t, ht, rfl⟩ := Option.map_eq_some_iff.mp body
    exact .spread fragment ht mem ih

/-- What is looked at is accounted for by the walk. -/
lemma covers_of_inspects {fs : List Finding} {entered : List String}
    (hbodies : ∀ name ∈ entered, c.walker.CoversBody c.document fs entered name)
    (h : c.schema.Inspects c.document parent sel t sel')
    (hcovers : c.walker.Covers fs entered (path, parent) sel) :
    ∃ path', c.walker.Covers fs entered (path', t) sel' := by
  induction h generalizing path with
  | refl => exact ⟨path, hcovers⟩
  | @field parent _ f below spec _ _ known composite mem _ ih =>
    have hnext : c.walker.next (path, parent) (.field f (some below))
        = some (path ++ [.key f.responseKey], c.schema.registry.innermost spec.type) := by
      simp [belowType?, known, composite]
    exact ih (hcovers.inside hnext rfl mem)
  | @spread parent u _ sp f _ _ fragment type mem _ ih =>
    have hkind : c.fragmentType? f = some u := type
    have hnext : c.walker.next (path, parent) (.spread sp) = some (path, parent) := by
      simp [fragment, hkind]
    obtain ⟨place, hbody⟩ := hbodies _ (hcovers.spread hnext)
    have hplace : c.walker.body place f = some (place.1, u) := by
      rw [← Prod.mk.eta (p := place), walker_body, hkind, Option.map_some]
    exact ih (hbody f _ fragment hplace _ mem)
  | @inline parent u _ i below _ _ type mem _ ih =>
    obtain ⟨fs', hok⟩ := exists_inlineType_eq_ok.mpr type
    have hnext : c.walker.next (path, parent) (.inline i below) = some (path, u) := by simp [hok]
    exact ih (hcovers.inside hnext rfl mem)

/-- An operation leads to looking at a selection, with this root type. -/
def Inspects (c : OperationContext) (root t : TypeId) (sel : Selection) : Prop :=
  ∃ start ∈ c.operation.selectionSet.selections, c.schema.Inspects c.document root start t sel

variable {root : TypeId} {f : Finding}

/-- **What the walk comes across** stands at the selections that it looks at. -/
lemma exists_of_mem_rootFindings (h : f ∈ c.rootFindings root) :
    ∃ t sel, c.Inspects root t sel ∧ ∃ path, f ∈ c.walker.own (path, t) sel := by
  rw [rootFindings_eq] at h
  have hruns := Walker.selections_runs (c.walker.enter_entersWithin c.document _) ([], root)
    c.operation.selectionSet.selections [] (Walker.unentered_nil_le c.document)
  obtain ⟨start, hstart, ⟨path, t⟩, sel, hmeets, hown⟩ := hruns.met f h
  exact ⟨t, sel, ⟨start, hstart, inspects_of_meets hmeets⟩, path, hown⟩

/-- All that stands at a selection that is looked at is come across on some path. -/
lemma mem_rootFindings (h : c.Inspects root t sel) :
    ∃ path, ∀ f ∈ c.walker.own (path, t) sel, f ∈ c.rootFindings root := by
  obtain ⟨start, hstart, hinspects⟩ := h
  obtain ⟨entered, hcovers, hbodies⟩ := c.walker.walk_covers c.document ([], root)
    c.operation.selectionSet.selections
  obtain ⟨path, hsel⟩ := covers_of_inspects hbodies hinspects (hcovers start hstart)
  rw [rootFindings_eq]
  exact ⟨path, hsel.own⟩

/-- The operation does not turn back anywhere. -/
def GoesOn (c : OperationContext) (root : TypeId) : Prop :=
  ∀ t sel, c.Inspects root t sel → ¬ c.schema.TurnsBack c.document t sel

/-- Behind a spread, the body of its fragment is looked at. -/
lemma GoesOn.body (hgo : c.GoesOn root) {sp : FragmentSpread} {g : FragmentDefinition}
    (h : c.Inspects root t (.spread sp)) (hg : c.document.fragment? sp.name.text = some g) :
    ∀ sel ∈ g.selectionSet.nested, ∃ u, c.Inspects root u sel := by
  intro sel hsel
  obtain ⟨start, hstart, hinspects⟩ := h
  rw [SelectionSet.nested_eq] at hsel
  obtain ⟨x, hx, hsel⟩ := List.mem_flatMap.mp hsel
  cases hu : c.schema.conditionType? g.typeCondition with
  | none => exact absurd (.spread hg hu) (hgo t _ ⟨start, hstart, hinspects⟩)
  | some u =>
    have hx : c.schema.Inspects c.document root start u x :=
      hinspects.trans (.spread hg hu hx (.refl _ _))
    obtain ⟨t', ht'⟩ := Schema.inspects_nested x
      (fun t y hy => hgo t y ⟨start, hstart, hx.trans hy⟩) sel hsel
    exact ⟨t', start, hstart, hx.trans ht'⟩

/-- Where there is no turning back, all that belongs to the operation is looked at. -/
lemma GoesOn.inspects (hgo : c.GoesOn root) (h : c.document.Holds c.operation.selectionSet sel) :
    ∃ t, c.Inspects root t sel := by
  have hown : ∀ x ∈ c.operation.selectionSet.nested, ∃ t, c.Inspects root t x := by
    intro x hx
    rw [SelectionSet.nested_eq] at hx
    obtain ⟨start, hstart, hx⟩ := List.mem_flatMap.mp hx
    obtain ⟨t, ht⟩ := Schema.inspects_nested start
      (fun t y hy => hgo t y ⟨start, hstart, hy⟩) x hx
    exact ⟨t, start, hstart, ht⟩
  rcases h with h | ⟨f, hf, ⟨-, s, hs, hpath⟩, h⟩
  · exact hown sel h
  · -- along the way to the fragment, each spread is looked at
    have hspread : ∀ name, Relation.ReflTransGen c.document.Uses s.name.text name →
        ∃ t sp, c.Inspects root t (.spread sp) ∧ sp.name.text = name := by
      intro name hname
      induction hname with
      | refl =>
        obtain ⟨t, ht⟩ := hown _ (SelectionSet.mem_spreads_iff.mp hs)
        exact ⟨t, s, ht, rfl⟩
      | tail _ huses ih =>
        obtain ⟨t, sp, hsp, rfl⟩ := ih
        obtain ⟨g, u, hg, hu, rfl⟩ := huses
        obtain ⟨t', ht'⟩ := hgo.body hsp hg _ (SelectionSet.mem_spreads_iff.mp hu)
        exact ⟨t', u, ht', rfl⟩
    obtain ⟨t, sp, hsp, hname⟩ := hspread _ hpath
    exact hgo.body hsp (hname ▸ hf) sel h

/-! ### The findings of an operation -/

variable {s : Schema} {d : Document} {op : OperationDefinition} {ds : List VariableDefinition}

lemma declareAll_keeps (c : OperationContext) (ds : List VariableDefinition) :
    (c.declareAll ds).1 = { c with declared := (c.declareAll ds).1.declared } := by
  induction ds generalizing c with
  | nil => rfl
  | cons d ds ih =>
    rw [declareAll]
    cases c.declared? d.name.text with
    | some first => exact ih c
    | none => exact ih { c with declared := c.declared ++ [⟨d, (c.declare d).1⟩] }

lemma declare_details (d : VariableDefinition) : Details (c.declare d).2 := by
  unfold declare
  dsimp only
  split
  · simp [Finding.IsDetail, ValidationCause.isUnused, Problem.ofCause]
  · split
    · exact .map_problem fun _ _ => rfl
    · simp [Finding.IsDetail, ValidationCause.isUnused, Problem.ofCause]

lemma declareAll_details (ds : List VariableDefinition) : Details (c.declareAll ds).2 := by
  induction ds generalizing c with
  | nil => simp [declareAll]
  | cons d ds ih =>
    rw [declareAll]
    cases c.declared? d.name.text with
    | some first => exact Details.cons_iff.mpr ⟨rfl, ih⟩
    | none =>
      exact Details.append_iff.mpr
        ⟨Details.append_iff.mpr ⟨directiveFindings_details _ _, declare_details d⟩, ih⟩

/-- What an operation is checked against, behind the declarations of its variables. -/
def declaredBy (s : Schema) (d : Document) (op : OperationDefinition) : OperationContext :=
  ((OperationContext.mk s d op []).declareAll op.variableDefinitions).1

@[simp] lemma declaredBy_schema : (declaredBy s d op).schema = s := by
  rw [declaredBy, declareAll_keeps]

@[simp] lemma declaredBy_document : (declaredBy s d op).document = d := by
  rw [declaredBy, declareAll_keeps]

@[simp] lemma declaredBy_operation : (declaredBy s d op).operation = op := by
  rw [declaredBy, declareAll_keeps]

lemma declaredBy_inspects : (declaredBy s d op).Inspects root t sel ↔
    ∃ start ∈ op.selectionSet.selections, s.Inspects d root start t sel := by
  simp only [OperationContext.Inspects, declaredBy_schema, declaredBy_document, declaredBy_operation]

/-- What is come across in front of the selections. -/
def headFindings (s : Schema) (d : Document) (op : OperationDefinition) : List Finding :=
  ((OperationContext.mk s d op []).declareAll op.variableDefinitions).2
    ++ (declaredBy s d op).root.2.2
    ++ (declaredBy s d op).directiveFindings [] (declaredBy s d op).root.2.1 op.directives

lemma headFindings_details : Details (headFindings s d op) := by
  refine Details.append_iff.mpr ⟨Details.append_iff.mpr ⟨declareAll_details _, ?_⟩,
    directiveFindings_details _ _⟩
  unfold OperationContext.root
  rw [declaredBy_operation]
  cases op.type with
  | query => exact .nil
  | mutation =>
    dsimp only
    split
    · simp [Finding.IsDetail, ValidationCause.isUnused, Problem.ofCause]
    · exact .nil
  | subscription => simp [Finding.IsDetail, ValidationCause.isUnused, Problem.ofCause]

/-- The walk starts at the root type that the operation is executed on. -/
lemma root_eq_some : (declaredBy s d op).root.1 = some root ↔ s.executableRoot op.type = .ok root := by
  unfold OperationContext.root Schema.executableRoot
  rw [declaredBy_operation, declaredBy_schema]
  cases op.type with
  | query => simp
  | mutation => cases s.mutation <;> simp
  | subscription => simp

/-- What is come across in an operation that has a root type. -/
lemma operationFindings_of_root (h : s.executableRoot op.type = .ok root) :
    operationFindings s d op = headFindings s d op ++ (declaredBy s d op).rootFindings root
      ++ (declaredBy s d op).unusedVariables
        (headFindings s d op ++ (declaredBy s d op).rootFindings root) := by
  have hroot : (declaredBy s d op).root.1 = some root := root_eq_some.mpr h
  rw [declaredBy] at hroot
  unfold operationFindings
  dsimp only
  rw [hroot]
  rfl

/-- An operation without a root type is left behind its head. -/
lemma operationFindings_of_no_root (h : ∀ root, s.executableRoot op.type ≠ .ok root) :
    operationFindings s d op = headFindings s d op := by
  have hroot : (declaredBy s d op).root.1 = none :=
    Option.eq_none_iff_forall_ne_some.mpr fun root hr => h root (root_eq_some.mp hr)
  rw [declaredBy] at hroot
  unfold operationFindings
  dsimp only
  rw [hroot]
  rfl

lemma not_problem_of_details {fs : List Finding} {p : Problem} (h : Details fs)
    (hp : p.cause.isUnused = true) : .problem p ∉ fs := by
  intro hmem
  have hunused : p.cause.isUnused = false := h _ hmem
  rw [hp] at hunused
  cases hunused

/-- What the walk comes across is no report that something is not used. -/
lemma not_problem_rootFindings {c : OperationContext} {p : Problem} (hp : p.cause.isUnused = true) :
    .problem p ∉ c.rootFindings root := by
  intro hmem
  obtain ⟨t, sel, -, path, hown⟩ := exists_of_mem_rootFindings hmem
  cases sel with
  | field f below => exact not_problem_of_details (fieldFindingsAt_details f below) hp hown
  | inline i below => exact not_problem_of_details (inlineFindings_details i) hp hown
  | spread sp =>
    rcases mem_spreadFindings hown with hdetail | ⟨g, -, heq⟩
    · exact not_problem_of_details (Details.cons_iff.mpr ⟨hdetail, .nil⟩) hp (List.mem_singleton_self _)
    · cases heq

end OperationContext

/-- That something is not used is reported by the searches for that alone. -/
lemma isUnused_cases {s : Schema} {d : Document} {p : Problem} (hp : p ∈ d.executionProblems s)
    (hunused : p.cause.isUnused = true) :
    p ∈ d.unusedFragments (d.operations.flatMap (operationFindings s d)) ∨
      ∃ op ∈ d.operations, ∃ root, s.executableRoot op.type = .ok root ∧
        .problem p ∈ (OperationContext.declaredBy s d op).unusedVariables
          (OperationContext.headFindings s d op
            ++ (OperationContext.declaredBy s d op).rootFindings root) := by
  rcases mem_executionProblems.mp hp with hp | ⟨op, hop, hp⟩ | hp | ⟨op, -, hp⟩
  · obtain ⟨f, -, hp⟩ := List.mem_flatMap.mp hp
    rcases List.mem_append.mp hp with hp | hp
    · rw [Schema.isUnused_of_misplaced hp] at hunused
      cases hunused
    · split at hp
      · obtain rfl := List.mem_singleton.mp hp
        cases hunused
      · split at hp
        · simp at hp
        · obtain rfl := List.mem_singleton.mp hp
          cases hunused
  · have hhead : .problem p ∉ OperationContext.headFindings s d op :=
      OperationContext.not_problem_of_details OperationContext.headFindings_details hunused
    by_cases hroot : ∃ root, s.executableRoot op.type = .ok root
    · obtain ⟨root, hroot⟩ := hroot
      rw [OperationContext.operationFindings_of_root hroot, List.mem_append, List.mem_append,
        or_iff_right hhead, or_iff_right (OperationContext.not_problem_rootFindings hunused)] at hp
      exact .inr ⟨op, hop, root, hroot, hp⟩
    · rw [OperationContext.operationFindings_of_no_root (not_exists.mp hroot)] at hp
      exact absurd hp hhead
  · exact .inl hp
  · obtain ⟨key, m, rfl⟩ := isConflict_of_mergeProblems hp
    cases hunused

/-- The reports of unused fragments. -/
lemma mem_validate_of_unusedFragment {s : Schema} {d : Document} {source : List Char}
    {e : ValidationError} {name : String} (hd : d.definitionProblems = []) (hc : d.cycleProblems = [])
    (he : e.cause = .unusedFragment name) : e ∈ s.validate d source ↔
      ∃ f ∈ d.fragments, f.name.text = name ∧
        (¬ ∃ op ∈ d.operations, .fragmentUse f.name.text ∈ operationFindings s d op) ∧
        (Problem.ofCause (.unusedFragment f.name.text) [f.pos]).locate source = e := by
  rw [mem_validate hd hc]
  constructor
  · rintro ⟨p, hp, rfl⟩
    have hcause : p.cause = .unusedFragment name := he
    rcases isUnused_cases hp (by rw [hcause]; rfl) with hp | ⟨op, -, root, -, hp⟩
    · obtain ⟨f, hf, hnot, rfl⟩ := mem_unusedFragments.mp hp
      exact ⟨f, hf, ValidationCause.unusedFragment.inj hcause, hnot, rfl⟩
    · obtain ⟨v, -, heq⟩ := List.mem_map.mp hp
      obtain rfl := Finding.problem.inj heq
      cases hcause
  · rintro ⟨f, hf, -, hnot, rfl⟩
    exact ⟨_, mem_executionProblems.mpr
      (.inr (.inr (.inl (mem_unusedFragments.mpr ⟨f, hf, hnot, rfl⟩)))), rfl⟩

/-! ### Reports of turning back -/

/-- The causes for which a part of the selections is not looked at. -/
def ValidationCause.cutsOff : ValidationCause → Bool
  | unknownField .. | unexpectedSelectionSet .. | unknownFragmentType _ | nonCompositeFragment _ => true
  | _ => false

variable {s : Schema} {d : Document} {op : OperationDefinition} {root t : TypeId} {sel : Selection}
  {source : List Char}

/-- A fragment that nothing can be selected on is reported where it is defined. -/
lemma cutsOff_of_fragment {f : FragmentDefinition} (hf : f ∈ d.fragments)
    (h : s.conditionType? f.typeCondition = none) :
    ∃ p ∈ d.fragmentProblems s, p.cause.cutsOff = true := by
  cases hu : s.typeId? f.typeCondition.text with
  | none =>
    refine ⟨.ofCause (.unknownFragmentType f.typeCondition.text) [f.typeCondition.pos], ?_, rfl⟩
    refine List.mem_flatMap.mpr ⟨f, hf, List.mem_append_right _ ?_⟩
    simp [hu]
  | some u =>
    have hleaf : s.isComposite u = false := by
      simpa [Schema.conditionType?, hu, Option.filter] using h
    refine ⟨.ofCause (.nonCompositeFragment f.typeCondition.text) [f.typeCondition.pos], ?_, rfl⟩
    refine List.mem_flatMap.mpr ⟨f, hf, List.mem_append_right _ ?_⟩
    simp [hu, hleaf]

namespace OperationContext

/-- What stands at a selection where the walk turns back, apart from spreads. -/
lemma cutsOff_of_turnsBack {c : OperationContext} (path : Path)
    (h : c.schema.TurnsBack c.document t sel) (hspread : ∀ sp, sel ≠ .spread sp) :
    ∃ p, .problem p ∈ c.walker.own (path, t) sel ∧ p.cause.cutsOff = true := by
  cases h with
  | @unknown f below unknown =>
    refine ⟨⟨.unknownField f.name.text (c.schema.typeName t.nullable), [f.pos],
      path ++ [.key f.responseKey]⟩, ?_, rfl⟩
    simp [fieldFindingsAt, unknown]
  | @leaf f below spec known leaf =>
    refine ⟨⟨.unexpectedSelectionSet f.name.text (c.schema.typeName spec.type), [below.pos],
      path ++ [.key f.responseKey]⟩, ?_, rfl⟩
    simp [fieldFindingsAt, known, belowFindings, leaf]
  | spread => exact absurd rfl (hspread _)
  | @inline i below n condition type =>
    cases hu : c.schema.typeId? n.text with
    | none =>
      refine ⟨.ofCause (.unknownFragmentType n.text) [n.pos], ?_, rfl⟩
      simp [inlineFindings, inlineType, condition, hu]
    | some u =>
      have hleaf : c.schema.isComposite u = false := by
        simpa [Schema.conditionType?, hu, Option.filter] using type
      refine ⟨.ofCause (.nonCompositeFragment n.text) [n.pos], ?_, rfl⟩
      simp [inlineFindings, inlineType, condition, hu, hleaf]

/-- **Turning back is reported**: where no report says that something was cut off, the walk through an
operation goes on everywhere. -/
theorem goesOn_of_validate (hd : d.definitionProblems = []) (hc : d.cycleProblems = [])
    (hop : op ∈ d.operations) (hroot : s.executableRoot op.type = .ok root)
    (h : ∀ e ∈ s.validate d source, e.cause.cutsOff = false) : (declaredBy s d op).GoesOn root := by
  intro t sel hsel hback
  have hreport : ∀ p ∈ d.executionProblems s, p.cause.cutsOff = false := fun p hp =>
    h (p.locate source) ((mem_validate hd hc).mpr ⟨p, hp, rfl⟩)
  by_cases hspread : ∃ sp, sel = .spread sp
  · obtain ⟨sp, rfl⟩ := hspread
    rw [declaredBy_schema, declaredBy_document] at hback
    cases hback with
    | spread fragment type =>
      obtain ⟨p, hp, hcuts⟩ := cutsOff_of_fragment (Document.fragment?_mem fragment) type
      rw [hreport p (mem_executionProblems.mpr (.inl hp))] at hcuts
      cases hcuts
  · obtain ⟨path, hown⟩ := mem_rootFindings hsel
    obtain ⟨p, hp, hcuts⟩ := cutsOff_of_turnsBack path hback (not_exists.mp hspread)
    have hmem : .problem p ∈ operationFindings s d op := by
      rw [operationFindings_of_root hroot]
      exact List.mem_append_left _ (List.mem_append_right _ (hown _ hp))
    rw [hreport p (mem_executionProblems.mpr (.inr (.inl ⟨op, hop, hmem⟩)))] at hcuts
    cases hcuts

end OperationContext

end GraphQL
