import GraphQL.Execution.Prepared
import GraphQL.Proofs.Validation.Merge
import GraphQL.Proofs.Validation.Variables

/-!
What is known of a document that passes validation.
-/

namespace GraphQL

variable {s : Schema} {d : Document} {op : OperationDefinition} {root : TypeId} {source : List Char}

/-- There is nothing to report of a document. -/
structure Valid (s : Schema) (d : Document) : Prop where
  definitions : d.definitionProblems = []
  cycles : d.cycleProblems = []
  fragments : d.fragmentProblems s = []
  operations : ∀ op ∈ d.operations, Silent (operationFindings s d op)
  used : d.unusedFragments (d.operations.flatMap (operationFindings s d)) = []
  merges : ∀ op ∈ d.operations, mergeProblems s d op = []

lemma eraseDups_eq_nil {α : Type} [BEq α] {as : List α} : as.eraseDups = [] ↔ as = [] := by
  cases as with
  | nil => simp
  | cons a as => simp [List.eraseDups_cons]

lemma executionProblems_eq_nil_iff : d.executionProblems s = [] ↔
    d.fragmentProblems s = [] ∧ (∀ op ∈ d.operations, Silent (operationFindings s d op)) ∧
      d.unusedFragments (d.operations.flatMap (operationFindings s d)) = [] ∧
      ∀ op ∈ d.operations, mergeProblems s d op = [] := by
  have hsilent : (d.operations.flatMap (operationFindings s d)).filterMap (·.problem?) = [] ↔
      ∀ op ∈ d.operations, Silent (operationFindings s d op) := by
    rw [List.filterMap_eq_nil_iff, ← Silent.flatMap_iff]
    rfl
  unfold Document.executionProblems
  dsimp only
  rw [List.append_eq_nil_iff, List.append_eq_nil_iff, List.append_eq_nil_iff, hsilent,
    List.flatMap_eq_nil_iff, and_assoc, and_assoc]

/-- A document passes validation if there is nothing to report of any part of it. -/
theorem validate_eq_nil_iff : s.validate d source = [] ↔ Valid s d := by
  rw [Schema.validate, eraseDups_eq_nil, List.map_eq_nil_iff, Document.problems]
  constructor
  · intro h
    split_ifs at h with hdefinitions hcycles
    · simp [h] at hdefinitions
    · simp [h] at hcycles
    · obtain ⟨hfragments, hoperations, hused, hmerges⟩ := executionProblems_eq_nil_iff.mp h
      exact ⟨by simpa using hdefinitions, by simpa using hcycles, hfragments, hoperations, hused,
        hmerges⟩
  · intro h
    simp only [h.definitions, h.cycles, List.isEmpty_nil, Bool.not_true, Bool.false_eq_true,
      if_false]
    exact executionProblems_eq_nil_iff.mpr ⟨h.fragments, h.operations, h.used, h.merges⟩

/-- A check of a document that compares fields without a memo. -/
def isValid (s : Schema) (d : Document) : Bool :=
  let findings := d.operations.flatMap (operationFindings s d)
  let merges (op : OperationDefinition) : Bool :=
    match s.root? op.type with
    | none => false
    | some root => op.type != .subscription && MergeContext.canMergeAll ⟨s, d⟩
        (MergeContext.maxLevels ⟨s, d⟩) (MergeContext.maxLevels ⟨s, d⟩) root op.selectionSet
  d.definitionProblems.isEmpty && d.cycleProblems.isEmpty && (d.fragmentProblems s).isEmpty
    && findings.all (·.problem?.isNone) && (d.unusedFragments findings).isEmpty
    && d.operations.all merges

lemma valid_of_isValid (h : isValid s d = true) : Valid s d := by
  simp only [isValid, Bool.and_eq_true, List.isEmpty_iff, List.all_eq_true,
    Option.isNone_iff_eq_none] at h
  obtain ⟨⟨⟨⟨⟨hdefinitions, hcycles⟩, hfragments⟩, hfindings⟩, hused⟩, hmerges⟩ := h
  refine ⟨hdefinitions, hcycles, hfragments, Silent.flatMap_iff.mp hfindings, hused,
    fun op hop => ?_⟩
  have hmerge := hmerges op hop
  split at hmerge
  · simp at hmerge
  · rename_i root hroot
    obtain ⟨htype, hmerge⟩ := Bool.and_eq_true_iff.mp hmerge
    exact mergeProblems_of_canMergeAll (bne_iff_ne.mp htype) hroot hmerge

/-! ### Operations -/

lemma Schema.root?_of_executableRoot (h : s.executableRoot op.type = .ok root) :
    op.type ≠ .subscription ∧ s.root? op.type = some root := by
  unfold Schema.executableRoot at h
  split at h
  · rename_i htype
    rw [htype]
    exact ⟨by simp, congrArg some (Except.ok.inj h)⟩
  · rename_i htype
    rw [htype]
    split at h
    · rename_i t ht
      exact ⟨by simp, ht.trans (congrArg some (Except.ok.inj h))⟩
    · simp at h
  · simp at h

namespace OperationContext

/-- What an operation is checked against once its variables are declared. -/
def declaring (s : Schema) (d : Document) (op : OperationDefinition) : OperationContext :=
  ⟨s, d, op, op.variableDefinitions.map (⟨·, true⟩)⟩

/-- An operation of which there is nothing to report has a root type, and the other way round. -/
lemma root_declaring (h : Silent (declaring s d op).root.2.2) :
    ∃ root, s.executableRoot op.type = .ok root ∧ (declaring s d op).root.1 = some root := by
  unfold OperationContext.root at h ⊢
  cases htype : op.type with
  | query => exact ⟨s.query, rfl, by simp [declaring, htype]⟩
  | mutation =>
    cases hmutation : s.mutation with
    | some t =>
      exact ⟨t, by simp [Schema.executableRoot, hmutation], by simp [declaring, htype, hmutation]⟩
    | none => simp [declaring, htype, hmutation, Finding.problem?] at h
  | subscription => simp [declaring, htype, Finding.problem?] at h

end OperationContext

namespace Valid

open OperationContext (declaring)

lemma tidy (h : Valid s d) (hnodup : (d.parts.map (·.pos)).Nodup) : MergeContext.Tidy d :=
  ⟨hnodup, Document.ends_of_cycleProblems (Document.fragments_nodup h.definitions) h.cycles⟩

lemma fragmentsFit (h : Valid s d) : (declaring s d op).FragmentsFit := by
  intro f hf
  have hproblems := List.flatMap_eq_nil_iff.mp h.fragments f hf
  obtain ⟨-, htype⟩ := List.append_eq_nil_iff.mp hproblems
  split at htype
  · simp at htype
  · rename_i t ht
    refine ⟨t, ht, ?_⟩
    split at htype
    · rename_i hcomposite
      exact hcomposite
    · simp at htype

/-- The variables of a valid operation have distinct names, and its selections are accepted on the type
of its root. -/
lemma operation (h : Valid s d) (hop : op ∈ d.operations) :
    (op.variableDefinitions.map (·.name.text)).Nodup ∧
      ∃ root, s.executableRoot op.type = .ok root ∧
        (declaring s d op).AcceptsSet root op.selectionSet := by
  have hsilent := h.operations op hop
  unfold operationFindings at hsilent
  have hdeclare : Silent ((OperationContext.mk s d op []).declareAll op.variableDefinitions).2 := by
    generalize (OperationContext.mk s d op []).declareAll op.variableDefinitions = r at hsilent ⊢
    obtain ⟨c, declarations⟩ := r
    dsimp only at hsilent ⊢
    split at hsilent
    · simp only [Silent.append_iff] at hsilent
      exact hsilent.1.1
    · simp only [Silent.append_iff] at hsilent
      exact hsilent.1.1.1.1
  obtain ⟨hcontext, hnodup, -⟩ := OperationContext.declareAll_silent hdeclare
  refine ⟨hnodup, ?_⟩
  have hcontext : ((OperationContext.mk s d op []).declareAll op.variableDefinitions).1
      = declaring s d op := hcontext
  generalize (OperationContext.mk s d op []).declareAll op.variableDefinitions = r
    at hsilent hcontext
  obtain ⟨c, declarations⟩ := r
  obtain rfl : c = declaring s d op := hcontext
  dsimp only at hsilent
  have hroot : Silent (declaring s d op).root.2.2 := by
    split at hsilent
    · simp only [Silent.append_iff] at hsilent
      exact hsilent.1.2
    · simp only [Silent.append_iff] at hsilent
      exact hsilent.1.1.1.2
  obtain ⟨root, hexecutable, hsome⟩ := OperationContext.root_declaring hroot
  rw [hsome] at hsilent
  simp only [Silent.append_iff] at hsilent
  exact ⟨root, hexecutable, OperationContext.acceptsSet_of_rootFindings hsilent.1.2⟩

end Valid

end GraphQL
