import GraphQL.Proofs.Sample
import GraphQL.Proofs.Validation.FragmentCycle
import GraphQL.Proofs.Validation.SameFragments

/-!
Operations are validated separately.

What is reported of a document is what is reported of its operations, each alone with all fragments. Only
fragments that are not used take all operations to find: none of them may use the fragment. So it makes no
difference in which order operations and fragments stand.
-/

namespace GraphQL

namespace Document

variable {d d' : Document} {op : OperationDefinition}

/-! ### Parts of a document -/

/-- One operation with all fragments. In a document of the right structure an operation is known by its
name. -/
def only (d : Document) (op : OperationDefinition) : Document :=
  ⟨d.definitions.filter fun x => x.operation?.all fun o => o.nameText? == op.nameText?⟩

/-- What is no operation is kept. -/
lemma filterMap_only {α : Type} {f : Definition → Option α}
    (hf : ∀ o : OperationDefinition, f (.operation o) = none) :
    (d.only op).definitions.filterMap f = d.definitions.filterMap f := by
  rw [only, List.filterMap_filter]
  refine List.filterMap_congr fun x _ => ?_
  cases x with
  | operation o => simp [hf]
  | fragment g => rfl
  | type t => rfl

lemma only_fragments : (d.only op).fragments = d.fragments := filterMap_only fun _ => rfl

lemma only_types : (d.only op).types = d.types := filterMap_only fun _ => rfl

lemma only_operations (hd : d.IsStructured) (hop : op ∈ d.operations) :
    (d.only op).operations = [op] := by
  rw [← filter_of_nodup_keys hd.operations_nodup hop, operations, operations, only, List.filterMap_filter,
    List.filter_filterMap]
  refine List.filterMap_congr fun x _ => ?_
  cases x with
  | operation o => simp [Definition.operation?, Option.filter]
  | fragment g => rfl
  | type t => rfl

lemma IsStructured.only (hd : d.IsStructured) (hop : op ∈ d.operations) : (d.only op).IsStructured where
  types := only_types.trans hd.types
  alone := .inl (by simp [only_operations hd hop])
  operations := by
    rw [only_operations hd hop]
    cases hname : op.nameText? <;> simp [hname]
  fragments := only_fragments.symm ▸ hd.fragments

lemma sameFragments_only : (d.only op).SameFragments d :=
  ⟨fun name => by rw [fragment?, only_fragments]; rfl, by rw [only_fragments]⟩

/-! ### Other orders -/

lemma IsStructured.perm (hd : d.IsStructured) (h : d'.definitions.Perm d.definitions) :
    d'.IsStructured where
  types := by
    have htypes : d'.types.Perm d.types := h.filterMap _
    exact List.Perm.eq_nil (hd.types ▸ htypes)
  alone := by
    have hops : d'.operations.Perm d.operations := h.filterMap _
    refine hd.alone.imp (fun hone => hops.length_eq ▸ hone) fun hnamed o ho => ?_
    exact hnamed o (hops.mem_iff.mp ho)
  operations := ((h.filterMap _).filterMap _).nodup_iff.mpr hd.operations
  fragments := ((h.filterMap _).map _).nodup_iff.mpr hd.fragments

/-- Where fragments are the same, cycles of them are found in both documents. -/
lemma cycleProblems_eq_nil (h : d.SameFragments d') (hd : d.IsStructured) (hd' : d'.IsStructured)
    (hc : d.cycleProblems = []) : d'.cycleProblems = [] := by
  by_contra hne
  obtain ⟨name, hcycle⟩ := (cycleProblems_ne_nil_iff hd'.fragments).mp hne
  exact (cycleProblems_ne_nil_iff hd.fragments).mpr ⟨name, h.uses ▸ hcycle⟩ hc

end Document

/-! ### What is reported -/

namespace Schema

variable {s : Schema} {d d' : Document} {op : OperationDefinition} {source : List Char}
  {e : ValidationError}

/-- What is reported of an operation: what the walk through it comes across, and its conflicts. -/
def Reports (s : Schema) (d : Document) (source : List Char) (op : OperationDefinition)
    (e : ValidationError) : Prop :=
  ∃ p, (.problem p ∈ operationFindings s d op ∨ p ∈ mergeProblems s d op) ∧ p.locate source = e

lemma reports_sameFragments (h : d.SameFragments d') (hends : ∀ f ∈ d.fragments, d.Ends f.name.text)
    (hends' : ∀ f ∈ d'.fragments, d'.Ends f.name.text) (hop : op ∈ d.operations)
    (hop' : op ∈ d'.operations) : s.Reports d source op e ↔ s.Reports d' source op e := by
  rw [Reports, Reports, OperationContext.operationFindings_sameFragments h,
    mergeProblems_sameFragments h hends hends' hop hop']

/-- Apart from unused fragments, reports are about a fragment or about an operation. -/
lemma mem_validate_of_used (hd : d.definitionProblems = []) (hc : d.cycleProblems = [])
    (he : ∀ name, e.cause ≠ .unusedFragment name) : e ∈ s.validate d source ↔
      (∃ p ∈ d.fragmentProblems s, p.locate source = e) ∨ ∃ op ∈ d.operations, s.Reports d source op e := by
  rw [mem_validate hd hc]
  constructor
  · rintro ⟨p, hp, rfl⟩
    rcases mem_executionProblems.mp hp with hp | ⟨op, hop, hp⟩ | hp | ⟨op, hop, hp⟩
    · exact .inl ⟨p, hp, rfl⟩
    · exact .inr ⟨op, hop, p, .inl hp, rfl⟩
    · obtain ⟨f, -, -, rfl⟩ := mem_unusedFragments.mp hp
      exact absurd rfl (he f.name.text)
    · exact .inr ⟨op, hop, p, .inr hp, rfl⟩
  · rintro (⟨p, hp, rfl⟩ | ⟨op, hop, p, hp | hp, rfl⟩)
    · exact ⟨p, mem_executionProblems.mpr (.inl hp), rfl⟩
    · exact ⟨p, mem_executionProblems.mpr (.inr (.inl ⟨op, hop, hp⟩)), rfl⟩
    · exact ⟨p, mem_executionProblems.mpr (.inr (.inr (.inr ⟨op, hop, hp⟩))), rfl⟩

/-! ### One operation -/

/-- An operation alone is a document of the right structure, without cycles of fragments. -/
lemma only_checked (hd : d.definitionProblems = []) (hc : d.cycleProblems = [])
    (hop : op ∈ d.operations) :
    (d.only op).definitionProblems = [] ∧ (d.only op).cycleProblems = [] ∧
      (d.only op).operations = [op] := by
  have hstructured := Document.definitionProblems_eq_nil_iff.mp hd
  have honly := hstructured.only hop
  exact ⟨Document.definitionProblems_eq_nil_iff.mpr honly,
    Document.cycleProblems_eq_nil Document.sameFragments_only.symm hstructured honly hc,
    Document.only_operations hstructured hop⟩

lemma mem_validate_only_of_used (hd : d.definitionProblems = []) (hc : d.cycleProblems = [])
    (hop : op ∈ d.operations) (he : ∀ name, e.cause ≠ .unusedFragment name) :
    e ∈ s.validate (d.only op) source ↔
      (∃ p ∈ d.fragmentProblems s, p.locate source = e) ∨ s.Reports d source op e := by
  obtain ⟨hd', hc', hops⟩ := only_checked hd hc hop
  have hends := Document.ends_of_cycleProblems (Document.fragments_nodup hd) hc
  have hends' := Document.ends_of_cycleProblems (Document.fragments_nodup hd') hc'
  have hproblems : (d.only op).fragmentProblems s = d.fragmentProblems s := by
    rw [Document.fragmentProblems, Document.only_fragments]
    rfl
  have hop' : op ∈ (d.only op).operations := hops ▸ List.mem_singleton_self op
  rw [mem_validate_of_used hd' hc' he, hproblems, hops]
  simp only [List.mem_singleton, exists_eq_left]
  rw [reports_sameFragments Document.sameFragments_only hends' hends hop' hop]

lemma mem_validate_only_of_unusedFragment {name : String} (hd : d.definitionProblems = [])
    (hc : d.cycleProblems = []) (hop : op ∈ d.operations) (he : e.cause = .unusedFragment name) :
    e ∈ s.validate (d.only op) source ↔ ∃ f ∈ d.fragments, f.name.text = name ∧
      .fragmentUse f.name.text ∉ operationFindings s d op ∧
      (Problem.ofCause (.unusedFragment f.name.text) [f.pos]).locate source = e := by
  obtain ⟨hd', hc', hops⟩ := only_checked hd hc hop
  rw [mem_validate_of_unusedFragment hd' hc' he, hops, Document.only_fragments]
  simp only [List.mem_singleton, exists_eq_left,
    OperationContext.operationFindings_sameFragments (Document.sameFragments_only (d := d))]

/-! ### Other orders -/

/-- The reports of a document do not depend on the order of its definitions. -/
lemma mem_validate_perm (hd : d.definitionProblems = []) (hc : d.cycleProblems = [])
    (h : d'.definitions.Perm d.definitions) : e ∈ s.validate d' source ↔ e ∈ s.validate d source := by
  have hstructured := Document.definitionProblems_eq_nil_iff.mp hd
  have hstructured' := hstructured.perm h
  have hfragments : d'.fragments.Perm d.fragments := h.filterMap _
  have hoperations : d'.operations.Perm d.operations := h.filterMap _
  have hsame : d'.SameFragments d := .of_perm hfragments hstructured'.fragments
  have hd' := Document.definitionProblems_eq_nil_iff.mpr hstructured'
  have hc' := Document.cycleProblems_eq_nil hsame.symm hstructured hstructured' hc
  by_cases he : ∃ name, e.cause = .unusedFragment name
  · obtain ⟨name, he⟩ := he
    rw [mem_validate_of_unusedFragment hd' hc' he, mem_validate_of_unusedFragment hd hc he]
    simp only [OperationContext.operationFindings_sameFragments hsame, hoperations.mem_iff,
      hfragments.mem_iff]
  · have hends := Document.ends_of_cycleProblems hstructured.fragments hc
    have hends' := Document.ends_of_cycleProblems hstructured'.fragments hc'
    have hproblems : (d'.fragmentProblems s).Perm (d.fragmentProblems s) := hfragments.flatMap_right _
    rw [mem_validate_of_used hd' hc' (not_exists.mp he), mem_validate_of_used hd hc (not_exists.mp he)]
    simp only [hproblems.mem_iff]
    refine or_congr_right (exists_congr fun op => ?_)
    rw [hoperations.mem_iff]
    exact and_congr_right fun hop =>
      reports_sameFragments hsame hends' hends (hoperations.mem_iff.mpr hop) hop

/-- **Operations are validated separately**: apart from unused fragments, a document has the reports of
its operations, each alone with all fragments; that a fragment is not used is reported if it is for each
of them. The order of the definitions makes no difference. -/
theorem validate_separately (hd : d.definitionProblems = []) (hc : d.cycleProblems = [])
    (hops : d.operations ≠ []) :
    (∀ e : ValidationError, (∀ name, e.cause ≠ .unusedFragment name) →
      (e ∈ s.validate d source ↔ ∃ op ∈ d.operations, e ∈ s.validate (d.only op) source)) ∧
    (∀ (e : ValidationError) (name : String), e.cause = .unusedFragment name →
      (e ∈ s.validate d source ↔ ∀ op ∈ d.operations, e ∈ s.validate (d.only op) source)) ∧
    ∀ d' : Document, d'.definitions.Perm d.definitions →
      ∀ e, e ∈ s.validate d' source ↔ e ∈ s.validate d source := by
  obtain ⟨first, hfirst⟩ := List.exists_mem_of_ne_nil _ hops
  have hnodup := Document.fragments_nodup hd
  refine ⟨fun e he => ?_, fun e name he => ?_, fun d' h e => ?_⟩
  · rw [mem_validate_of_used hd hc he]
    constructor
    · rintro (h | ⟨op, hop, h⟩)
      · exact ⟨first, hfirst, (mem_validate_only_of_used hd hc hfirst he).mpr (.inl h)⟩
      · exact ⟨op, hop, (mem_validate_only_of_used hd hc hop he).mpr (.inr h)⟩
    · rintro ⟨op, hop, h⟩
      exact ((mem_validate_only_of_used hd hc hop he).mp h).imp_right fun h => ⟨op, hop, h⟩
  · rw [mem_validate_of_unusedFragment hd hc he]
    constructor
    · rintro ⟨f, hf, hname, hnot, hlocate⟩ op hop
      refine (mem_validate_only_of_unusedFragment hd hc hop he).mpr ⟨f, hf, hname, ?_, hlocate⟩
      exact fun huse => hnot ⟨op, hop, huse⟩
    · intro hall
      obtain ⟨f, hf, hname, -, hlocate⟩ :=
        (mem_validate_only_of_unusedFragment hd hc hfirst he).mp (hall first hfirst)
      refine ⟨f, hf, hname, ?_, hlocate⟩
      rintro ⟨op, hop, huse⟩
      -- the report for this operation is about the same fragment
      obtain ⟨g, hg, hname', hnot, -⟩ :=
        (mem_validate_only_of_unusedFragment hd hc hop he).mp (hall op hop)
      obtain rfl := List.inj_on_of_nodup_map hnodup hf hg (hname.trans hname'.symm)
      exact hnot huse
  · exact mem_validate_perm hd hc h

/-- Two operations, one with an unknown field and one with a variable that is not used, and a fragment
that one of them uses. -/
def twoOperations : List Char :=
  ("query A \x7b ...F, b \x7d query B($v: Int) \x7b a \x7d "
    ++ "fragment F on Query \x7b a \x7d").toList

theorem validate_separately_of_twoOperations : ∃ s d,
    Schema.ofText "type Query \x7b a: Int \x7d" 0 = .ok s ∧
    (Document.parse twoOperations).document? = some d ∧
    d.definitionProblems = [] ∧ d.cycleProblems = [] ∧ d.operations.length = 2 ∧
    (∀ e : ValidationError, (∀ name, e.cause ≠ .unusedFragment name) →
      (e ∈ s.validate d twoOperations ↔ ∃ op ∈ d.operations, e ∈ s.validate (d.only op) twoOperations)) ∧
    (∀ (e : ValidationError) (name : String), e.cause = .unusedFragment name →
      (e ∈ s.validate d twoOperations ↔ ∀ op ∈ d.operations, e ∈ s.validate (d.only op) twoOperations)) ∧
    ∀ e, e ∈ s.validate ⟨d.definitions.reverse⟩ twoOperations ↔ e ∈ s.validate d twoOperations := by
  have hrun : ((Sample.read? "type Query \x7b a: Int \x7d" twoOperations).any fun (_, d) =>
      d.definitionProblems.isEmpty && d.cycleProblems.isEmpty && d.operations.length == 2) = true := by
    decide +kernel
  obtain ⟨s, d, hs, hparse, hchecks⟩ := Sample.exists_of_read hrun
  simp only [Bool.and_eq_true, List.isEmpty_iff, beq_iff_eq] at hchecks
  obtain ⟨⟨hd, hc⟩, hlength⟩ := hchecks
  have hops : d.operations ≠ [] := List.ne_nil_of_length_pos (by omega)
  obtain ⟨hused, hunused, hperm⟩ := validate_separately (s := s) hd hc hops
  exact ⟨s, d, hs, hparse, hd, hc, hlength, hused, hunused, hperm _ d.definitions.reverse_perm⟩

end Schema

end GraphQL
