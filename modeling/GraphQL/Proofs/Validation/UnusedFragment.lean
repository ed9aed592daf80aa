import GraphQL.Proofs.Sample
import GraphQL.Proofs.Validation.Inspection

/-!
Which fragments are reported as unused.

A fragment counts as used at the spreads that the walks through the operations come to. The walks go by
types: an operation without a root type is not walked through, nor is what is written below an unknown
field or on an unknown type. A fragment that is spread there only is reported although an operation leads
to it. Where the walks do not turn back, exactly those fragments are reported that no operation leads to.
-/

namespace GraphQL

variable {s : Schema} {d : Document} {op : OperationDefinition} {f : FragmentDefinition}
  {source : List Char} {root : TypeId} {name : String}

/-! ### Uses that are come across -/

/-- The walk through an operation of the document comes to a spread of the fragment. -/
def Schema.FindsSpread (s : Schema) (d : Document) (name : String) : Prop :=
  ∃ op ∈ d.operations, ∃ root, s.executableRoot op.type = .ok root ∧
    ∃ start ∈ op.selectionSet.selections, ∃ t sp,
      s.Inspects d root start t (.spread sp) ∧ sp.name.text = name

/-- No operation of the document leads to the fragment. -/
def Document.Unreached (d : Document) (name : String) : Prop :=
  ∀ op ∈ d.operations, ¬ d.LeadsTo op.selectionSet name

namespace OperationContext

lemma fragmentUse_not_detail {fs : List Finding} (h : Details fs) : .fragmentUse name ∉ fs :=
  fun hmem => h _ hmem

/-- A use of a fragment is found where the fragment is spread. -/
lemma fragmentUse_mem_own {c : OperationContext} {path : Path} {t : TypeId} {sel : Selection} :
    .fragmentUse name ∈ c.walker.own (path, t) sel ↔
      (c.document.fragment? name).isSome ∧ ∃ sp, sel = .spread sp ∧ sp.name.text = name := by
  cases sel with
  | field f below =>
    have hnot : Finding.fragmentUse name ∉ c.fieldFindingsAt path t f below :=
      fragmentUse_not_detail (fieldFindingsAt_details f below)
    simpa using hnot
  | inline i below =>
    have hnot : Finding.fragmentUse name ∉ c.inlineFindings path t i :=
      fragmentUse_not_detail (inlineFindings_details i)
    simpa using hnot
  | spread sp =>
    rw [walker_own_spread]
    constructor
    · intro h
      rcases mem_spreadFindings h with hdetail | ⟨g, hg, heq⟩
      · exact hdetail.elim
      · obtain rfl := Finding.fragmentUse.inj heq
        rw [Document.fragment?_name hg]
        exact ⟨by simp [hg], sp, rfl, rfl⟩
    · rintro ⟨hsome, sp', heq, rfl⟩
      obtain rfl := Selection.spread.inj heq
      obtain ⟨g, hg⟩ := Option.isSome_iff_exists.mp hsome
      simp [spreadFindings, hg, Document.fragment?_name hg]

/-- The uses of fragments that are come across in an operation. -/
lemma fragmentUse_mem_operationFindings : .fragmentUse name ∈ operationFindings s d op ↔
    (d.fragment? name).isSome ∧ ∃ root, s.executableRoot op.type = .ok root ∧
      ∃ t sp, (declaredBy s d op).Inspects root t (.spread sp) ∧ sp.name.text = name := by
  have hhead : Finding.fragmentUse name ∉ headFindings s d op :=
    fragmentUse_not_detail headFindings_details
  by_cases hroot : ∃ root, s.executableRoot op.type = .ok root
  · obtain ⟨root, hroot⟩ := hroot
    have hunused (fs : List Finding) :
        Finding.fragmentUse name ∉ (declaredBy s d op).unusedVariables fs := by
      simp [unusedVariables]
    rw [operationFindings_of_root hroot, List.mem_append, List.mem_append, or_iff_right hhead,
      or_iff_left (hunused _)]
    constructor
    · intro h
      obtain ⟨t, sel, hsel, path, hown⟩ := exists_of_mem_rootFindings h
      obtain ⟨hsome, sp, rfl, hname⟩ := fragmentUse_mem_own.mp hown
      rw [declaredBy_document] at hsome
      exact ⟨hsome, root, hroot, t, sp, hsel, hname⟩
    · rintro ⟨hsome, root', hroot', t, sp, hsel, hname⟩
      obtain rfl := Except.ok.inj (hroot.symm.trans hroot')
      obtain ⟨path, hall⟩ := mem_rootFindings hsel
      refine hall _ (fragmentUse_mem_own.mpr ⟨?_, sp, rfl, hname⟩)
      rwa [declaredBy_document]
  · rw [operationFindings_of_no_root (not_exists.mp hroot)]
    refine iff_of_false hhead ?_
    rintro ⟨-, root, h, -⟩
    exact hroot ⟨root, h⟩

end OperationContext

open OperationContext

/-! ### What is reported -/

/-- A fragment is reported if and only if no walk comes to a spread of it. -/
lemma unusedFragment_mem_validate (hd : d.definitionProblems = []) (hc : d.cycleProblems = [])
    (hf : f ∈ d.fragments) :
    (∃ e ∈ s.validate d source, e.cause = .unusedFragment f.name.text) ↔
      ¬ s.FindsSpread d f.name.text := by
  have hsome : (d.fragment? f.name.text).isSome := by
    rw [Document.fragment?_of_mem (Document.fragments_nodup hd) hf]
    rfl
  have hfinds : (∃ op ∈ d.operations, .fragmentUse f.name.text ∈ operationFindings s d op) ↔
      s.FindsSpread d f.name.text := by
    refine exists_congr fun op => and_congr_right fun _ => ?_
    rw [fragmentUse_mem_operationFindings, and_iff_right hsome]
    refine exists_congr fun root => and_congr_right fun _ => ?_
    simp only [declaredBy_inspects]
    constructor
    · rintro ⟨t, sp, ⟨start, hstart, hinspects⟩, hname⟩
      exact ⟨start, hstart, t, sp, hinspects, hname⟩
    · rintro ⟨start, hstart, t, sp, hinspects, hname⟩
      exact ⟨t, sp, ⟨start, hstart, hinspects⟩, hname⟩
  rw [← hfinds]
  constructor
  · rintro ⟨e, he, hcause⟩
    obtain ⟨g, -, hname, hnot, -⟩ := (mem_validate_of_unusedFragment hd hc hcause).mp he
    rwa [hname] at hnot
  · intro hnot
    exact ⟨_, (mem_validate_of_unusedFragment hd hc rfl).mpr ⟨f, hf, rfl, hnot, rfl⟩, rfl⟩

/-- A spread that a walk comes to belongs to its operation. -/
lemma Document.Unreached.not_findsSpread (h : d.Unreached f.name.text)
    (hf : (d.fragment? f.name.text).isSome) : ¬ s.FindsSpread d f.name.text := by
  rintro ⟨op, hop, root, -, start, hstart, t, sp, hinspects, hname⟩
  exact h op hop (Document.leadsTo_iff.mpr ⟨hf, sp, hinspects.holds hstart, hname⟩)

/-- An operation without a root type is reported. -/
lemma exists_root_of_validate (hd : d.definitionProblems = []) (hc : d.cycleProblems = [])
    (hop : op ∈ d.operations)
    (h : ∀ e ∈ s.validate d source, e.cause ≠ .subscription ∧ e.cause ≠ .noMutationType) :
    ∃ root, s.executableRoot op.type = .ok root := by
  by_contra hroot
  obtain ⟨p, hp, hcause⟩ : ∃ p, .problem p ∈ (declaredBy s d op).root.2.2 ∧
      (p.cause = .subscription ∨ p.cause = .noMutationType) := by
    unfold OperationContext.root
    rw [declaredBy_operation, declaredBy_schema]
    cases htype : op.type with
    | query => exact absurd ⟨s.query, by rw [htype]; rfl⟩ hroot
    | mutation =>
      cases hmutation : s.mutation with
      | some root => exact absurd ⟨root, by rw [htype, Schema.executableRoot, hmutation]⟩ hroot
      | none => exact ⟨_, List.mem_singleton_self _, .inr rfl⟩
    | subscription => exact ⟨_, List.mem_singleton_self _, .inl rfl⟩
  have hmem : .problem p ∈ operationFindings s d op := by
    rw [operationFindings_of_no_root (not_exists.mp hroot)]
    exact List.mem_append_left _ (List.mem_append_right _ hp)
  obtain ⟨hne, hne'⟩ := h (p.locate source) ((mem_validate hd hc).mpr
    ⟨p, mem_executionProblems.mpr (.inr (.inl ⟨op, hop, hmem⟩)), rfl⟩)
  exact hcause.elim hne hne'

/-- **Unused fragments**: a fragment is reported exactly if no walk through an operation comes to a
spread of it. All fragments are that no operation leads to; and if nothing is reported for which
something is not walked through, those are all. -/
theorem Schema.unusedFragment_exact (hd : d.definitionProblems = []) (hc : d.cycleProblems = [])
    (hf : f ∈ d.fragments) :
    ((∃ e ∈ s.validate d source, e.cause = .unusedFragment f.name.text) ↔
      ¬ s.FindsSpread d f.name.text) ∧
    (d.Unreached f.name.text →
      ∃ e ∈ s.validate d source, e.cause = .unusedFragment f.name.text) ∧
    ((∀ e ∈ s.validate d source, e.cause.cutsOff = false ∧
        e.cause ≠ .subscription ∧ e.cause ≠ .noMutationType) →
      ((∃ e ∈ s.validate d source, e.cause = .unusedFragment f.name.text) ↔
        d.Unreached f.name.text)) := by
  have hsome : (d.fragment? f.name.text).isSome := by
    rw [Document.fragment?_of_mem (Document.fragments_nodup hd) hf]
    rfl
  have hiff : (∃ e ∈ s.validate d source, e.cause = .unusedFragment f.name.text) ↔
      ¬ s.FindsSpread d f.name.text := unusedFragment_mem_validate hd hc hf
  have hunreached : d.Unreached f.name.text → ¬ s.FindsSpread d f.name.text :=
    fun h => h.not_findsSpread hsome
  refine ⟨hiff, fun h => hiff.mpr (hunreached h), fun hreports => hiff.trans ⟨fun hnot => ?_, hunreached⟩⟩
  intro op hop hleads
  obtain ⟨root, hroot⟩ := exists_root_of_validate hd hc hop fun e he => (hreports e he).2
  have hgo := goesOn_of_validate hd hc hop hroot fun e he => (hreports e he).1
  obtain ⟨-, sp, hsp, hname⟩ := Document.leadsTo_iff.mp hleads
  obtain ⟨t, ht⟩ : ∃ t, (declaredBy s d op).Inspects root t (.spread sp) :=
    hgo.inspects (by rwa [declaredBy_document, declaredBy_operation])
  obtain ⟨start, hstart, hinspects⟩ := declaredBy_inspects.mp ht
  exact hnot ⟨op, hop, root, hroot, start, hstart, t, sp, hinspects, hname⟩

/-- A fragment that is used, and one that is left over although it uses the other. -/
def leftOver : List Char :=
  ("\x7b ...F \x7d fragment F on Query \x7b a \x7d fragment G on Query \x7b ...F \x7d").toList

theorem Schema.unusedFragment_exact_of_leftOver : ∃ s d f g,
    Schema.ofText "type Query \x7b a: Int \x7d" 0 = .ok s ∧
    (Document.parse leftOver).document? = some d ∧
    d.definitionProblems = [] ∧ d.cycleProblems = [] ∧ d.fragments = [f, g] ∧
    (¬ ∃ e ∈ s.validate d leftOver, e.cause = .unusedFragment f.name.text) ∧
    d.Unreached g.name.text ∧ ∃ e ∈ s.validate d leftOver, e.cause = .unusedFragment g.name.text := by
  have hrun : ((Sample.read? "type Query \x7b a: Int \x7d" leftOver).any fun (_, d) =>
      d.definitionProblems.isEmpty && d.cycleProblems.isEmpty &&
      d.fragments.map (·.name.text) == ["F", "G"] &&
      ((d.fragment? "F").any fun f => f.selectionSet.spreads.isEmpty) &&
      (d.operations.any fun op => op.type == .query && op.selectionSet.selections.any fun sel =>
        match sel with
        | .spread sp => sp.name.text == "F"
        | _ => false) &&
      d.operations.all fun op => op.selectionSet.spreads.all fun sp => sp.name.text == "F") = true := by
    decide +kernel
  obtain ⟨s, d, hs, hparse, hchecks⟩ := Sample.exists_of_read hrun
  simp only [Bool.and_eq_true, List.isEmpty_iff, beq_iff_eq, List.any_eq_true,
    List.all_eq_true, Option.any_eq_true] at hchecks
  obtain ⟨⟨⟨⟨⟨hd, hc⟩, hnames⟩, f', hf', hleaf⟩, op, hop, htype, start, hstart, hspread⟩, hall⟩ :=
    hchecks
  obtain ⟨f, rest, hfragments, hname, hrest⟩ := List.map_eq_cons_iff.mp hnames
  obtain ⟨g, rest, rfl, hname', hnil⟩ := List.map_eq_cons_iff.mp hrest
  obtain rfl := List.map_eq_nil_iff.mp hnil
  refine ⟨s, d, f, g, hs, hparse, hd, hc, hfragments, ?_, ?_⟩
  · obtain ⟨hexact, -, -⟩ := Schema.unusedFragment_exact (s := s) hd hc
      (hfragments ▸ List.mem_cons_self : f ∈ d.fragments)
    rw [hexact, not_not]
    split at hspread
    · rename_i sp
      have hroot : s.executableRoot op.type = .ok s.query := by rw [htype]; rfl
      exact ⟨op, hop, s.query, hroot, _, hstart, s.query, sp, .refl _ _,
        (beq_iff_eq.mp hspread).trans hname.symm⟩
    · cases hspread
  · have hunreached : d.Unreached g.name.text := by
      rintro op hop ⟨-, sp, hsp, hpath⟩
      rw [hall op hop sp hsp, hname'] at hpath
      rcases hpath.cases_head with heq | ⟨name, ⟨f'', u, hf'', hu, -⟩, -⟩
      · simp at heq
      · obtain rfl := Option.some.inj (hf'.symm.trans hf'')
        rw [hleaf] at hu
        cases hu
    obtain ⟨-, hreported, -⟩ := Schema.unusedFragment_exact (s := s) hd hc
      (hfragments ▸ List.mem_cons_of_mem f List.mem_cons_self : g ∈ d.fragments)
    exact ⟨hunreached, hreported hunreached⟩

/-- A subscription is not supported, and the fragment that it uses is reported as well. -/
theorem Schema.unusedFragment_reached : ∃ s d f,
    Schema.ofText "type Query \x7b a: Int \x7d" 0 = .ok s ∧
    (Document.parse "subscription \x7b ...F \x7d fragment F on Query \x7b a \x7d".toList).document?
      = some d ∧
    d.definitionProblems = [] ∧ d.cycleProblems = [] ∧ f ∈ d.fragments ∧
    ¬ d.Unreached f.name.text ∧
    ∃ e ∈ s.validate d "subscription \x7b ...F \x7d fragment F on Query \x7b a \x7d".toList,
      e.cause = .unusedFragment f.name.text := by
  have hrun : ((Sample.read? "type Query \x7b a: Int \x7d"
      "subscription \x7b ...F \x7d fragment F on Query \x7b a \x7d".toList).any fun (s, d) =>
      d.definitionProblems.isEmpty && d.cycleProblems.isEmpty && d.fragments.any fun f =>
        ((d.fragment? f.name.text).isSome && d.operations.any fun op =>
          op.selectionSet.spreads.any fun sp => sp.name.text == f.name.text) &&
        (s.validate d "subscription \x7b ...F \x7d fragment F on Query \x7b a \x7d".toList).any fun e =>
          e.cause == .unusedFragment f.name.text) = true := by
    decide +kernel
  obtain ⟨s, d, hs, hparse, hchecks⟩ := Sample.exists_of_read hrun
  simp only [Bool.and_eq_true, List.isEmpty_iff, beq_iff_eq, List.any_eq_true] at hchecks
  obtain ⟨⟨hd, hc⟩, f, hf, ⟨hsome, op, hop, sp, hsp, hname⟩, hreport⟩ := hchecks
  refine ⟨s, d, f, hs, hparse, hd, hc, hf, fun hunreached => ?_, hreport⟩
  exact hunreached op hop ⟨hsome, sp, hsp, hname ▸ .refl⟩

end GraphQL
