import GraphQL.Proofs.Sample
import GraphQL.Proofs.Validation.VariableUse

/-!
Which variables are reported as unused.

Of variables with one name the first is declared, and it is reported unless the walk through its operation
comes across a use of it. The walk looks at less than what belongs to the operation: it turns back at
unknown types and fields, it passes over arguments that are repeated, and directives of fragment
definitions are not part of it. Where nothing of this comes up, exactly those variables are reported that
nothing in the operation mentions.
-/

namespace GraphQL

variable {s : Schema} {d : Document} {op : OperationDefinition} {v w : VariableDefinition}
  {source : List Char} {root t : TypeId} {name : String} {sel : Selection}

/-- A variable is mentioned in an operation or a fragment that it leads to. -/
def Document.MentionsVariable (d : Document) (op : OperationDefinition) (name : String) : Prop :=
  Directive.Mention op.directives name ∨
  (∃ sel, d.Holds op.selectionSet sel ∧ sel.Mentions name) ∨
  ∃ f ∈ d.fragments, d.LeadsTo op.selectionSet f.name.text ∧ Directive.Mention f.directives name

/-- A variable is mentioned where the walk through an operation looks: in the directives of the operation
and of its variables, and at the selections that it comes to. -/
def Schema.FindsVariable (s : Schema) (d : Document) (op : OperationDefinition) (root : TypeId)
    (name : String) : Prop :=
  Directive.Mention op.directives name ∨
  (∃ v, op.variableNamed? v.name.text = some v ∧ Directive.Mention v.directives name) ∨
  ∃ start ∈ op.selectionSet.selections, ∃ t sel,
    s.Inspects d root start t sel ∧ s.LooksAt t name sel

namespace OperationContext

variable {c : OperationContext} {ds : List VariableDefinition} {fs : List Finding} {path : Path}

/-! ### Declarations -/

/-- Of several variables with one name the first counts, unless the name was declared before. -/
def Counts (c : OperationContext) (ds : List VariableDefinition) (v : VariableDefinition) : Prop :=
  c.declared? v.name.text = none ∧ (ds.find? fun w => w.name.text == v.name.text) = some v

lemma counts_cons_known (h : c.declared? v.name.text ≠ none) :
    c.Counts (v :: ds) w ↔ c.Counts ds w := by
  refine and_congr_right fun hnone => ?_
  have hne : v.name.text ≠ w.name.text := fun heq => h (heq ▸ hnone)
  rw [List.find?_cons, beq_false_of_ne hne]

lemma counts_cons_new (isUsable : Bool) (h : c.declared? v.name.text = none) :
    c.Counts (v :: ds) w ↔
      w = v ∨ { c with declared := c.declared ++ [DeclaredVariable.mk v isUsable] }.Counts ds w := by
  unfold Counts declared? at *
  rw [List.find?_append, Option.or_eq_none_iff, List.find?_cons, List.find?_cons, List.find?_nil]
  by_cases hname : v.name.text = w.name.text
  · simp only [beq_iff_eq.mpr hname, Option.some.injEq, reduceCtorEq, and_false, false_and, or_false]
    exact ⟨fun hw => hw.2.symm, fun hw => ⟨hw ▸ h, hw.symm⟩⟩
  · have hne : w ≠ v := fun heq => hname (heq ▸ rfl)
    simp [beq_false_of_ne hname, hne]

/-- The variables that are declared are those that count. -/
lemma exists_mem_declareAll : (∃ u ∈ (c.declareAll ds).1.declared, u.definition = v) ↔
    (∃ u ∈ c.declared, u.definition = v) ∨ c.Counts ds v := by
  induction ds generalizing c with
  | nil => simp [declareAll, Counts]
  | cons w ds ih =>
    rw [declareAll]
    cases hw : c.declared? w.name.text with
    | some first =>
      rw [counts_cons_known (by simp [hw])]
      exact ih
    | none =>
      rw [counts_cons_new (c.declare w).1 hw, ← or_assoc]
      refine ih.trans (or_congr_left ?_)
      simp [or_and_right, exists_or, eq_comm]

/-- Uses in the directives of the variables that count. -/
lemma variableUse_mem_declareAll : .variableUse name ∈ (c.declareAll ds).2 ↔
    ∃ v, c.Counts ds v ∧ Directive.Mention v.directives name := by
  induction ds generalizing c with
  | nil => simp [declareAll, Counts]
  | cons w ds ih =>
    rw [declareAll]
    cases hw : c.declared? w.name.text with
    | some first =>
      simp only [counts_cons_known (show c.declared? w.name.text ≠ none by simp [hw]), ← ih]
      simp
    | none =>
      have hhere : Finding.variableUse name ∉ (c.declare w).2 := by
        unfold declare
        dsimp only
        split
        · simp
        · split <;> simp
      simp only [counts_cons_new (c.declare w).1 hw, or_and_right, exists_or,
        exists_eq_left, ← ih]
      rw [List.mem_append, List.mem_append, variableUse_mem_directiveFindings, or_iff_left hhere]

lemma counts_iff : (OperationContext.mk s d op []).Counts op.variableDefinitions v ↔
    op.variableNamed? v.name.text = some v := by
  simp [Counts, declared?, OperationDefinition.variableNamed?]

/-! ### What is come across -/

/-- The uses that are come across in an operation that has a root type. -/
lemma variableUse_mem_findings :
    .variableUse name ∈ headFindings s d op ++ (declaredBy s d op).rootFindings root ↔
      s.FindsVariable d op root name := by
  have hroot : Finding.variableUse name ∉ (declaredBy s d op).root.2.2 := by
    unfold OperationContext.root
    rw [declaredBy_operation]
    cases op.type with
    | query => simp
    | mutation =>
      dsimp only
      split <;> simp
    | subscription => simp
  have hbelow : .variableUse name ∈ (declaredBy s d op).rootFindings root ↔
      ∃ start ∈ op.selectionSet.selections, ∃ t sel,
        s.Inspects d root start t sel ∧ s.LooksAt t name sel := by
    constructor
    · intro h
      obtain ⟨t, sel, hsel, path, hown⟩ := exists_of_mem_rootFindings h
      obtain ⟨start, hstart, hinspects⟩ := declaredBy_inspects.mp hsel
      have hlooks := variableUse_mem_own.mp hown
      rw [declaredBy_schema] at hlooks
      exact ⟨start, hstart, t, sel, hinspects, hlooks⟩
    · rintro ⟨start, hstart, t, sel, hinspects, hlooks⟩
      obtain ⟨path, hall⟩ := mem_rootFindings (declaredBy_inspects.mpr ⟨start, hstart, hinspects⟩)
      exact hall _ (variableUse_mem_own.mpr (by rwa [declaredBy_schema]))
  rw [headFindings, List.mem_append, List.mem_append, List.mem_append, or_iff_left hroot,
    variableUse_mem_declareAll, variableUse_mem_directiveFindings, hbelow]
  simp only [counts_iff]
  rw [Schema.FindsVariable, ← or_assoc]
  exact or_congr_left or_comm

/-- A declared variable is reported if no use of it was come across. -/
lemma problem_mem_unusedVariables {p : Problem} :
    .problem p ∈ (declaredBy s d op).unusedVariables fs ↔
      ∃ v, op.variableNamed? v.name.text = some v ∧ .variableUse v.name.text ∉ fs ∧
        p = .ofCause (.unusedVariable v.name.text op.nameText?) [v.pos] := by
  have hused (n : String) : n ∈ fs.filterMap (·.usedVariable?) ↔ .variableUse n ∈ fs := by
    rw [List.mem_filterMap]
    constructor
    · rintro ⟨f, hf, hn⟩
      cases f with
      | problem _ => simp [Finding.usedVariable?] at hn
      | variableUse m => exact Option.some.inj hn ▸ hf
      | fragmentUse _ => simp [Finding.usedVariable?] at hn
    · exact fun h => ⟨_, h, rfl⟩
  have hdeclared (v : VariableDefinition) :
      (∃ u ∈ (declaredBy s d op).declared, u.definition = v) ↔
        op.variableNamed? v.name.text = some v := by
    rw [declaredBy, exists_mem_declareAll, counts_iff]
    simp
  simp only [unusedVariables, List.mem_map, List.mem_filter, Finding.problem.injEq,
    List.contains_eq_mem, Bool.not_eq_true', decide_eq_false_iff_not, hused, declaredBy_operation]
  constructor
  · rintro ⟨u, ⟨hu, hnot⟩, rfl⟩
    exact ⟨u.definition, (hdeclared _).mp ⟨u, hu, rfl⟩, hnot, rfl⟩
  · rintro ⟨v, hv, hnot, rfl⟩
    obtain ⟨u, hu, rfl⟩ := (hdeclared v).mpr hv
    exact ⟨u, ⟨hu, hnot⟩, rfl⟩

/-! ### Repeated arguments -/

/-- An argument whose name was supplied before is reported. -/
lemma duplicate_of_seen {owner : String} {declared : List InputSpec} {seen : List (String × Pos)}
    {args : List Argument} {a : Argument} (ha : a ∈ args) (hseen : seen.lookup a.name.text ≠ none) :
    ∃ p, .problem p ∈ c.suppliedFindings path owner declared seen args ∧
      p.cause = .duplicateArgument a.name.text := by
  induction args generalizing seen with
  | nil => cases ha
  | cons b args ih =>
    rw [suppliedFindings_cons]
    rcases List.mem_cons.mp ha with rfl | ha
    · obtain ⟨first, hfirst⟩ := Option.ne_none_iff_exists'.mp hseen
      refine ⟨⟨.duplicateArgument a.name.text, [first, a.pos], path⟩, List.mem_append_left _ ?_, rfl⟩
      simp [suppliedAt, hfirst]
    · have hseen' : ((b.name.text, b.pos) :: seen).lookup a.name.text ≠ none := by
        rw [List.lookup_cons]
        split
        · simp
        · exact hseen
      obtain ⟨p, hp, hcause⟩ := ih ha hseen'
      exact ⟨p, List.mem_append_right _ hp, hcause⟩

/-- An argument in front of which another one has its name is reported. -/
lemma duplicate_of_not_first {owner : String} {declared : List InputSpec}
    {seen : List (String × Pos)} {args : List Argument} {a : Argument} (ha : a ∈ args)
    (hfirst : Argument.find? args a.name.text ≠ some a) :
    ∃ p, .problem p ∈ c.suppliedFindings path owner declared seen args ∧
      p.cause = .duplicateArgument a.name.text := by
  induction args generalizing seen with
  | nil => cases ha
  | cons b args ih =>
    rw [suppliedFindings_cons]
    rw [find?_cons] at hfirst
    by_cases hname : b.name.text = a.name.text
    · rw [if_pos hname] at hfirst
      have ha : a ∈ args := (List.mem_cons.mp ha).resolve_left fun heq => hfirst (heq ▸ rfl)
      have hseen : ((b.name.text, b.pos) :: seen).lookup a.name.text ≠ none := by
        rw [List.lookup_cons, beq_iff_eq.mpr hname.symm]
        simp
      obtain ⟨p, hp, hcause⟩ := duplicate_of_seen ha hseen
      exact ⟨p, List.mem_append_right _ hp, hcause⟩
    · rw [if_neg hname] at hfirst
      have ha : a ∈ args := (List.mem_cons.mp ha).resolve_left fun heq => hname (heq ▸ rfl)
      obtain ⟨p, hp, hcause⟩ := ih ha hfirst
      exact ⟨p, List.mem_append_right _ hp, hcause⟩

end OperationContext

open OperationContext

/-! ### What is reported -/

/-- A declared variable is reported if and only if it is not mentioned where the walk looks. -/
lemma unusedVariable_mem_validate (hd : d.definitionProblems = []) (hc : d.cycleProblems = [])
    (hop : op ∈ d.operations) (hroot : s.executableRoot op.type = .ok root)
    (hv : v ∈ op.variableDefinitions) :
    (∃ e ∈ s.validate d source, e.cause = .unusedVariable v.name.text op.nameText?) ↔
      ¬ s.FindsVariable d op root v.name.text := by
  constructor
  · rintro ⟨e, he, hcause⟩
    obtain ⟨p, hp, rfl⟩ := (mem_validate hd hc).mp he
    have hcause : p.cause = .unusedVariable v.name.text op.nameText? := hcause
    rcases isUnused_cases hp (by rw [hcause]; rfl) with hp | ⟨op', hop', root', hroot', hp⟩
    · obtain ⟨f, -, -, rfl⟩ := mem_unusedFragments.mp hp
      cases hcause
    · obtain ⟨w, -, hnot, rfl⟩ := problem_mem_unusedVariables.mp hp
      obtain ⟨hname, hop''⟩ := ValidationCause.unusedVariable.inj hcause
      obtain rfl := eq_of_nameText? hd hop' hop hop''
      obtain rfl := Except.ok.inj (hroot'.symm.trans hroot)
      rwa [variableUse_mem_findings, hname] at hnot
  · intro hnot
    obtain ⟨w, hw⟩ : ∃ w, op.variableNamed? v.name.text = some w := by
      refine Option.isSome_iff_exists.mp (List.find?_isSome.mpr ⟨v, hv, ?_⟩)
      exact beq_self_eq_true _
    have hname : w.name.text = v.name.text := by simpa using List.find?_some hw
    have hp : .problem (.ofCause (.unusedVariable w.name.text op.nameText?) [w.pos])
        ∈ operationFindings s d op := by
      rw [operationFindings_of_root hroot]
      refine List.mem_append_right _ (problem_mem_unusedVariables.mpr ⟨w, hname ▸ hw, ?_, rfl⟩)
      rwa [variableUse_mem_findings, hname]
    refine ⟨_, (mem_validate hd hc).mpr ⟨_, mem_executionProblems.mpr (.inr (.inl ⟨op, hop, hp⟩)), rfl⟩,
      ?_⟩
    rw [← hname]
    rfl

/-- Where a walk looks, a variable is mentioned in the operation or in the directives of a variable. -/
lemma Schema.FindsVariable.mentions (h : s.FindsVariable d op root name) :
    d.MentionsVariable op name ∨ ∃ v ∈ op.variableDefinitions, Directive.Mention v.directives name := by
  rcases h with h | ⟨v, hv, h⟩ | ⟨start, hstart, t, sel, hinspects, hlooks⟩
  · exact .inl (.inl h)
  · exact .inr ⟨v, List.mem_of_find?_eq_some hv, h⟩
  · exact .inl (.inr (.inl ⟨sel, hinspects.holds hstart, hlooks.mentions⟩))

/-- Where no argument is reported as repeated, all that stands in a selection is looked at. -/
lemma looksAt_of_mentions (hd : d.definitionProblems = []) (hc : d.cycleProblems = [])
    (hop : op ∈ d.operations) (hroot : s.executableRoot op.type = .ok root)
    (hreports : ∀ e ∈ s.validate d source, ∀ n, e.cause ≠ .duplicateArgument n)
    (hsel : (declaredBy s d op).Inspects root t sel) (h : sel.Mentions name) :
    s.LooksAt t name sel := by
  rcases h with h | ⟨a, ha, hmention⟩
  · exact .directive h
  · cases sel with
    | spread _ => cases ha
    | inline _ _ => cases ha
    | field f below =>
      refine .argument ha (fun hknown => ?_) hmention
      by_contra hfirst
      obtain ⟨spec, hspec⟩ := Option.isSome_iff_exists.mp hknown
      obtain ⟨path, hall⟩ := mem_rootFindings hsel
      obtain ⟨p, hp, hcause⟩ : ∃ p, .problem p ∈ (declaredBy s d op).fieldFindingsAt path t f below ∧
          p.cause = .duplicateArgument a.name.text := by
        obtain ⟨p, hp, hcause⟩ := duplicate_of_not_first ha hfirst
        refine ⟨p, List.mem_append_right _ ?_, hcause⟩
        rw [declaredBy_schema, hspec]
        exact List.mem_append_left _ (List.mem_append_left _ hp)
      have hmem : .problem p ∈ operationFindings s d op := by
        rw [operationFindings_of_root hroot]
        exact List.mem_append_left _ (List.mem_append_right _ (hall _ hp))
      exact hreports (p.locate source) ((mem_validate hd hc).mpr
        ⟨p, mem_executionProblems.mpr (.inr (.inl ⟨op, hop, hmem⟩)), rfl⟩) _ hcause

/-- **Unused variables**: a declared variable of an operation with a root type is reported exactly if it
is not mentioned where the walk through the operation looks. All variables are that the operation does not
mention, in itself, in the fragments that it leads to or in its declarations; and if nothing is reported
for which something is passed over, and directives of definitions do not mention the variable, those are
all. -/
theorem Schema.unusedVariable_exact (hd : d.definitionProblems = []) (hc : d.cycleProblems = [])
    (hop : op ∈ d.operations) (hroot : s.executableRoot op.type = .ok root)
    (hv : v ∈ op.variableDefinitions) :
    ((∃ e ∈ s.validate d source, e.cause = .unusedVariable v.name.text op.nameText?) ↔
      ¬ s.FindsVariable d op root v.name.text) ∧
    (¬ d.MentionsVariable op v.name.text →
      (∀ w ∈ op.variableDefinitions, ¬ Directive.Mention w.directives v.name.text) →
      ∃ e ∈ s.validate d source, e.cause = .unusedVariable v.name.text op.nameText?) ∧
    ((∀ e ∈ s.validate d source, e.cause.cutsOff = false ∧ ∀ n, e.cause ≠ .duplicateArgument n) →
      (∀ f ∈ d.fragments, d.LeadsTo op.selectionSet f.name.text →
        ¬ Directive.Mention f.directives v.name.text) →
      (∀ w ∈ op.variableDefinitions, ¬ Directive.Mention w.directives v.name.text) →
      ((∃ e ∈ s.validate d source, e.cause = .unusedVariable v.name.text op.nameText?) ↔
        ¬ d.MentionsVariable op v.name.text)) := by
  have hiff : (∃ e ∈ s.validate d source, e.cause = .unusedVariable v.name.text op.nameText?) ↔
      ¬ s.FindsVariable d op root v.name.text := unusedVariable_mem_validate hd hc hop hroot hv
  have hmentions (hdefinitions : ∀ w ∈ op.variableDefinitions,
      ¬ Directive.Mention w.directives v.name.text)
      (hnot : ¬ d.MentionsVariable op v.name.text) : ¬ s.FindsVariable d op root v.name.text := by
    intro h
    rcases h.mentions with h | ⟨w, hw, h⟩
    · exact hnot h
    · exact hdefinitions w hw h
  refine ⟨hiff, fun hnot hdefinitions => hiff.mpr (hmentions hdefinitions hnot),
    fun hreports hfragments hdefinitions => hiff.trans ⟨fun hnot => ?_, hmentions hdefinitions⟩⟩
  rintro (h | ⟨sel, hsel, h⟩ | ⟨f, hf, hleads, h⟩)
  · exact hnot (.inl h)
  · have hgo := goesOn_of_validate hd hc hop hroot fun e he => (hreports e he).1
    obtain ⟨t, ht⟩ : ∃ t, (declaredBy s d op).Inspects root t sel :=
      hgo.inspects (by rwa [declaredBy_document, declaredBy_operation])
    have hlooks := looksAt_of_mentions hd hc hop hroot (fun e he => (hreports e he).2) ht h
    obtain ⟨start, hstart, hinspects⟩ := declaredBy_inspects.mp ht
    exact hnot (.inr (.inr ⟨start, hstart, t, sel, hinspects, hlooks⟩))
  · exact hfragments f hf hleads h

/-- Two variables are declared, and the first is used. -/
def twoDeclared : List Char :=
  "query ($a: Int, $b: Int) \x7b f(x: $a) \x7d".toList

/-- Whether the document is one operation that declares `a` and `b`, and has `a` in an argument and
`b` in none. -/
def usesFirst (d : Document) : Bool :=
  d.definitionProblems.isEmpty && d.cycleProblems.isEmpty && d.fragments.isEmpty &&
  match d.operations with
  | [op] => op.type == .query && op.directives.isEmpty &&
    (op.variableDefinitions.all fun v => v.directives.isEmpty) &&
    op.variableDefinitions.map (·.name.text) == ["a", "b"] &&
    (op.selectionSet.selections.any fun sel => match sel with
      | .field ⟨_, _, [a], _, _⟩ _ => a.value.variableUses.any fun use => use.1 == "a"
      | _ => false) &&
    op.selectionSet.nested.all fun sel => sel.directives.isEmpty && sel.arguments.all fun a =>
      a.value.variableUses.all fun use => use.1 != "b"
  | _ => false

theorem Schema.unusedVariable_exact_of_twoDeclared : ∃ s d op a b,
    Schema.ofText "type Query \x7b f(x: Int): Int \x7d" 0 = .ok s ∧
    (Document.parse twoDeclared).document? = some d ∧
    d.definitionProblems = [] ∧ d.cycleProblems = [] ∧ d.operations = [op] ∧
    s.executableRoot op.type = .ok s.query ∧ op.variableDefinitions = [a, b] ∧
    (¬ ∃ e ∈ s.validate d twoDeclared, e.cause = .unusedVariable a.name.text op.nameText?) ∧
    ¬ d.MentionsVariable op b.name.text ∧
    ∃ e ∈ s.validate d twoDeclared, e.cause = .unusedVariable b.name.text op.nameText? := by
  have hrun : ((Sample.read? "type Query \x7b f(x: Int): Int \x7d" twoDeclared).any fun run =>
      usesFirst run.2) = true := by
    decide +kernel
  obtain ⟨s, d, hs, hparse, hchecks⟩ := Sample.exists_of_read hrun
  simp only [usesFirst, Bool.and_eq_true, List.isEmpty_iff] at hchecks
  obtain ⟨⟨⟨hd, hc⟩, hfragments⟩, hchecks⟩ := hchecks
  split at hchecks
  · rename_i op hop
    simp only [Bool.and_eq_true, List.isEmpty_iff, beq_iff_eq, List.any_eq_true,
      List.all_eq_true, bne_iff_ne] at hchecks
    obtain ⟨⟨⟨⟨⟨htype, hdirectives⟩, hdefinitions⟩, hnames⟩, sel, hsel, huse⟩, hall⟩ := hchecks
    obtain ⟨a, rest, hvariables, ha, hrest⟩ := List.map_eq_cons_iff.mp hnames
    obtain ⟨b, rest, rfl, hb, hnil⟩ := List.map_eq_cons_iff.mp hrest
    obtain rfl := List.map_eq_nil_iff.mp hnil
    have hroot : s.executableRoot op.type = .ok s.query := by rw [htype]; rfl
    have hmem : op ∈ d.operations := hop ▸ List.mem_cons_self
    refine ⟨s, d, op, a, b, hs, hparse, hd, hc, hop, hroot, hvariables, ?_, ?_⟩
    · obtain ⟨hexact, -, -⟩ := Schema.unusedVariable_exact (s := s) hd hc hmem hroot
        (hvariables ▸ List.mem_cons_self : a ∈ op.variableDefinitions)
      rw [hexact, not_not, ha]
      refine .inr (.inr ⟨sel, hsel, s.query, sel, .refl _ _, ?_⟩)
      split at huse
      · rename_i x _ _ _
        obtain ⟨use, hmem, hname⟩ := List.any_eq_true.mp huse
        have hmention : x.value.Mentions "a" := ⟨use.2, (beq_iff_eq.mp hname) ▸ hmem⟩
        exact .argument List.mem_cons_self (fun _ => by simp [Field.argument?, Argument.find?]) hmention
      · cases huse
    · have hnot : ¬ d.MentionsVariable op b.name.text := by
        rintro (⟨x, hx, -⟩ | ⟨sel, hsel | ⟨f, hf, -⟩, h⟩ | ⟨f, hf, -⟩)
        · rw [hdirectives] at hx
          cases hx
        · obtain ⟨hnone, huses⟩ := hall sel hsel
          rcases h with ⟨x, hx, -⟩ | ⟨x, hx, q, hq⟩
          · rw [hnone] at hx
            cases hx
          · exact huses x hx _ hq hb
        · exact List.ne_nil_of_mem (Document.fragment?_mem hf) hfragments
        · exact List.ne_nil_of_mem hf hfragments
      obtain ⟨-, hreported, -⟩ := Schema.unusedVariable_exact (s := s) hd hc hmem hroot
        (hvariables ▸ List.mem_cons_of_mem a List.mem_cons_self : b ∈ op.variableDefinitions)
      refine ⟨hnot, hreported hnot fun w hw => ?_⟩
      rintro ⟨x, hx, -⟩
      rw [hdefinitions w hw] at hx
      cases hx
  · cases hchecks

/-- A variable is mentioned in an argument that is repeated, and reported as unused as well. -/
theorem Schema.unusedVariable_mentioned : ∃ s d op v,
    Schema.ofText "type Query \x7b f(x: Int): Int \x7d" 0 = .ok s ∧
    (Document.parse "query ($v: Int) \x7b f(x: 1, x: $v) \x7d".toList).document? = some d ∧
    d.definitionProblems = [] ∧ d.cycleProblems = [] ∧ op ∈ d.operations ∧
    s.executableRoot op.type = .ok s.query ∧ v ∈ op.variableDefinitions ∧
    d.MentionsVariable op v.name.text ∧
    ∃ e ∈ s.validate d "query ($v: Int) \x7b f(x: 1, x: $v) \x7d".toList,
      e.cause = .unusedVariable v.name.text op.nameText? := by
  have hrun : ((Sample.read? "type Query \x7b f(x: Int): Int \x7d"
      "query ($v: Int) \x7b f(x: 1, x: $v) \x7d".toList).any fun (s, d) =>
      d.definitionProblems.isEmpty && d.cycleProblems.isEmpty && d.operations.any fun op =>
        op.type == .query && op.variableDefinitions.any fun v =>
          (op.selectionSet.nested.any fun sel => sel.arguments.any fun a =>
            a.value.variableUses.any fun use => use.1 == v.name.text) &&
          (operationFindings s d op).any fun f => f.problem?.any fun p =>
            p.cause == .unusedVariable v.name.text op.nameText?) = true := by
    decide +kernel
  obtain ⟨s, d, hs, hparse, hchecks⟩ := Sample.exists_of_read hrun
  simp only [Bool.and_eq_true, List.isEmpty_iff, beq_iff_eq, List.any_eq_true,
    Option.any_eq_true] at hchecks
  obtain ⟨⟨hd, hc⟩, op, hop, htype, v, hv, ⟨sel, hsel, a, ha, use, huse, hname⟩, f, hf, p, hp, hcause⟩ :=
    hchecks
  have hroot : s.executableRoot op.type = .ok s.query := by rw [htype]; rfl
  have hmention : a.value.Mentions v.name.text := ⟨use.2, hname ▸ huse⟩
  refine ⟨s, d, op, v, hs, hparse, hd, hc, hop, hroot, hv,
    .inr (.inl ⟨sel, .inl hsel, .inr ⟨a, ha, hmention⟩⟩), ?_⟩
  cases f with
  | problem q =>
    obtain rfl := Option.some.inj hp
    exact ⟨_, (mem_validate hd hc).mpr ⟨q, mem_executionProblems.mpr (.inr (.inl ⟨op, hop, hf⟩)), rfl⟩,
      hcause⟩
  | variableUse _ => cases hp
  | fragmentUse _ => cases hp

end GraphQL
