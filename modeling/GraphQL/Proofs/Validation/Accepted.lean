import GraphQL.Proofs.Lists
import GraphQL.Proofs.Validation.Operation

/-!
What the walk through an operation accepts.

A selection is accepted if the walk has nothing to report there or anywhere behind it. What that means
does not depend on the path on which the walk has come.
-/

namespace GraphQL

namespace OperationContext

variable {c : OperationContext} {path : Path} {parent t : TypeId} {sel : Selection}
  {declared : List InputSpec} {args : List Argument} {location : DirectiveLocation}
  {ds : List Directive} {d : InputSpec} {v : Literal}

/-! ### Arguments and directives -/

/-- There is nothing to report of supplied arguments. -/
def AcceptsArguments (c : OperationContext) (declared : List InputSpec) (args : List Argument) :
    Prop :=
  ∃ path owner p, Silent (c.argumentFindings path owner p declared args)

def AcceptsDirectives (c : OperationContext) (location : DirectiveLocation) (ds : List Directive) :
    Prop :=
  ∃ path, Silent (c.directiveFindings path location ds)

/-- There is nothing to report of the value of an argument. -/
def AcceptsValue (c : OperationContext) (d : InputSpec) (v : Literal) : Prop :=
  ∃ path, Silent (c.valueFindings path d v)

lemma supplied_accepted {owner : String} {seen : List (String × Pos)}
    (h : Silent (c.suppliedFindings path owner declared seen args)) :
    ∀ a ∈ args, ∃ d, (declared.find? fun d => d.name == a.name.text) = some d ∧
      c.AcceptsValue d a.value := by
  induction args generalizing seen with
  | nil => simp
  | cons a args ih =>
    rw [suppliedFindings, Silent.append_iff] at h
    obtain ⟨hhere, hrest⟩ := h
    refine List.forall_mem_cons.mpr ⟨?_, ih hrest⟩
    split at hhere
    · exact absurd hhere Silent.not_problem
    · split at hhere
      · rename_i d hd
        exact ⟨d, hd, path, hhere⟩
      · exact absurd (Silent.append_iff.mp hhere).2 Silent.not_problem

lemma find?_of_nodup (hnodup : (declared.map (·.name)).Nodup) (hd : d ∈ declared) {name : String}
    (hname : name = d.name) : (declared.find? fun e => e.name == name) = some d :=
  hname ▸ find?_of_nodup_keys hnodup hd

/-- The value of an accepted argument is accepted. -/
lemma AcceptsArguments.value (h : c.AcceptsArguments declared args)
    (hnodup : (declared.map (·.name)).Nodup) (hd : d ∈ declared) {a : Argument}
    (ha : Argument.find? args d.name = some a) : c.AcceptsValue d a.value := by
  obtain ⟨path, owner, p, hsilent⟩ := h
  obtain ⟨hsupplied, -⟩ := Silent.append_iff.mp hsilent
  have hname : a.name.text = d.name := by simpa using List.find?_some ha
  obtain ⟨e, he, hvalue⟩ := supplied_accepted hsupplied a (List.mem_of_find?_eq_some ha)
  rw [find?_of_nodup hnodup hd hname] at he
  exact Option.some.inj he ▸ hvalue

/-- No required argument is left out. -/
lemma AcceptsArguments.required (h : c.AcceptsArguments declared args) (hd : d ∈ declared)
    (hreq : d.isRequired = true) : (Argument.find? args d.name).isSome := by
  obtain ⟨path, owner, p, hsilent⟩ := h
  obtain ⟨-, hmissing⟩ := Silent.append_iff.mp hsilent
  have hnil := List.filter_eq_nil_iff.mp (Silent.map_problem_iff.mp hmissing) d hd
  simpa [hreq, Option.isSome_iff_ne_none] using hnil

lemma AcceptsValue.literal (h : c.AcceptsValue d v) (hv : v.var? = none) :
    c.schema.literalErrors d.type v = [] := by
  obtain ⟨path, hsilent⟩ := h
  rw [valueFindings, hv] at hsilent
  exact Silent.map_problem_iff.mp (Silent.append_iff.mp hsilent).2

lemma AcceptsValue.uses (h : c.AcceptsValue d v) :
    ∃ path, Silent (c.literalFindings path d.type d.default?.isSome v) := by
  obtain ⟨path, hsilent⟩ := h
  exact ⟨path, (Silent.append_iff.mp hsilent).1⟩

/-- Directives that may all stand where they are have their definitions. -/
lemma placed_of_misplaced (s : Schema) (seen : List (String × Pos))
    (h : (s.placeDirectives location seen ds).filterMap (fun
      | .error p => some p
      | .ok _ => none) = []) :
    ∀ d ∈ ds, ∃ spec, s.directive? d.name.text = some spec ∧
      .ok ⟨d, spec⟩ ∈ s.placeDirectives location seen ds := by
  induction ds generalizing seen with
  | nil => simp
  | cons d ds ih =>
    rw [Schema.placeDirectives] at h ⊢
    split at h
    · simp at h
    · rename_i spec hspec
      split at h
      · simp at h
      · rename_i hlocation
        rw [if_neg hlocation]
        cases hseen : seen.lookup d.name.text with
        | some first => simp [hseen] at h
        | none =>
          simp only [hseen, List.filterMap_cons] at h
          refine List.forall_mem_cons.mpr ⟨⟨spec, hspec, List.mem_cons_self⟩, fun d' hd' => ?_⟩
          obtain ⟨spec', hspec', hmem⟩ := ih _ h d' hd'
          exact ⟨spec', hspec', List.mem_cons_of_mem _ hmem⟩

/-- Accepted directives have definitions, and accepted arguments. -/
lemma AcceptsDirectives.arguments (h : c.AcceptsDirectives location ds) :
    ∀ d ∈ ds, ∃ spec, c.schema.directive? d.name.text = some spec ∧
      c.AcceptsArguments spec.arguments d.arguments := by
  obtain ⟨path, hsilent⟩ := h
  rw [directiveFindings, Silent.append_iff, Silent.append_iff] at hsilent
  obtain ⟨⟨-, hmisplaced⟩, hplaced⟩ := hsilent
  rw [Silent.flatMap_iff] at hplaced
  intro d hd
  obtain ⟨spec, hspec, hmem⟩ :=
    placed_of_misplaced c.schema [] (Silent.map_problem_iff.mp hmisplaced) d hd
  refine ⟨spec, hspec, path, _, _, hplaced ⟨d, spec⟩ ?_⟩
  exact List.mem_filterMap.mpr ⟨_, hmem, rfl⟩

/-! ### Selections -/

/-- The walk has come to a selection, and has nothing to report there or anywhere behind it. -/
def Accepts (c : OperationContext) (parent : TypeId) (sel : Selection) : Prop :=
  ∃ path fs entered, Silent fs ∧ c.walker.Covers fs entered (path, parent) sel ∧
    ∀ name ∈ entered, c.walker.CoversBody c.document fs entered name

def AcceptsSet (c : OperationContext) (parent : TypeId) (ss : SelectionSet) : Prop :=
  ∀ sel ∈ ss.selections, c.Accepts parent sel

lemma acceptsSet_of_rootFindings {root : TypeId} (h : Silent (c.rootFindings root)) :
    c.AcceptsSet root c.operation.selectionSet := by
  rw [rootFindings_eq] at h
  obtain ⟨entered, hcovers, hbodies⟩ := c.walker.walk_covers c.document ([], root)
    c.operation.selectionSet.selections
  exact fun sel hsel => ⟨[], _, entered, h, hcovers sel hsel, hbodies⟩

/-- A field that selections can be put below has accepted ones, and any other has none. -/
structure AcceptsField (c : OperationContext) (parent : TypeId) (f : Field)
    (below : Option SelectionSet) (spec : FieldSpec) : Prop where
  known : c.schema.field? parent f.name.text = some spec
  arguments : c.AcceptsArguments spec.arguments f.arguments
  composite : c.schema.isComposite spec.type = true →
    ∃ ss, below = some ss ∧ c.AcceptsSet (c.schema.registry.innermost spec.type) ss
  leaf : c.schema.isComposite spec.type = false → below = none

lemma Accepts.field {f : Field} {below : Option SelectionSet}
    (h : c.Accepts parent (.field f below)) :
    c.AcceptsDirectives .field f.directives ∧ ∃ spec, c.AcceptsField parent f below spec := by
  obtain ⟨path, fs, entered, hsilent, hcovers, hbodies⟩ := h
  have hown : Silent (c.fieldFindingsAt path parent f below) := fun x hx =>
    hsilent x (hcovers.own x hx)
  obtain ⟨hdirectives, hfield⟩ := Silent.append_iff.mp hown
  refine ⟨⟨_, hdirectives⟩, ?_⟩
  cases hspec : c.schema.field? parent f.name.text with
  | none =>
    rw [hspec] at hfield
    exact absurd (Silent.append_iff.mp hfield).2 Silent.not_problem
  | some spec =>
    rw [hspec] at hfield
    obtain ⟨harguments, hbelow⟩ := Silent.append_iff.mp hfield
    refine ⟨spec, hspec, ⟨_, _, _, harguments⟩, fun hcomposite => ?_, fun hleaf => ?_⟩
    · cases below with
      | none => simp [belowFindings, hcomposite, Finding.problem?] at hbelow
      | some ss =>
        have hnext : c.walker.next (path, parent) (.field f (some ss))
            = some (path ++ [.key f.responseKey], c.schema.registry.innermost spec.type) := by
          simp [belowType?, hspec, hcomposite]
        exact ⟨ss, rfl, fun sel hsel => ⟨_, fs, entered, hsilent, hcovers.inside hnext rfl hsel,
          hbodies⟩⟩
    · cases below with
      | none => rfl
      | some ss => simp [belowFindings, hleaf, Finding.problem?] at hbelow

lemma eq_of_impossibleSpread {fragment : Option String} {p : Pos}
    (h : Silent (c.impossibleSpread fragment parent t p)) : t = parent.nullable := by
  unfold impossibleSpread at h
  split at h
  · rename_i heq
    exact heq
  · exact absurd h Silent.not_problem

/-- The fragments of the document are on types that fields can be selected on. -/
def FragmentsFit (c : OperationContext) : Prop :=
  ∀ f ∈ c.document.fragments, ∃ t, c.schema.typeId? f.typeCondition.text = some t ∧
    c.schema.isComposite t = true

lemma Accepts.spread {s : FragmentSpread} (hfit : c.FragmentsFit) (hp : parent.isNonNull = false)
    (h : c.Accepts parent (.spread s)) :
    c.AcceptsDirectives .fragmentSpread s.directives ∧
      ∃ f, c.document.fragment? s.name.text = some f ∧
        c.schema.typeId? f.typeCondition.text = some parent ∧ c.AcceptsSet parent f.selectionSet := by
  obtain ⟨path, fs, entered, hsilent, hcovers, hbodies⟩ := h
  have hown : Silent (c.spreadFindings path parent s) := fun x hx => hsilent x (hcovers.own x hx)
  obtain ⟨hdirectives, hspread⟩ := Silent.append_iff.mp hown
  refine ⟨⟨_, hdirectives⟩, ?_⟩
  cases hf : c.document.fragment? s.name.text with
  | none =>
    rw [hf] at hspread
    exact absurd hspread Silent.not_problem
  | some f =>
    obtain ⟨t, ht, hcomposite⟩ := hfit f (List.mem_of_find?_eq_some hf)
    have hkind : c.fragmentType? f = some t := by simp [fragmentType?, ht, Option.filter, hcomposite]
    rw [hf] at hspread
    simp only [hkind, Silent.append_iff] at hspread
    have heq : t = parent := (eq_of_impossibleSpread hspread.2).trans (by rw [TypeId.nullable, ← hp])
    have hnext : c.walker.next (path, parent) (.spread s) = some (path, parent) := by
      simp [hf, hkind]
    obtain ⟨place, hbody⟩ := hbodies _ (hcovers.spread hnext)
    have hplace : c.walker.body place f = some (place.1, t) := by
      rw [← Prod.mk.eta (p := place), walker_body, hkind, Option.map_some]
    subst heq
    exact ⟨f, rfl, ht, fun sel hsel =>
      ⟨place.1, fs, entered, hsilent, hbody f _ hf hplace sel hsel, hbodies⟩⟩

lemma Accepts.inline {i : InlineFragment} {below : SelectionSet} (hp : parent.isNonNull = false)
    (h : c.Accepts parent (.inline i below)) :
    c.AcceptsDirectives .inlineFragment i.directives ∧
      (∀ n, i.typeCondition = some n → c.schema.typeId? n.text = some parent) ∧
      c.AcceptsSet parent below := by
  obtain ⟨path, fs, entered, hsilent, hcovers, hbodies⟩ := h
  have hown : Silent (c.inlineFindings path parent i) := fun x hx => hsilent x (hcovers.own x hx)
  obtain ⟨hdirectives, hinline⟩ := Silent.append_iff.mp hown
  have hnullable : parent.nullable = parent := by rw [TypeId.nullable, ← hp]
  have htype : ∀ gs, c.inlineType parent i = .ok (gs, parent) → c.AcceptsSet parent below := by
    intro gs hok sel hsel
    have hnext : c.walker.next (path, parent) (.inline i below) = some (path, parent) := by
      simp [hok]
    exact ⟨path, fs, entered, hsilent, hcovers.inside hnext rfl hsel, hbodies⟩
  refine ⟨⟨_, hdirectives⟩, ?_⟩
  cases hcondition : i.typeCondition with
  | none => exact ⟨by simp, htype [] (by simp [inlineType, hcondition])⟩
  | some n =>
    cases ht : c.schema.typeId? n.text with
    | none => simp [inlineType, hcondition, ht, Finding.problem?] at hinline
    | some t =>
      by_cases hcomposite : c.schema.isComposite t = true
      · simp only [inlineType, hcondition, ht, hcomposite, if_true] at hinline
        have heq : t = parent := (eq_of_impossibleSpread hinline).trans hnullable
        subst heq
        refine ⟨fun m hm => Option.some.inj hm ▸ ht,
          htype (c.impossibleSpread none t t i.pos) ?_⟩
        simp only [inlineType, hcondition, ht, hcomposite, if_true]
      · simp [inlineType, hcondition, ht, hcomposite, Finding.problem?] at hinline

end OperationContext

end GraphQL
