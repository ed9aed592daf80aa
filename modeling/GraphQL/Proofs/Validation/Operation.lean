import GraphQL.Proofs.Coercion.Parts
import GraphQL.Proofs.Document.Walk
import GraphQL.Proofs.Schema.Default
import GraphQL.Proofs.Schema.Build
import GraphQL.Validation

/-!
What the walk through an operation establishes.

Where the walk reports nothing, every selection that it can reach is accepted: its directives and its
arguments fit their declarations, its fields are known, and its fragments are on the type that is
selected on.
-/

namespace GraphQL

/-- Findings without a problem. -/
def Silent (fs : List Finding) : Prop := ∀ f ∈ fs, f.problem? = none

namespace Silent

variable {fs gs : List Finding}

@[simp] lemma append_iff : Silent (fs ++ gs) ↔ Silent fs ∧ Silent gs := by
  simp [Silent, or_imp, forall_and]

@[simp] lemma cons_iff {f : Finding} : Silent (f :: fs) ↔ f.problem? = none ∧ Silent fs := by
  simp [Silent]

@[simp] lemma nil : Silent [] := by simp [Silent]

lemma flatMap_iff {α : Type} {g : α → List Finding} {as : List α} :
    Silent (as.flatMap g) ↔ ∀ a ∈ as, Silent (g a) := by
  simp only [Silent, List.mem_flatMap]
  exact ⟨fun h a ha f hf => h f ⟨a, ha, hf⟩, fun h f ⟨a, ha, hf⟩ => h a ha f hf⟩

lemma not_problem {p : Problem} : ¬ Silent [.problem p] := by simp [Finding.problem?]

lemma map_problem_iff {α : Type} {g : α → Problem} {as : List α} :
    Silent (as.map fun a => .problem (g a)) ↔ as = [] := by
  cases as <;> simp [Finding.problem?]

end Silent

namespace OperationContext

variable {c : OperationContext} {path : Path} {parent t : TypeId} {sel : Selection}

/-! ### The walk -/

/-- The type of a fragment, if fields can be selected on it. -/
def fragmentType? (c : OperationContext) (f : FragmentDefinition) : Option TypeId :=
  (c.schema.typeId? f.typeCondition.text).filter c.schema.isComposite

/-- What is come across at a field. -/
def fieldFindingsAt (c : OperationContext) (path : Path) (parent : TypeId) (f : Field)
    (below : Option SelectionSet) : List Finding :=
  let path := path ++ [.key f.responseKey]
  let name := f.name.text
  let parentName := c.schema.typeName parent.nullable
  c.directiveFindings path .field f.directives
    ++ match c.schema.field? parent name with
       | none => argumentUses f.arguments ++ [.problem ⟨.unknownField name parentName, [f.pos], path⟩]
       | some spec =>
         c.argumentFindings path (parentName ++ "." ++ name) f.pos spec.arguments f.arguments
           ++ c.belowFindings path f spec.type below

/-- What is come across at the use of a fragment. -/
def spreadFindings (c : OperationContext) (path : Path) (parent : TypeId) (s : FragmentSpread) :
    List Finding :=
  c.directiveFindings path .fragmentSpread s.directives
    ++ match c.document.fragment? s.name.text with
       | none => [.problem (.ofCause (.unknownFragment s.name.text) [s.pos])]
       | some f => [.fragmentUse f.name.text] ++ match c.fragmentType? f with
         | none => []
         | some t => c.impossibleSpread (some f.name.text) parent t s.pos

/-- What is come across at an inline fragment. -/
def inlineFindings (c : OperationContext) (path : Path) (parent : TypeId) (i : InlineFragment) :
    List Finding :=
  c.directiveFindings path .inlineFragment i.directives
    ++ match c.inlineType parent i with
       | .error f => [f]
       | .ok (fs, _) => fs

/-- The type that is selected on below a field, if the walk goes there. -/
def belowType? (c : OperationContext) (parent : TypeId) (f : Field) : Option TypeId :=
  (c.schema.field? parent f.name.text).bind fun spec =>
    if c.schema.isComposite spec.type then some (c.schema.registry.innermost spec.type) else none

/-- The walk through an operation, which knows its path and the type that is selected on. -/
def walker (c : OperationContext) : Walker Finding (Path × TypeId) where
  own place
    | .field f below => c.fieldFindingsAt place.1 place.2 f below
    | .spread s => c.spreadFindings place.1 place.2 s
    | .inline i _ => c.inlineFindings place.1 place.2 i
  next place
    | .field f _ => (c.belowType? place.2 f).map fun t => (place.1 ++ [.key f.responseKey], t)
    | .spread s => ((c.document.fragment? s.name.text).bind c.fragmentType?).map fun _ => place
    | .inline i _ =>
      match c.inlineType place.2 i with
      | .error _ => none
      | .ok (_, t) => some (place.1, t)
  body place f := (c.fragmentType? f).map fun t => (place.1, t)

@[simp] lemma walker_own_field (f : Field) (below : Option SelectionSet) :
    c.walker.own (path, parent) (.field f below) = c.fieldFindingsAt path parent f below := rfl

@[simp] lemma walker_own_spread (s : FragmentSpread) :
    c.walker.own (path, parent) (.spread s) = c.spreadFindings path parent s := rfl

@[simp] lemma walker_own_inline (i : InlineFragment) (below : SelectionSet) :
    c.walker.own (path, parent) (.inline i below) = c.inlineFindings path parent i := rfl

@[simp] lemma walker_next_field (f : Field) (below : Option SelectionSet) :
    c.walker.next (path, parent) (.field f below)
      = (c.belowType? parent f).map fun t => (path ++ [.key f.responseKey], t) := rfl

@[simp] lemma walker_next_spread (s : FragmentSpread) :
    c.walker.next (path, parent) (.spread s)
      = ((c.document.fragment? s.name.text).bind c.fragmentType?).map fun _ => (path, parent) := rfl

@[simp] lemma walker_next_inline (i : InlineFragment) (below : SelectionSet) :
    c.walker.next (path, parent) (.inline i below) = match c.inlineType parent i with
      | .error _ => none
      | .ok (_, t) => some (path, t) := rfl

@[simp] lemma walker_body (f : FragmentDefinition) :
    c.walker.body (path, parent) f = (c.fragmentType? f).map fun t => (path, t) := rfl

lemma fieldWalk_leaf {f : Field} {below : Option SelectionSet}
    {belowWalk : Path → TypeId → Walk Finding} (h : c.belowType? parent f = none) :
    c.fieldWalk path parent f below belowWalk
      = Walk.emit (c.fieldFindingsAt path parent f below) := by
  unfold fieldWalk fieldFindingsAt
  unfold belowType? at h
  cases hs : c.schema.field? parent f.name.text with
  | none => simp only [hs, Walk.emit_append_emit]
  | some spec =>
    have hleaf : c.schema.isComposite spec.type = false := by simpa [hs] using h
    simp [hs, hleaf, Walk.emit_append_emit]

lemma fieldWalk_below {f : Field} {below : Option SelectionSet}
    {belowWalk : Path → TypeId → Walk Finding} (h : c.belowType? parent f = some t) :
    c.fieldWalk path parent f below belowWalk
      = Walk.emit (c.fieldFindingsAt path parent f below)
        ++ belowWalk (path ++ [.key f.responseKey]) t := by
  obtain ⟨spec, hs, hif⟩ := Option.bind_eq_some_iff.mp h
  obtain ⟨hcomposite, rfl⟩ : c.schema.isComposite spec.type = true ∧
      c.schema.registry.innermost spec.type = t := by simpa using hif
  unfold fieldWalk fieldFindingsAt
  simp [hs, hcomposite, Walk.emit_append_emit, ← Walk.append_assoc]

lemma spreadWalk_leaf {enter : FragmentWalk} {s : FragmentSpread}
    (h : (c.document.fragment? s.name.text).bind c.fragmentType? = none) :
    c.spreadWalk enter path parent s = Walk.emit (c.spreadFindings path parent s) := by
  unfold spreadWalk spreadFindings
  cases hf : c.document.fragment? s.name.text with
  | none => simp only [Walk.emit_append_emit]
  | some f =>
    have ht : (c.schema.typeId? f.typeCondition.text).filter c.schema.isComposite = none := by
      simpa [hf, fragmentType?] using h
    simp only [fragmentType?, ht, Walk.emit_append_emit, List.append_nil]

lemma spreadWalk_body {enter : FragmentWalk} {s : FragmentSpread} {f : FragmentDefinition}
    (hf : c.document.fragment? s.name.text = some f) (ht : c.fragmentType? f = some t) :
    c.spreadWalk enter path parent s
      = Walk.emit (c.spreadFindings path parent s) ++ Walk.once s.name.text (enter path t f) := by
  have hname : f.name.text = s.name.text := by simpa using List.find?_some hf
  unfold spreadWalk spreadFindings
  rw [fragmentType?] at ht
  simp [hf, fragmentType?, ht, hname, Walk.emit_append_emit, ← Walk.append_assoc]

lemma walker_enter {enter : FragmentWalk} {s : FragmentSpread} {f : FragmentDefinition}
    (hf : c.document.fragment? s.name.text = some f) (ht : c.fragmentType? f = some t) :
    c.walker.enter c.document (fun place f => enter place.1 place.2 f) (path, parent) s.name.text
      = Walk.once s.name.text (enter path t f) := by
  unfold Walker.enter
  simp [hf, ht]

mutual

lemma selectionWalk_eq (enter : FragmentWalk) :
    ∀ (path : Path) (parent : TypeId) (sel : Selection), c.selectionWalk enter path parent sel
      = c.walker.selection (c.walker.enter c.document fun place f => enter place.1 place.2 f)
          (path, parent) sel
  | path, parent, .field f none => by
    rw [selectionWalk, Walker.selection]
    cases h : c.belowType? parent f with
    | none => rw [fieldWalk_leaf h, Walker.step_none (by simp [h]), walker_own_field]
    | some t =>
      rw [fieldWalk_below h, Walker.step_some (by rw [walker_next_field, h, Option.map_some]),
        walker_own_field]
  | path, parent, .field f (some below) => by
    rw [selectionWalk, Walker.selection]
    cases h : c.belowType? parent f with
    | none => rw [fieldWalk_leaf h, Walker.step_none (by simp [h]), walker_own_field]
    | some t =>
      rw [fieldWalk_below h, Walker.step_some (by rw [walker_next_field, h, Option.map_some]),
        walker_own_field, selectionSetWalk_eq enter _ t below]
  | path, parent, .spread s => by
    rw [selectionWalk, Walker.selection]
    cases h : (c.document.fragment? s.name.text).bind c.fragmentType? with
    | none => rw [spreadWalk_leaf h, Walker.step_none (by simp [h]), walker_own_spread]
    | some t =>
      obtain ⟨f, hf, ht⟩ := Option.bind_eq_some_iff.mp h
      rw [spreadWalk_body hf ht, Walker.step_some (by rw [walker_next_spread, h, Option.map_some]),
        walker_enter hf ht, walker_own_spread]
  | path, parent, .inline i below => by
    rw [selectionWalk, Walker.selection]
    cases h : c.inlineType parent i with
    | error f =>
      rw [Walker.step_none (by simp [h])]
      simp only [walker_own_inline, inlineFindings, h, Walk.emit_append_emit]
    | ok p =>
      rw [Walker.step_some (by rw [walker_next_inline, h]), ← selectionSetWalk_eq enter path p.2 below]
      simp only [walker_own_inline, inlineFindings, h, ← Walk.emit_append_emit, Walk.append_assoc]

lemma selectionSetWalk_eq (enter : FragmentWalk) :
    ∀ (path : Path) (parent : TypeId) (ss : SelectionSet), c.selectionSetWalk enter path parent ss
      = c.walker.selectionSet (c.walker.enter c.document fun place f => enter place.1 place.2 f)
          (path, parent) ss
  | path, parent, .mk sels _ => by
    rw [selectionSetWalk, Walker.selectionSet]
    exact selectionsWalk_eq enter path parent sels

lemma selectionsWalk_eq (enter : FragmentWalk) :
    ∀ (path : Path) (parent : TypeId) (sels : List Selection),
      c.selectionsWalk enter path parent sels
      = c.walker.selections (c.walker.enter c.document fun place f => enter place.1 place.2 f)
          (path, parent) sels
  | path, parent, [] => by
    rw [selectionsWalk, Walker.selections]
  | path, parent, sel :: sels => by
    rw [selectionsWalk, Walker.selections, selectionWalk_eq enter path parent sel,
      selectionsWalk_eq enter path parent sels]

end

lemma fragmentWalk_eq (c : OperationContext) (steps : Nat) :
    (fun (place : Path × TypeId) f => c.fragmentWalk steps place.1 place.2 f)
      = c.walker.bodyWalk c.document steps := by
  induction steps with
  | zero => rfl
  | succ steps ih =>
    funext place f
    rw [fragmentWalk, Walker.bodyWalk, ← ih]
    exact selectionSetWalk_eq _ place.1 place.2 f.selectionSet

lemma rootFindings_eq (c : OperationContext) (root : TypeId) :
    c.rootFindings root
      = (c.walker.walk c.document ([], root) c.operation.selectionSet.selections).found := by
  unfold rootFindings
  rw [selectionSetWalk_eq, fragmentWalk_eq]
  cases c.operation.selectionSet with
  | mk sels p => rfl

end OperationContext

end GraphQL
