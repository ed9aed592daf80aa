import GraphQL.Proofs.Coercion.Variables
import GraphQL.Proofs.Schema.Members
import GraphQL.Proofs.Validation.Accepted

/-!
What the checks of variables establish.

The variables of an accepted operation have distinct names, and wherever one of them is used the place
accepts its type. A place that excludes null may be relaxed for a variable that has a default, but
never for one that can be without a value.
-/

namespace GraphQL

namespace OperationContext

open CoercionContext (UsesVariable)

variable {c : OperationContext} {path : Path} {t l : TypeId} {b hasDefault : Bool} {v : Literal}
  {name : String} {ds : List VariableDefinition} {d : VariableDefinition}

/-! ### Uses of variables -/

lemma itemFindings_silent {items : List Literal} (h : Silent (c.itemFindings path t items))
    (hv : v ∈ items) : Silent (c.literalFindings path t false v) := by
  induction items with
  | nil => simp at hv
  | cons u items ih =>
    rw [itemFindings, Silent.append_iff] at h
    rcases List.mem_cons.mp hv with rfl | hv
    · exact h.1
    · exact ih h.2 hv

lemma fieldFindings_silent {declared : List InputSpec} {fields : List (Name × Literal)}
    {i : InputSpec} {f : Name × Literal} (h : Silent (c.fieldFindings path declared fields))
    (hf : f ∈ fields) (hi : (declared.find? fun i => i.name == f.1.text) = some i) :
    Silent (c.literalFindings path i.type i.default?.isSome f.2) := by
  induction fields with
  | nil => simp at hf
  | cons g fields ih =>
    obtain ⟨n, u⟩ := g
    rw [fieldFindings, Silent.append_iff] at h
    rcases List.mem_cons.mp hf with rfl | hf
    · have hhere := h.1
      rw [hi] at hhere
      exact hhere
    · exact ih h.2 hf

/-- Every variable of a literal has been checked at the place where it stands. -/
lemma variableProblem_of_uses (hs : c.schema.WellFormed)
    (h : Silent (c.literalFindings path t hasDefault v))
    (huse : UsesVariable c.schema v t hasDefault name l b) :
    ∃ p, c.variableProblem path l b name p = none := by
  induction huse with
  | @here name p t hasDefault =>
    refine ⟨p, ?_⟩
    rw [literalFindings, Silent.cons_iff] at h
    cases hproblem : c.variableProblem path t hasDefault name p with
    | none => rfl
    | some problem => simp [hproblem, Finding.problem?] at h
  | item element mem below ih =>
    rw [literalFindings, element] at h
    exact ih (itemFindings_silent h mem)
  | @field fields p t l _ _ n declared d f name named isInput mem field isNamed below ih =>
    have hfields : inputFieldsBelow c.schema t = declared := by
      rw [inputFieldsBelow, named, Option.bind_some, isInput, Option.getD_some]
    have hnodup := Schema.inputFields_nodup hs named isInput
    rw [literalFindings, hfields] at h
    exact ih (fieldFindings_silent h field (find?_of_nodup hnodup mem isNamed))

/-! ### Declarations of variables -/

lemma declared?_eq_none : c.declared? name = none ↔
    name ∉ c.declared.map fun v => v.definition.name.text := by
  rw [declared?, List.find?_eq_none, List.mem_map, not_exists]
  refine forall_congr' fun v => ?_
  rw [not_and, beq_iff_eq]

/-- A variable of which there is nothing to report can be used. -/
lemma declare_usable (h : Silent (c.declare d).2) : (c.declare d).1 = true := by
  unfold declare at h ⊢
  dsimp only at h ⊢
  split at h
  · exact absurd h Silent.not_problem
  · split at h
    · rename_i hinput
      rw [if_pos hinput]
    · exact absurd h Silent.not_problem

/-- Variables of which there is nothing to report are declared under distinct names, and can all be
used. -/
lemma declareAll_silent (h : Silent (c.declareAll ds).2) :
    (c.declareAll ds).1 = { c with declared := c.declared ++ ds.map (⟨·, true⟩) } ∧
      (ds.map (·.name.text)).Nodup ∧
      ∀ d ∈ ds, d.name.text ∉ c.declared.map fun v => v.definition.name.text := by
  induction ds generalizing c with
  | nil => simp [declareAll]
  | cons d ds ih =>
    rw [declareAll] at h ⊢
    cases hd : c.declared? d.name.text with
    | some first =>
      simp [hd, Finding.problem?] at h
    | none =>
      simp only [hd, Silent.append_iff] at h ⊢
      obtain ⟨⟨-, hhere⟩, hrest⟩ := h
      rw [declare_usable hhere] at hrest ⊢
      obtain ⟨hcontext, hnodup, hnew⟩ := ih hrest
      have hother : ∀ e ∈ ds, e.name.text ∉ c.declared.map (fun v => v.definition.name.text) ∧
          e.name.text ≠ d.name.text := by
        intro e he
        have hmem := hnew e he
        rw [List.map_append, List.mem_append, not_or] at hmem
        exact ⟨hmem.1, fun heq => hmem.2 (by simp [heq])⟩
      refine ⟨?_, ?_, ?_⟩
      · rw [hcontext]
        simp
      · rw [List.map_cons, List.nodup_cons, List.mem_map]
        refine ⟨?_, hnodup⟩
        rintro ⟨e, he, heq⟩
        exact (hother e he).2 heq
      · exact List.forall_mem_cons.mpr ⟨declared?_eq_none.mp hd, fun e he => (hother e he).1⟩

/-! ### Variables that fit -/

@[simp] lemma effectiveLocation_nullable : (effectiveLocation l b d).nullable = l.nullable := by
  unfold effectiveLocation
  extract_lets isRelaxed
  split <;> rfl

/-- Without a default there is no relaxation. -/
lemma effectiveLocation_eq (h : d.default? = none) : effectiveLocation l b d = l := by
  simp [effectiveLocation, h]

/-- The context in which the selections of an operation are looked at, once its variables have been
declared and have values. -/
structure HasVariables (c : OperationContext) (supplied : List (String × Literal))
    (vars : Variables) : Prop where
  declared : c.declared = c.operation.variableDefinitions.map (⟨·, true⟩)
  nodup : (c.operation.variableDefinitions.map (·.name.text)).Nodup
  values : c.schema.coerceVariables c.operation.variableDefinitions supplied = .ok vars

variable {supplied : List (String × Literal)} {vars : Variables}

/-- A variable that is used without problems is declared, with a type that the place accepts. -/
lemma HasVariables.accepts (hc : c.HasVariables supplied vars) {p : Pos}
    (h : c.variableProblem path l b name p = none) :
    ∃ d ∈ c.operation.variableDefinitions, d.name.text = name ∧
      c.schema.acceptsRef (effectiveLocation l b d) d.type = true ∧
      c.schema.coerceVariable (supplied.lookup name) d = .ok (vars.lookup name) := by
  unfold variableProblem at h
  split at h
  · simp at h
  · rename_i d isUsable hfind
    have hmem := List.mem_of_find?_eq_some hfind
    have hname : d.name.text = name := by simpa using List.find?_some hfind
    rw [hc.declared, List.mem_map] at hmem
    obtain ⟨d, hd, heq⟩ := hmem
    obtain ⟨rfl, rfl⟩ := DeclaredVariable.mk.inj heq
    refine ⟨d, hd, hname, ?_, hname ▸ Schema.coerceVariables_lookup hc.nodup hc.values hd⟩
    split at h
    · rename_i haccepts
      simpa using haccepts
    · simp at h

/-- **Absent variables**: they only stand where null is let through. -/
lemma HasVariables.absent (hc : c.HasVariables supplied vars) {p : Pos}
    (h : c.variableProblem path l b name p = none) (hnone : vars.lookup name = none) :
    l.isNonNull = false := by
  obtain ⟨d, hd, -, haccepts, hvalue⟩ := hc.accepts h
  rw [hnone] at hvalue
  obtain ⟨hdefault, hnull⟩ := Schema.coerceVariable_none hvalue
  rw [effectiveLocation_eq hdefault] at haccepts
  cases ht : d.type with
  | named n =>
    rw [ht, Schema.acceptsRef] at haccepts
    simp only [Bool.and_eq_true, Bool.not_eq_true'] at haccepts
    exact haccepts.1.1
  | list t q =>
    rw [ht, Schema.acceptsRef] at haccepts
    simp only [Bool.and_eq_true, Bool.not_eq_true'] at haccepts
    exact haccepts.1
  | nonNull t q => simp [ht, TypeRef.isNonNull] at hnull

/-- The values of variables fit the places where they are used, up to null. -/
lemma HasVariables.fits (hc : c.HasVariables supplied vars) (hr : c.schema.registry.WellFormed)
    (hdefaults : c.schema.DefaultsWellTyped) (hsupplied : ∀ p ∈ supplied, p.2.IsProper)
    (hproper : ∀ d ∈ c.operation.variableDefinitions, ∀ v, d.default? = some v → v.IsProper)
    {p : Pos} (h : c.variableProblem path l b name p = none) :
    ∀ v, vars.lookup name = some v →
      ∃ t e, FitsRef c.schema t v ∧ c.schema.acceptsRef e t = true ∧ l.nullable = e.nullable := by
  intro v hv
  obtain ⟨d, hd, -, haccepts, hvalue⟩ := hc.accepts h
  rw [hv] at hvalue
  refine ⟨d.type, _, ?_, haccepts, effectiveLocation_nullable.symm⟩
  refine Schema.coerceVariable_fits hr hdefaults (fun lit hlit => ?_) (hproper d hd) hvalue
  obtain ⟨before, after, rfl, -⟩ := List.lookup_eq_some_iff.mp hlit
  exact hsupplied _ (List.mem_append_right _ List.mem_cons_self)

end OperationContext

end GraphQL
