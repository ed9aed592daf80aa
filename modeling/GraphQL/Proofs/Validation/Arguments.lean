import GraphQL.Proofs.Validation.Variables

/-!
The arguments of accepted fields and directives.

Where no variable is null they always have values. Where they have values, these are what the
declarations say.
-/

namespace GraphQL

namespace CoercionContext

variable {c : CoercionContext} {args : List Argument} {p : Pos} {i : InputSpec}

/-- The argument that is written, unless it is a variable without a value. -/
def givenArgument (c : CoercionContext) (args : List Argument) (name : String) : Option Argument :=
  (Argument.find? args name).filter fun a => !c.isAbsent a.value

lemma argumentValue_given {a : Argument} (h : c.givenArgument args i.name = some a) :
    Schema.argumentValue c args p i
      = (c.coerce a.value [.key i.name] i.type).map fun v => (i.name, v) := by
  unfold givenArgument at h
  unfold Schema.argumentValue
  dsimp only
  rw [h]

lemma argumentValue_missing (h : c.givenArgument args i.name = none) :
    Schema.argumentValue c args p i
      = if i.isRequired then .error (.missingArgument i.name (c.schema.typeName i.type)) p []
        else .ok (i.name, i.fallback) := by
  unfold givenArgument at h
  unfold Schema.argumentValue
  dsimp only
  rw [h]

lemma argumentValue_isDecided : (Schema.argumentValue c args p i).IsDecided := by
  cases h : c.givenArgument args i.name with
  | some a =>
    rw [argumentValue_given h]
    exact (coerce_isDecided a.value _ _).map
  | none =>
    rw [argumentValue_missing h]
    split
    · exact .error _ _ _
    · exact .ok _

end CoercionContext

/-- A value of its type for each declared argument, in the order of the declarations. -/
def ArgumentsTyped (s : Schema) (declared : List InputSpec) (values : List (String × Value)) : Prop :=
  List.Forall₂ (fun i v => v.1 = i.name ∧ WellTyped s i.type v.2) declared values

namespace OperationContext

open CoercionContext (UsesVariable givenArgument)

variable {c : OperationContext} {declared : List InputSpec} {args : List Argument} {i : InputSpec}
  {a : Argument} {v : Literal} {supplied : List (String × Literal)} {vars : Variables} {p : Pos}

/-- What the values of variables are looked up in. -/
def bound (c : OperationContext) (vars : Variables) : CoercionContext :=
  ⟨c.schema, false, .bound vars⟩

/-- Whatever the variables are, nothing is wrong with an accepted value. -/
lemma AcceptsValue.errors (h : c.AcceptsValue i v) :
    (CoercionContext.coerce ⟨c.schema, false, .unchecked⟩ v [] i.type).errors = [] := by
  cases hv : v.var? with
  | none => exact h.literal hv
  | some name =>
    cases v with
    | var name p => rfl
    | _ => simp [Literal.var?] at hv

/-- An argument that is left out, or whose variable has no value, is not required. -/
lemma AcceptsArguments.missing (hs : c.schema.WellFormed) (hc : c.HasVariables supplied vars)
    (h : c.AcceptsArguments declared args) (hnodup : (declared.map (·.name)).Nodup)
    (hi : i ∈ declared) (hmissing : (c.bound vars).givenArgument args i.name = none) :
    i.isRequired = false := by
  cases hfind : Argument.find? args i.name with
  | none =>
    by_contra hreq
    have hsome := h.required hi (Bool.eq_true_of_not_eq_false hreq)
    simp [hfind] at hsome
  | some a =>
    have habsent : (c.bound vars).isAbsent a.value = true := by
      simpa [givenArgument, hfind, Option.filter] using hmissing
    obtain ⟨name, q, hvar, hnone⟩ :=
      CoercionContext.isAbsent_var (c := ⟨c.schema, false, .unchecked⟩) habsent
    obtain ⟨path, huses⟩ := (h.value hnodup hi hfind).uses
    rw [hvar] at huses
    obtain ⟨r, hproblem⟩ := variableProblem_of_uses hs huses UsesVariable.here
    simp [InputSpec.isRequired, hc.absent hproblem hnone]

/-- **Accepted arguments have values**, whatever variables are absent, if none is null. -/
theorem AcceptsArguments.coerce_ok (hs : c.schema.WellFormed) (hc : c.HasVariables supplied vars)
    (hnull : ∀ name u, vars.lookup name = some u → u.isNull = false)
    (h : c.AcceptsArguments declared args) (hnodup : (declared.map (·.name)).Nodup) (p : Pos) :
    ∃ values, c.schema.coerceArguments declared args (some vars) p = .ok values := by
  refine (Coerced.IsDecided.all fun r hr => ?_).result_ok (Coerced.all_errors_eq_nil.mpr fun r hr => ?_)
  · obtain ⟨i, -, rfl⟩ := List.mem_map.mp hr
    exact CoercionContext.argumentValue_isDecided
  obtain ⟨i, hi, rfl⟩ := List.mem_map.mp hr
  change (Schema.argumentValue (c.bound vars) args p i).errors = []
  cases hg : (c.bound vars).givenArgument args i.name with
  | none =>
    rw [CoercionContext.argumentValue_missing hg, h.missing hs hc hnodup hi hg]
    rfl
  | some a =>
    obtain ⟨hfind, hpresent⟩ := Option.filter_eq_some_iff.mp hg
    have haccepts := h.value hnodup hi hfind
    have hpresent : (c.bound vars).isAbsent a.value = false := by simpa using hpresent
    rw [CoercionContext.argumentValue_given hg, Coerced.errors_map]
    refine CoercionContext.coerce_agrees (c := ⟨c.schema, false, .unchecked⟩) hs.registry rfl hnull
      a.value i.type _ _ i.default?.isSome (fun name l b huse hnone => ?_) hpresent haccepts.errors
    obtain ⟨path, huses⟩ := haccepts.uses
    obtain ⟨r, hproblem⟩ := variableProblem_of_uses hs huses huse
    exact hc.absent hproblem hnone

/-- **Arguments are well typed**: each declared argument has a value of its type, if the defaults of
the schema do. -/
theorem AcceptsArguments.coerce_typed (hs : c.schema.WellFormed) (hc : c.HasVariables supplied vars)
    (hdefaults : c.schema.DefaultsWellTyped) (hsupplied : ∀ p ∈ supplied, p.2.IsProper)
    (hproper : ∀ d ∈ c.operation.variableDefinitions, ∀ v, d.default? = some v → v.IsProper)
    (hargs : ∀ a ∈ args, a.value.IsProper) (hinputs : ∀ i ∈ declared, i ∈ c.schema.inputs)
    (h : c.AcceptsArguments declared args) (hnodup : (declared.map (·.name)).Nodup)
    {values : List (String × Value)}
    (hvalues : c.schema.coerceArguments declared args (some vars) p = .ok values) :
    ArgumentsTyped c.schema declared values := by
  have hparts := (Coerced.result_ok_iff.mp hvalues).1
  rw [Coerced.all_map_value?_iff] at hparts
  obtain ⟨hlength, hzip⟩ := List.forall₂_iff_zip.mp hparts
  refine List.forall₂_iff_zip.mpr ⟨hlength, fun {i f} hmem => ?_⟩
  have hi : i ∈ declared := (List.of_mem_zip hmem).1
  have hf : (Schema.argumentValue (c.bound vars) args p i).value? = some f := hzip hmem
  cases hg : (c.bound vars).givenArgument args i.name with
  | none =>
    have hreq := h.missing hs hc hnodup hi hg
    rw [CoercionContext.argumentValue_missing hg, hreq] at hf
    obtain rfl := Option.some.inj hf
    exact ⟨rfl, hdefaults.fallback (hinputs i hi) hreq⟩
  | some a =>
    obtain ⟨hfind, -⟩ := Option.filter_eq_some_iff.mp hg
    obtain ⟨path, huses⟩ := (h.value hnodup hi hfind).uses
    rw [CoercionContext.argumentValue_given hg] at hf
    obtain ⟨w, hw, rfl⟩ := Option.map_eq_some_iff.mp hf
    refine ⟨rfl, ?_⟩
    have ha := hargs a (List.mem_of_find?_eq_some hfind)
    refine CoercionContext.coerce_wellTyped (c := c.bound vars) hs.registry ha i.default?.isSome hw
      (fun name l b huse q path' u hu => ?_) fun n d hd hreq =>
        CoercionContext.leavesOut_fallback hdefaults hd hreq
    obtain ⟨r, hproblem⟩ := variableProblem_of_uses hs huses huse
    have hfits := hc.fits hs.registry hdefaults hsupplied hproper hproblem
    exact CoercionContext.coerceVariable_wellTyped rfl hfits hu

end OperationContext

end GraphQL
