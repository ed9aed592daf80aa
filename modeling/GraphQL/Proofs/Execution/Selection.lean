import GraphQL.Proofs.Execution.Level
import GraphQL.Proofs.Parser.Document
import GraphQL.Proofs.Sample
import GraphQL.Proofs.Validation.Valid
import GraphQL.Schema.Builder

/-!
What becomes of a valid operation when its fields are selected.

At each level every response key is merged into one field, and nothing is wrong with its arguments. The
levels of an operation are fewer than those that are looked at, so that none is cut off.
-/

namespace GraphQL

lemma map_filterMap_eq {α β γ : Type} {f : α → Option β} {k : β → γ} {l : α → γ} {as : List α}
    (h : ∀ a ∈ as, ∃ b, f a = some b ∧ k b = l a) : (as.filterMap f).map k = as.map l := by
  induction as with
  | nil => rfl
  | cons a as ih =>
    obtain ⟨b, hb, hk⟩ := h a List.mem_cons_self
    rw [List.filterMap_cons_some hb, List.map_cons, List.map_cons, hk,
      ih fun a' ha' => h a' (List.mem_cons_of_mem a ha')]

namespace SelectionContext

open OperationContext.Level (setsBelow)

variable {c : SelectionContext} {parent : TypeId} {first : Field} {spec : FieldSpec}

/-! ### One response key -/

/-- The field that a response key is merged into, as its first use and its declaration say. The
selections below it are those of `sets`. -/
structure Merged (c : SelectionContext)
    (run : TypeId → List SelectionSet → List SelectedField × List ResponseError) (first : Field)
    (spec : FieldSpec) (sets : List SelectionSet) (g : SelectedField) (es : List ResponseError) :
    Prop where
  name : g.call.name = first.name.text
  type : g.call.type = spec.type
  below : g.below? = if c.schema.isComposite spec.type then
    some (run (c.schema.registry.innermost spec.type) sets).1 else none
  arguments : ∀ args, c.schema.coerceArguments spec.arguments first.arguments
    (some c.variableValues) first.pos = .ok args → g.call.arguments = args
  errors : es = [] ↔
    (∃ args, c.schema.coerceArguments spec.arguments first.arguments (some c.variableValues) first.pos
        = .ok args) ∧
      (c.schema.isComposite spec.type = true →
        (run (c.schema.registry.innermost spec.type) sets).2 = [])

/-- Arguments without values are arguments with errors. -/
lemma coerceArguments_ne_nil {s : Schema} {declared : List InputSpec} {args : List Argument}
    {values : Option Variables} {p : Pos} {es : List CoercionError}
    (h : s.coerceArguments declared args values p = .error es) : es ≠ [] := by
  refine (Coerced.IsDecided.all fun r hr => ?_).error_ne_nil h
  obtain ⟨i, -, rfl⟩ := List.mem_map.mp hr
  exact CoercionContext.argumentValue_isDecided

lemma mergeFields_merged (c : SelectionContext)
    (run : TypeId → List SelectionSet → List SelectedField × List ResponseError) (key : String)
    (below : Option SelectionSet) (rest : List (Field × Option SelectionSet))
    (hspec : c.schema.field? parent first.name.text = some spec) :
    ∃ g es, c.mergeFields run parent key ((first, below) :: rest) = some (g, es) ∧
      g.call.key = key ∧
      c.Merged run first spec (((first, below) :: rest).filterMap (·.2)) g es := by
  unfold mergeFields
  dsimp only
  rw [hspec, Option.map_some]
  cases hargs : c.schema.coerceArguments spec.arguments first.arguments (some c.variableValues)
      first.pos with
  | ok args =>
    by_cases hcomposite : c.schema.isComposite spec.type = true
    · simp only [if_pos hcomposite]
      refine ⟨_, _, rfl, rfl, rfl, rfl, (if_pos hcomposite).symm, fun values h => ?_, ?_⟩
      · exact Except.ok.inj (hargs.symm.trans h)
      · simp [hargs, hcomposite]
    · simp only [if_neg hcomposite]
      refine ⟨_, _, rfl, rfl, rfl, rfl, (if_neg hcomposite).symm, fun values h => ?_, ?_⟩
      · exact Except.ok.inj (hargs.symm.trans h)
      · simp [hargs, hcomposite]
  | error es =>
    have hne : c.responseErrors first.pos es ≠ [] := by
      simpa [responseErrors] using coerceArguments_ne_nil hargs
    by_cases hcomposite : c.schema.isComposite spec.type = true
    · simp only [if_pos hcomposite]
      exact ⟨_, _, rfl, rfl, rfl, rfl, (if_pos hcomposite).symm, by simp [hargs], by simp [hargs, hne]⟩
    · simp only [if_neg hcomposite]
      exact ⟨_, _, rfl, rfl, rfl, rfl, (if_neg hcomposite).symm, by simp [hargs], by simp [hargs, hne]⟩

/-! ### One level -/

/-- The fields that the response keys of a level are merged into, each with what is wrong with it. -/
def mergedFields (c : SelectionContext) (levels : Nat) (parent : TypeId) (sets : List SelectionSet) :
    List (SelectedField × List ResponseError) :=
  (groupByKey (·.1.responseKey) (c.collectedFields parent sets)).filterMap fun (key, group) =>
    c.mergeFields (c.build levels) parent key group

lemma build_succ (levels : Nat) (parent : TypeId) (sets : List SelectionSet) :
    c.build (levels + 1) parent sets = ((c.mergedFields levels parent sets).map (·.1),
      (c.collect parent sets).filterMap (·.error?)
        ++ (c.mergedFields levels parent sets).flatMap (·.2)) := rfl

/-- Every field that is collected has a declaration. -/
def Known (c : SelectionContext) (parent : TypeId) (sets : List SelectionSet) : Prop :=
  ∀ f below, (f, below) ∈ c.collectedFields parent sets →
    ∃ spec, c.schema.field? parent f.name.text = some spec

section

variable {sets : List SelectionSet} {levels : Nat} {key : String} {g : SelectedField}
  {es : List ResponseError}

/-- A merged field comes from a collected one, and from those below all with its key. -/
lemma Known.group_merged (hk : c.Known parent sets)
    (run : TypeId → List SelectionSet → List SelectedField × List ResponseError)
    {group : List (Field × Option SelectionSet)}
    (h : (key, group) ∈ groupByKey (·.1.responseKey) (c.collectedFields parent sets)) :
    ∃ g es, c.mergeFields run parent key group = some (g, es) ∧ g.call.key = key ∧
      ∃ first under spec, (first, under) ∈ c.collectedFields parent sets ∧
        first.responseKey = key ∧ c.schema.field? parent first.name.text = some spec ∧
        c.Merged run first spec (setsBelow (c.collectedFields parent sets) key) g es := by
  obtain ⟨hgroup, hne⟩ := mem_groupByKey.mp h
  cases group with
  | nil => exact absurd rfl hne
  | cons member rest =>
    obtain ⟨first, under⟩ := member
    have hmem : (first, under) ∈ membersOf (·.1.responseKey) key (c.collectedFields parent sets) :=
      hgroup ▸ List.mem_cons_self
    obtain ⟨hfirst, hkey⟩ := mem_membersOf.mp hmem
    obtain ⟨spec, hspec⟩ := hk first under hfirst
    obtain ⟨g, es, hmerge, hg, hmerged⟩ := c.mergeFields_merged run key under rest hspec
    refine ⟨g, es, hmerge, hg, first, under, spec, hfirst, hkey, hspec, ?_⟩
    rwa [hgroup] at hmerged

lemma Known.mergedFields_keys (hk : c.Known parent sets) :
    (c.mergedFields levels parent sets).map (·.1.call.key)
      = (groupByKey (·.1.responseKey) (c.collectedFields parent sets)).map (·.1) := by
  refine map_filterMap_eq fun ⟨key, group⟩ hgroup => ?_
  obtain ⟨g, es, hmerge, hkey, -⟩ := hk.group_merged _ hgroup
  exact ⟨(g, es), hmerge, hkey⟩

lemma Known.mem_mergedFields (hk : c.Known parent sets)
    (h : (g, es) ∈ c.mergedFields levels parent sets) :
    ∃ first under spec, (first, under) ∈ c.collectedFields parent sets ∧
      first.responseKey = g.call.key ∧ c.schema.field? parent first.name.text = some spec ∧
      c.Merged (c.build levels) first spec
        (setsBelow (c.collectedFields parent sets) g.call.key) g es := by
  obtain ⟨⟨key, group⟩, hgroup, hmerge⟩ := List.mem_filterMap.mp h
  obtain ⟨g', es', hmerge', hkey, hfirst⟩ := hk.group_merged _ hgroup
  obtain ⟨rfl, rfl⟩ := Prod.mk.inj (Option.some.inj (hmerge'.symm.trans hmerge))
  rwa [← hkey] at hfirst

/-- The response keys of a level are those of the collected fields. -/
lemma Known.mem_keys (hk : c.Known parent sets) :
    key ∈ (c.mergedFields levels parent sets).map (·.1.call.key) ↔
      ∃ f under, (f, under) ∈ c.collectedFields parent sets ∧ f.responseKey = key := by
  rw [hk.mergedFields_keys, List.mem_map]
  constructor
  · rintro ⟨⟨key, group⟩, hgroup, rfl⟩
    obtain ⟨-, -, -, -, f, under, -, hf, hkey, -, -⟩ := hk.group_merged (fun _ _ => ([], [])) hgroup
    exact ⟨f, under, hf, hkey⟩
  · rintro ⟨f, under, hf, hkey⟩
    have hmember : (f, under) ∈ membersOf (·.1.responseKey) key (c.collectedFields parent sets) :=
      mem_membersOf.mpr ⟨hf, hkey⟩
    exact ⟨(key, _), mem_groupByKey.mpr ⟨rfl, List.ne_nil_of_mem hmember⟩, rfl⟩

end

/-! ### Nothing is dropped -/

/-- One of some selection sets selects a field. -/
def SelectsIn (c : SelectionContext) (sets : SelectionSet → Prop) (f : Field)
    (below : Option SelectionSet) : Prop :=
  ∃ ss, sets ss ∧ c.Selects ss f below

/-- The selection sets below the selected fields of a response key. -/
def SetsBelow (c : SelectionContext) (sets : SelectionSet → Prop) (key : String)
    (inner : SelectionSet) : Prop :=
  ∃ f, c.SelectsIn sets f (some inner) ∧ f.responseKey = key

/-- The fields of some selection sets on a type are all there: one for each response key, with a
declaration, and with fields below it exactly if it holds objects. -/
inductive Complete (c : SelectionContext) :
    TypeId → (SelectionSet → Prop) → List SelectedField → Prop where
  | mk {parent : TypeId} {sets : SelectionSet → Prop} {fields : List SelectedField}
      (nodup : (fields.map (·.call.key)).Nodup)
      (keys : ∀ key, key ∈ fields.map (·.call.key) ↔
        ∃ f below, c.SelectsIn sets f below ∧ f.responseKey = key)
      (names : ∀ g ∈ fields, ∀ f below, c.SelectsIn sets f below → f.responseKey = g.call.key →
        f.name.text = g.call.name)
      (declared : ∀ g ∈ fields, ∃ spec, c.schema.field? parent g.call.name = some spec ∧
        g.call.type = spec.type)
      (composite : ∀ g ∈ fields, g.below?.isSome = c.schema.isComposite g.call.type)
      (below : ∀ g ∈ fields, ∀ inner, g.below? = some inner →
        Complete c (c.schema.registry.innermost g.call.type) (c.SetsBelow sets g.call.key) inner) :
      Complete c parent sets fields

/-- Every field of a selection has a value for each argument that it declares, at every depth. -/
inductive HasArguments (s : Schema) : TypeId → List SelectedField → Prop where
  | mk {parent : TypeId} {fields : List SelectedField}
      (declared : ∀ g ∈ fields, ∃ spec, s.field? parent g.call.name = some spec ∧
        g.call.type = spec.type ∧ ArgumentsTyped s spec.arguments g.call.arguments)
      (below : ∀ g ∈ fields, ∀ inner, g.below? = some inner →
        HasArguments s (s.registry.innermost g.call.type) inner) : HasArguments s parent fields

end SelectionContext

namespace OperationContext

namespace Level

variable {c : OperationContext} {k levels : Nat} {parent : TypeId} {sets : List SelectionSet}
  {source : List Char} {vars : Variables} {key : String}

/-- All fields of a level have declarations. -/
lemma known (hl : c.Level k parent sets) (hfit : c.FragmentsFit) :
    (c.selecting source vars).Known parent sets := by
  intro f below hf
  obtain ⟨-, spec, hfield⟩ := (hl.collected hfit hf).1.field
  exact ⟨spec, hfield.known⟩

/-- What is collected is what is selected. -/
lemma mem_collected_iff (hl : c.Level k parent sets) (hfit : c.FragmentsFit) {f : Field}
    {under : Option SelectionSet} :
    (f, under) ∈ (c.selecting source vars).collectedFields parent sets ↔
      (c.selecting source vars).SelectsIn (· ∈ sets) f under := by
  rw [SelectionContext.mem_collectedFields]
  constructor
  · rintro ⟨ss, hss, hreaches, hadmitted⟩
    exact ⟨ss, hss, SelectionContext.selects_of_reaches hreaches hadmitted⟩
  · rintro ⟨ss, hss, hselects⟩
    exact ⟨ss, hss, (hl.accepts ss hss).reaches_of_selects hfit hl.nullable hselects⟩

lemma mem_setsBelow_iff (hl : c.Level k parent sets) (hfit : c.FragmentsFit) :
    (· ∈ setsBelow ((c.selecting source vars).collectedFields parent sets) key)
      = (c.selecting source vars).SetsBelow (· ∈ sets) key := by
  funext inner
  refine propext (mem_setsBelow.trans (exists_congr fun f => and_congr ?_ Iff.rfl))
  exact hl.mem_collected_iff hfit

end Level

variable {c : OperationContext} {k levels : Nat} {parent : TypeId} {sets : List SelectionSet}
  {source : List Char} {supplied : List (String × Literal)} {vars : Variables}
  {location : DirectiveLocation} {ds : List Directive} {p : Pos}

/-- The conditions of accepted directives all have values. -/
lemma AcceptsDirectives.admits_errors (hs : c.schema.WellFormed) (hc : c.HasVariables supplied vars)
    (hnull : ∀ name u, vars.lookup name = some u → u.isNull = false)
    (h : c.AcceptsDirectives location ds) : ((c.selecting source vars).admits p ds).2 = [] := by
  refine SelectionContext.admits_errors fun d hd es herror => ?_
  obtain ⟨spec, hspec, harguments⟩ := h.arguments d hd
  have hnodup := Schema.directive?_arguments_nodup hs hspec
  obtain ⟨values, hvalues⟩ := harguments.coerce_ok hs hc hnull hnodup d.pos
  unfold SelectionContext.condition? selecting at herror
  dsimp only at herror
  rw [hspec, Option.map_some, hvalues] at herror
  split at herror
  · simp [Except.map] at herror
  · simp at herror

/-- No error is collected from accepted selections. -/
lemma Level.collect_errors (hs : c.schema.WellFormed) (hc : c.HasVariables supplied vars)
    (hnull : ∀ name u, vars.lookup name = some u → u.isNull = false) (hfit : c.FragmentsFit)
    (hl : c.Level k parent sets) :
    ((c.selecting source vars).collect parent sets).filterMap (·.error?) = [] := by
  refine List.filterMap_eq_nil_iff.mpr fun a ha => ?_
  obtain ⟨ss, hss, sel, hreaches, hown⟩ := SelectionContext.mem_collect.mp ha
  have haccepts := (hl.accepts ss hss).reaches hfit hl.nullable hreaches
  cases sel with
  | field f under =>
    have hnil : ((c.selecting source vars).admits f.pos f.directives).2 = [] :=
      haccepts.field.1.admits_errors hs hc hnull
    simp only [SelectionContext.walker, hnil, List.map_nil, List.nil_append, List.mem_ite_nil_right,
      List.mem_singleton] at hown
    rw [hown.2]
    rfl
  | spread s =>
    have hnil : ((c.selecting source vars).admits s.pos s.directives).2 = [] :=
      (haccepts.spread hfit hl.nullable).1.admits_errors hs hc hnull
    simp [hnil] at hown
  | inline i inner =>
    have hnil : ((c.selecting source vars).admits i.pos i.directives).2 = [] :=
      (haccepts.inline hl.nullable).1.admits_errors hs hc hnull
    simp [hnil] at hown

/-- Nothing is wrong with a response key of accepted selections, and what is below it is complete, if
that is so one level down. -/
lemma Level.merged_complete (hs : c.schema.WellFormed) (hc : c.HasVariables supplied vars)
    (hnull : ∀ name u, vars.lookup name = some u → u.isNull = false) (hfit : c.FragmentsFit)
    (hends : ∀ g ∈ c.document.fragments, c.document.Ends g.name.text) (hl : c.Level k parent sets)
    (hbelow : ∀ m t inner, m < k → c.Level m t inner →
      ((c.selecting source vars).build levels t inner).2 = [] ∧
        (c.selecting source vars).Complete t (· ∈ inner)
          ((c.selecting source vars).build levels t inner).1)
    {g : SelectedField} {es : List ResponseError}
    (hmem : (g, es) ∈ (c.selecting source vars).mergedFields levels parent sets) :
    es = [] ∧ g.below?.isSome = c.schema.isComposite g.call.type ∧
      ∀ inner, g.below? = some inner → (c.selecting source vars).Complete
        (c.schema.registry.innermost g.call.type)
        ((c.selecting source vars).SetsBelow (· ∈ sets) g.call.key) inner := by
  obtain ⟨first, under, spec, hfirst, hkey, hspec, hmerged⟩ := (hl.known hfit).mem_mergedFields hmem
  obtain ⟨-, spec', hfield⟩ := (hl.collected hfit hfirst).1.field
  obtain rfl := Option.some.inj (hfield.known.symm.trans hspec)
  have hargs := hfield.arguments.coerce_ok hs hc hnull (Schema.field?_arguments_nodup hs hspec)
    first.pos
  rw [hmerged.errors, hmerged.below, hmerged.type]
  by_cases hcomposite : c.schema.isComposite spec'.type = true
  · obtain ⟨m, rfl, hnext⟩ := hl.next hfit hends hfirst hspec hcomposite
    obtain ⟨herrors, hcomplete⟩ := hbelow m _ _ (Nat.lt_succ_self m) hnext
    rw [hl.mem_setsBelow_iff hfit, hkey] at hcomplete
    rw [hkey] at herrors
    have hif : (c.selecting source vars).schema.isComposite spec'.type = true := hcomposite
    rw [if_pos hif, hcomposite]
    refine ⟨⟨hargs, fun _ => herrors⟩, rfl, fun inner hinner => ?_⟩
    rwa [← Option.some.inj hinner]
  · have hif : ¬ (c.selecting source vars).schema.isComposite spec'.type = true := hcomposite
    rw [if_neg hif, Bool.eq_false_of_not_eq_true hcomposite]
    exact ⟨⟨hargs, fun h => absurd h hif⟩, rfl, fun inner hinner => by simp at hinner⟩

/-- **Completeness of a level**: nothing is wrong with the fields below accepted selections, and none
of them is left out. -/
theorem Level.build_complete (hs : c.schema.WellFormed) (hc : c.HasVariables supplied vars)
    (hnull : ∀ name u, vars.lookup name = some u → u.isNull = false) (hfit : c.FragmentsFit)
    (hends : ∀ g ∈ c.document.fragments, c.document.Ends g.name.text)
    (hl : c.Level k parent sets) (hk : k < levels) :
    ((c.selecting source vars).build levels parent sets).2 = [] ∧
      (c.selecting source vars).Complete parent (· ∈ sets)
        ((c.selecting source vars).build levels parent sets).1 := by
  induction levels generalizing k parent sets with
  | zero => omega
  | succ levels ih =>
    have hmerged {g : SelectedField} {es : List ResponseError}
        (hmem : (g, es) ∈ (c.selecting source vars).mergedFields levels parent sets) :=
      hl.merged_complete hs hc hnull hfit hends
        (fun m t inner hm hnext => ih hnext (by omega)) hmem
    rw [SelectionContext.build_succ]
    have hkeys : ((c.selecting source vars).mergedFields levels parent sets).map (·.1.call.key)
        = (((c.selecting source vars).mergedFields levels parent sets).map (·.1)).map (·.call.key) := by
      rw [List.map_map]
      rfl
    refine ⟨?_, .mk ?_ (fun key => ?_) (fun g hg f under hf hkey => ?_) (fun g hg => ?_)
      (fun g hg => ?_) fun g hg inner hinner => ?_⟩
    · rw [hl.collect_errors hs hc hnull hfit, List.nil_append, List.flatMap_eq_nil_iff]
      exact fun ⟨g, es⟩ hmem => (hmerged hmem).1
    · rw [← hkeys, (hl.known hfit).mergedFields_keys]
      exact keys_groupByKey_nodup _
    · rw [← hkeys, (hl.known hfit).mem_keys]
      exact exists₂_congr fun f under => and_congr (hl.mem_collected_iff hfit) Iff.rfl
    · obtain ⟨⟨g, es⟩, hmem, rfl⟩ := List.mem_map.mp hg
      obtain ⟨first, _, spec, hfirst, hfkey, -, hfield⟩ := (hl.known hfit).mem_mergedFields hmem
      rw [hfield.name]
      exact hl.name_eq hfit ((hl.mem_collected_iff hfit).mpr hf) hfirst (hkey.trans hfkey.symm)
    · obtain ⟨⟨g, es⟩, hmem, rfl⟩ := List.mem_map.mp hg
      obtain ⟨first, _, spec, -, -, hspec, hfield⟩ := (hl.known hfit).mem_mergedFields hmem
      exact ⟨spec, hfield.name ▸ hspec, hfield.type⟩
    · obtain ⟨⟨g, es⟩, hmem, rfl⟩ := List.mem_map.mp hg
      exact (hmerged hmem).2.1
    · obtain ⟨⟨g, es⟩, hmem, rfl⟩ := List.mem_map.mp hg
      exact (hmerged hmem).2.2 inner hinner

/-- **Arguments of a level**: if nothing is wrong with the fields below accepted selections, all
arguments are well typed, with the values of variables as they are. -/
theorem Level.build_hasArguments (hs : c.schema.WellFormed) (hc : c.HasVariables supplied vars)
    (hdefaults : c.schema.DefaultsWellTyped) (hsupplied : ∀ p ∈ supplied, p.2.IsProper)
    (hproper : ∀ d ∈ c.operation.variableDefinitions, ∀ v, d.default? = some v → v.IsProper)
    (hparts : ∀ q ∈ c.document.parts, q.IsProper) (hfit : c.FragmentsFit)
    (hends : ∀ g ∈ c.document.fragments, c.document.Ends g.name.text) (hl : c.Level k parent sets)
    (h : ((c.selecting source vars).build levels parent sets).2 = []) :
    SelectionContext.HasArguments c.schema parent
      ((c.selecting source vars).build levels parent sets).1 := by
  induction levels generalizing k parent sets with
  | zero => exact .mk (by simp [SelectionContext.build]) (by simp [SelectionContext.build])
  | succ levels ih =>
    rw [SelectionContext.build_succ] at h ⊢
    obtain ⟨-, herrors⟩ := List.append_eq_nil_iff.mp h
    rw [List.flatMap_eq_nil_iff] at herrors
    refine .mk (fun g hg => ?_) fun g hg inner hinner => ?_
    · obtain ⟨⟨g, es⟩, hmem, rfl⟩ := List.mem_map.mp hg
      obtain ⟨first, _, spec, hfirst, -, hspec, hmerged⟩ := (hl.known hfit).mem_mergedFields hmem
      obtain ⟨⟨args, hargs⟩, -⟩ := hmerged.errors.mp (herrors _ hmem)
      obtain ⟨-, spec', hfield⟩ := (hl.collected hfit hfirst).1.field
      obtain rfl := Option.some.inj (hfield.known.symm.trans hspec)
      refine ⟨spec', hmerged.name ▸ hspec, hmerged.type, ?_⟩
      rw [hmerged.arguments args hargs]
      exact hfield.arguments.coerce_typed hs hc hdefaults hsupplied hproper
        (hl.arguments_isProper hfit hparts hfirst) (Schema.field?_arguments_inputs hspec)
        (Schema.field?_arguments_nodup hs hspec) hargs
    · obtain ⟨⟨g, es⟩, hmem, rfl⟩ := List.mem_map.mp hg
      obtain ⟨first, _, spec, hfirst, hkey, hspec, hmerged⟩ := (hl.known hfit).mem_mergedFields hmem
      obtain ⟨-, hbelow⟩ := hmerged.errors.mp (herrors _ hmem)
      rw [hmerged.below] at hinner
      split at hinner
      · rename_i hcomposite
        obtain ⟨m, -, hnext⟩ := hl.next hfit hends hfirst hspec hcomposite
        rw [← Option.some.inj hinner, hmerged.type]
        rw [hkey] at hnext
        exact ih hnext (hbelow hcomposite)
      · simp at hinner

end OperationContext

/-! ### Valid operations -/

namespace Valid

open OperationContext (declaring)

variable {s : Schema} {d : Document} {op : OperationDefinition} {root : TypeId}

/-- The selections of a valid operation are a level, with the levels of the document at most. -/
lemma level (h : Valid s d) (hs : s.WellFormed) (hnodup : (d.parts.map (·.pos)).Nodup)
    (hop : op ∈ d.operations) (hroot : s.executableRoot op.type = .ok root) :
    (declaring s d op).Level d.maxLevels root [op.selectionSet] := by
  obtain ⟨-, root', hroot', haccepts⟩ := h.operation hop
  obtain rfl := Except.ok.inj (hroot.symm.trans hroot')
  obtain ⟨htype, hsome⟩ := Schema.root?_of_executableRoot hroot
  have hmerges := mergesAll_of_mergeProblems (h.tidy hnodup) hop htype hsome (h.merges op hop)
  refine ⟨hs.roots op.type root hsome, ?_, ?_, ?_, ?_, ?_⟩
  · exact List.forall_mem_singleton.mpr haccepts
  · exact List.forall_mem_singleton.mpr (Document.HasSet.operation hop)
  · exact List.forall_mem_singleton.mpr (Document.nests_operation hop)
  · exact List.forall_mem_singleton.mpr hmerges
  · exact List.forall_mem_singleton.mpr (List.forall_mem_singleton.mpr hmerges.setsAgree)

end Valid

namespace Sample

/-- The sample, if it is valid, with its operation and the root of that. -/
def checked? : Option (Schema × Document × OperationDefinition × TypeId) := do
  let s ← (Schema.ofText schemaText 0).toOption
  let d ← (Document.parse query).document?
  let op ← d.operations.head?
  let root ← (s.executableRoot op.type).toOption
  if (Document.parse query).errors.isEmpty && isValid s d then return (s, d, op, root) else none

lemma checked?_spec {s : Schema} {d : Document} {op : OperationDefinition} {root : TypeId}
    (h : checked? = some (s, d, op, root)) :
    (∃ d₀, SchemaDocument.load none schemaText = .ok d₀ ∧ Schema.build [d₀] 0 = .ok s) ∧
      Document.parse query = ⟨some d, []⟩ ∧ s.validate d query = [] ∧ op ∈ d.operations ∧
      s.executableRoot op.type = .ok root := by
  unfold checked? at h
  simp only [Option.bind_eq_bind, Option.bind_eq_some_iff] at h
  obtain ⟨s', hs, d', hd, op', hop, root', hroot, h⟩ := h
  split at h
  · rename_i hcheck
    obtain ⟨herrors, hvalid⟩ := Bool.and_eq_true_iff.mp hcheck
    cases h
    refine ⟨Schema.ofText_eq_ok.mp (toOption_eq_some.mp hs), ?_,
      validate_eq_nil_iff.mpr (valid_of_isValid hvalid), List.mem_of_mem_head? hop,
      toOption_eq_some.mp hroot⟩
    exact ParseResult.eq_mk hd (List.isEmpty_iff.mp herrors)
  · simp at h

/-- The sample as it is checked by the characters of its texts. -/
def checkedChars? (schema source : List Char) : Option (Schema × Document × OperationDefinition × TypeId) := do
  let read ← readChars? schema source
  let op ← read.2.operations.head?
  let root ← (read.1.executableRoot op.type).toOption
  if (Document.parse source).errors.isEmpty && isValid read.1 read.2 then return (read.1, read.2, op, root) else none

lemma checked?_of_chars {schema source : List Char} {x : Schema × Document × OperationDefinition × TypeId}
    (hschema : schemaText.toList = schema) (hquery : query = source) (h : checkedChars? schema source = some x) :
    checked? = some x := by
  obtain ⟨⟨s, d⟩, hread, h⟩ := Option.bind_eq_some_iff.mp h
  have hread := read?_of_chars hschema hread
  unfold read? at hread
  simp only [Option.bind_eq_bind, Option.bind_eq_some_iff] at hread
  obtain ⟨s', hs, d', hd, heq⟩ := hread
  obtain ⟨rfl, rfl⟩ := Prod.mk.inj (Option.some.inj heq)
  rw [checked?, hquery, hs, hd]
  exact h

/-- The variables of the sample have values that are not null, and its fields can be selected with
null for one of them. -/
lemma checked?_values : ∃ s d op root vars nulls, checked? = some (s, d, op, root) ∧
    s.coerceVariables op.variableDefinitions supplied = .ok vars ∧
    (∀ name v, vars.lookup name = some v → v.isNull = false) ∧
    s.coerceVariables op.variableDefinitions suppliedNull = .ok nulls ∧
    (SelectionContext.select ⟨s, d, query, nulls⟩ root op.selectionSet).2 = [] := by
  have hrun : ((checkedChars? schemaChars.1 queryChars.1).filter fun (s, d, op, root) =>
      (s.coerceVariables op.variableDefinitions supplied).toOption.any
        (fun vars => vars.all fun v => !v.2.isNull) &&
      (s.coerceVariables op.variableDefinitions suppliedNull).toOption.any fun vars =>
        (SelectionContext.select ⟨s, d, queryChars.1, vars⟩ root op.selectionSet).2.isEmpty).isSome
        = true := by
    decide +kernel
  obtain ⟨⟨s, d, op, root⟩, hx⟩ := Option.isSome_iff_exists.mp hrun
  obtain ⟨hchecked, hvalues⟩ := Option.filter_eq_some_iff.mp hx
  rw [← queryChars.2] at hvalues
  obtain ⟨hvars, hnulls⟩ := Bool.and_eq_true_iff.mp hvalues
  obtain ⟨vars, hvars, hall⟩ := (Option.any_eq_true _ _).mp hvars
  obtain ⟨nulls, hnulls, hselect⟩ := (Option.any_eq_true _ _).mp hnulls
  refine ⟨s, d, op, root, vars, nulls, checked?_of_chars schemaChars.2 queryChars.2 hchecked,
    toOption_eq_some.mp hvars, fun name v hv => ?_, toOption_eq_some.mp hnulls, List.isEmpty_iff.mp hselect⟩
  obtain ⟨before, after, rfl, -⟩ := List.lookup_eq_some_iff.mp hv
  simpa using List.all_eq_true.mp hall (name, v) (List.mem_append_right _ List.mem_cons_self)

end Sample

namespace Schema

open OperationContext (declaring)

variable {ds : List SchemaDocument} {id : Nat} {s : Schema} {source : List Char} {d : Document}
  {op : OperationDefinition} {root : TypeId} {supplied : List (String × Literal)} {vars : Variables}

lemma hasVariables (hvalid : Valid s d) (hop : op ∈ d.operations)
    (hvars : s.coerceVariables op.variableDefinitions supplied = .ok vars) :
    (declaring s d op).HasVariables supplied vars :=
  ⟨rfl, (hvalid.operation hop).1, hvars⟩

/-- **Validation is enough**: the fields of every operation of a valid document can be selected
without errors, if none of its variables is null, and nothing that is selected is dropped. -/
theorem select_complete (hds : ∀ d ∈ ds, ∃ file text, SchemaDocument.load file text = .ok d)
    (hs : build ds id = .ok s) (hd : Document.parse source = ⟨some d, []⟩)
    (hvalid : s.validate d source = []) (hop : op ∈ d.operations)
    (hvars : s.coerceVariables op.variableDefinitions supplied = .ok vars)
    (hnull : ∀ name v, vars.lookup name = some v → v.isNull = false) :
    ∃ root, s.executableRoot op.type = .ok root ∧
      (SelectionContext.select ⟨s, d, source, vars⟩ root op.selectionSet).2 = [] ∧
      SelectionContext.Complete ⟨s, d, source, vars⟩ root (· = op.selectionSet)
        (SelectionContext.select ⟨s, d, source, vars⟩ root op.selectionSet).1 := by
  have hvalid := validate_eq_nil_iff.mp hvalid
  have hwf := build_wellFormed hds hs
  have hnodup := Document.parse_parts_nodup hd
  obtain ⟨-, root, hroot, -⟩ := hvalid.operation hop
  have hlevel := hvalid.level hwf hnodup hop hroot
  have hsets : (· ∈ [op.selectionSet]) = (· = op.selectionSet) :=
    funext fun ss => propext List.mem_singleton
  rw [← hsets]
  exact ⟨root, hroot, hlevel.build_complete hwf (hasVariables hvalid hop hvars) hnull
    hvalid.fragmentsFit (hvalid.tidy hnodup).ends (Nat.lt_succ_self d.maxLevels)⟩

theorem select_complete_of_sample : ∃ d₀ s d op vars root,
    SchemaDocument.load none Sample.schemaText = .ok d₀ ∧ build [d₀] 0 = .ok s ∧
    Document.parse Sample.query = ⟨some d, []⟩ ∧ s.validate d Sample.query = [] ∧
    op ∈ d.operations ∧ s.coerceVariables op.variableDefinitions Sample.supplied = .ok vars ∧
    (∀ name v, vars.lookup name = some v → v.isNull = false) ∧
    s.executableRoot op.type = .ok root ∧
    (SelectionContext.select ⟨s, d, Sample.query, vars⟩ root op.selectionSet).2 = [] ∧
    SelectionContext.Complete ⟨s, d, Sample.query, vars⟩ root (· = op.selectionSet)
      (SelectionContext.select ⟨s, d, Sample.query, vars⟩ root op.selectionSet).1 := by
  obtain ⟨s, d, op, root, vars, -, hchecked, hvars, hnull, -, -⟩ := Sample.checked?_values
  obtain ⟨⟨d₀, hload, hs⟩, hd, hvalid, hop, -⟩ := Sample.checked?_spec hchecked
  have hds : ∀ e ∈ [d₀], ∃ file text, SchemaDocument.load file text = .ok e :=
    List.forall_mem_singleton.mpr ⟨none, _, hload⟩
  obtain ⟨root, hroot, hselect⟩ := select_complete hds hs hd hvalid hop hvars hnull
  exact ⟨d₀, s, d, op, vars, root, hload, hs, hd, hvalid, hop, hvars, hnull, hroot, hselect⟩

/-- **Arguments are well typed**: where the fields of an operation of a valid document are selected
without errors, each has a value of its type for every argument that it declares, whatever variables
are null or absent. -/
theorem select_hasArguments (hds : ∀ d ∈ ds, ∃ file text, SchemaDocument.load file text = .ok d)
    (hs : build ds id = .ok s) (hdefaults : s.DefaultsWellTyped)
    (hd : Document.parse source = ⟨some d, []⟩) (hvalid : s.validate d source = [])
    (hop : op ∈ d.operations) (hroot : s.executableRoot op.type = .ok root)
    (hsupplied : ∀ p ∈ supplied, p.2.IsProper)
    (hvars : s.coerceVariables op.variableDefinitions supplied = .ok vars)
    (hselect : (SelectionContext.select ⟨s, d, source, vars⟩ root op.selectionSet).2 = []) :
    SelectionContext.HasArguments s root
      (SelectionContext.select ⟨s, d, source, vars⟩ root op.selectionSet).1 := by
  have hvalid := validate_eq_nil_iff.mp hvalid
  have hwf := build_wellFormed hds hs
  have hnodup := Document.parse_parts_nodup hd
  obtain ⟨hparts, hproper⟩ := Document.parse_isProper hd
  exact (hvalid.level hwf hnodup hop hroot).build_hasArguments hwf (hasVariables hvalid hop hvars)
    hdefaults hsupplied (hproper op hop) hparts hvalid.fragmentsFit (hvalid.tidy hnodup).ends hselect

theorem select_hasArguments_of_sample : ∃ d₀ s d op vars root,
    SchemaDocument.load none Sample.schemaText = .ok d₀ ∧ build [d₀] 0 = .ok s ∧
    s.DefaultsWellTyped ∧ Document.parse Sample.query = ⟨some d, []⟩ ∧
    s.validate d Sample.query = [] ∧ op ∈ d.operations ∧ s.executableRoot op.type = .ok root ∧
    (∀ p ∈ Sample.suppliedNull, p.2.IsProper) ∧
    s.coerceVariables op.variableDefinitions Sample.suppliedNull = .ok vars ∧
    (SelectionContext.select ⟨s, d, Sample.query, vars⟩ root op.selectionSet).2 = [] ∧
    SelectionContext.HasArguments s root
      (SelectionContext.select ⟨s, d, Sample.query, vars⟩ root op.selectionSet).1 := by
  have hpending : (Document.parse Sample.schemaChars.1).document?.any (fun t =>
      (resolve [⟨none, Sample.schemaChars.1, t.types, false⟩] 0).toOption.any fun resolved =>
        resolved.2.pending.all fun p => isFlat p.literal) = true := by
    decide +kernel
  obtain ⟨s, d, op, root, -, vars, hchecked, -, -, hvars, hselect⟩ := Sample.checked?_values
  obtain ⟨⟨d₀, hload, hs⟩, hd, hvalid, hop, hroot⟩ := Sample.checked?_spec hchecked
  have hds : ∀ e ∈ [d₀], ∃ file text, SchemaDocument.load file text = .ok e :=
    List.forall_mem_singleton.mpr ⟨none, _, hload⟩
  have hdefaults : s.DefaultsWellTyped := by
    rw [← Sample.schemaChars.2] at hpending
    obtain ⟨t, ht, rfl⟩ := SchemaDocument.load_eq_ok hload
    simp only [ht, Option.any_some] at hpending
    obtain ⟨⟨s₀, st⟩, hr, hflat⟩ := (Option.any_eq_true _ _).mp hpending
    refine build_wellTyped_of_flat (List.forall_mem_singleton.mpr
      (SchemaDocument.load_isProper hload)) (toOption_eq_some.mp hr) hs fun p hp => ?_
    exact List.all_eq_true.mp hflat p hp
  have hsupplied : ∀ p ∈ Sample.suppliedNull, p.2.IsProper :=
    List.forall_mem_cons.mpr ⟨Literal.ofJson_isProper .null,
      List.forall_mem_singleton.mpr (Literal.ofJson_isProper (.string "7"))⟩
  exact ⟨d₀, s, d, op, vars, root, hload, hs, hdefaults, hd, hvalid, hop, hroot, hsupplied, hvars,
    hselect, select_hasArguments hds hs hdefaults hd hvalid hop hroot hsupplied hvars hselect⟩

end Schema

end GraphQL
