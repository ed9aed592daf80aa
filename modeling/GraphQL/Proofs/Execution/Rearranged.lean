import GraphQL.Proofs.Coercion.Unplaced
import GraphQL.Proofs.Document.Rearranged
import GraphQL.Proofs.Execution.Agreement
import GraphQL.Proofs.Execution.Place
import GraphQL.Proofs.Execution.Selection

/-!
Selecting fields of a rearranged document.

What a walk reaches in one document it reaches in the other, as conditions do not depend on places. Of
the fields of a response key another one may come first, but at the levels of a valid operation all of
them have the same name and the same arguments. So the same fields are selected, in another order.
-/

namespace GraphQL

lemma toOption_map {α β ε : Type} (f : α → β) (x : Except ε α) :
    (x.map f).toOption = x.toOption.map f := by
  cases x <;> rfl

namespace SelectionContext

variable {c c' : SelectionContext} {parent : TypeId} {ds ds' : List Directive} {p q : Pos}
  {sel sel' : Selection} {ss ss' : SelectionSet} {b b' : Unit}

/-- One document is the other, rearranged, and schema and variables are the same. -/
structure Rearranged (c c' : SelectionContext) : Prop where
  schema : c.schema = c'.schema
  values : c.variableValues = c'.variableValues
  document : c.document.Rearranged c'.document

lemma Rearranged.symm (h : c.Rearranged c') : c'.Rearranged c :=
  ⟨h.schema.symm, h.values.symm, h.document.symm⟩

/-! ### Conditions -/

/-- A condition that is written elsewhere has the same value, or none. -/
lemma Rearranged.condition? (h : c.Rearranged c') {d d' : Directive} (hd : d.unplaced = d'.unplaced) :
    (c.condition? d).map (·.toOption) = (c'.condition? d').map (·.toOption) := by
  have hname : d.name.text = d'.name.text := congrArg (·.name.text) hd
  have hargs : SameArguments d.arguments d'.arguments := .of_unplaced (congrArg (·.arguments) hd)
  unfold SelectionContext.condition?
  dsimp only
  rw [hname, h.schema, h.values]
  split
  · rw [Option.map_map, Option.map_map]
    refine congrArg (Option.map · _) (funext fun spec => ?_)
    simp only [Function.comp_apply, toOption_map]
    rw [Schema.coerceArguments_same hargs]
  · rfl

/-- A condition without a value has an error. -/
lemma condition?_ne_nil {d : Directive} {es : List CoercionError}
    (h : c.condition? d = some (.error es)) : es ≠ [] := by
  unfold SelectionContext.condition? at h
  dsimp only at h
  split at h
  · obtain ⟨spec, -, hargs⟩ := Option.map_eq_some_iff.mp h
    cases hvalues : c.schema.coerceArguments spec.arguments d.arguments (some c.variableValues) d.pos
    with
    | ok args => simp [hvalues, Except.map] at hargs
    | error es' =>
      rw [hvalues] at hargs
      exact Except.error.inj hargs ▸ coerceArguments_ne_nil hvalues
  · simp at h

lemma responseErrors_ne_nil {es : List CoercionError} (h : es ≠ []) : c.responseErrors p es ≠ [] := by
  simpa [responseErrors] using h

/-- Directives that are written elsewhere let in the same selections, and report something if they did. -/
lemma Rearranged.admits (h : c.Rearranged c')
    (hds : ds.map Directive.unplaced = ds'.map Directive.unplaced) :
    (c.admits p ds).1 = (c'.admits q ds').1 ∧
      ((c.admits p ds).2 = [] ↔ (c'.admits q ds').2 = []) := by
  induction ds generalizing ds' with
  | nil =>
    obtain rfl := List.map_eq_nil_iff.mp hds.symm
    exact ⟨rfl, Iff.rfl⟩
  | cons d ds ih =>
    cases ds' with
    | nil => simp at hds
    | cons d' ds' =>
      obtain ⟨hd, hds⟩ := List.cons.inj hds
      have ih := ih hds
      have hcondition := h.condition? hd
      have hname : d.name.text = d'.name.text := congrArg (·.name.text) hd
      rw [SelectionContext.admits, SelectionContext.admits, hname]
      rcases hx : c.condition? d with _ | es | value <;>
        rcases hy : c'.condition? d' with _ | es' | value' <;>
        simp only [hx, hy, Option.map_none, Option.map_some, Except.toOption, reduceCtorEq,
          Option.some.injEq] at hcondition
      · exact ih
      · have hne := responseErrors_ne_nil (c := c) (p := p) (condition?_ne_nil hx)
        have hne' := responseErrors_ne_nil (c := c') (p := q) (condition?_ne_nil hy)
        simpa [hne, hne'] using ih.1
      · subst hcondition
        dsimp only
        split
        · exact ⟨rfl, Iff.rfl⟩
        · exact ih

/-! ### What is reached -/

/-- There is nothing wrong at a selection if there is nothing wrong with its conditions. -/
lemma own_errors_iff : ((c.walker parent).own b sel).filterMap (·.error?) = [] ↔
    (c.admits sel.pos sel.directives).2 = [] := by
  have hmap (es : List ResponseError) :
      (es.map Collected.error).filterMap (·.error?) = es := by
    simp [List.filterMap_map, Collected.error?]
  cases sel with
  | field f below =>
    simp only [walker, List.filterMap_append, hmap]
    split <;> simp [Collected.error?, Selection.pos, Selection.directives]
  | spread s =>
    rw [walker_own_spread, hmap]
    rfl
  | inline i inner =>
    rw [walker_own_inline, hmap]
    rfl

lemma Rearranged.own_errors (h : c.Rearranged c') (hsel : sel.Alike sel') :
    ((c.walker parent).own b sel).filterMap (·.error?) = [] ↔
      ((c'.walker parent).own b' sel').filterMap (·.error?) = [] := by
  rw [own_errors_iff, own_errors_iff]
  exact (h.admits hsel.directives).2

lemma Rearranged.applies (h : c.Rearranged c') {n n' : Option Name}
    (hn : n.map Name.unplaced = n'.map Name.unplaced) :
    c.applies parent n = c'.applies parent n' := by
  have htext : n.map (·.text) = n'.map (·.text) := by
    simpa [Function.comp_def] using congrArg (Option.map Name.text) hn
  cases n <;> cases n' <;> simp only [Option.map_none, Option.map_some, reduceCtorEq,
    Option.some.injEq] at htext
  · rfl
  · rw [SelectionContext.applies, SelectionContext.applies, h.schema, htext]

/-- A rearranged walk goes on where the walk does. -/
lemma Rearranged.next (h : c.Rearranged c') (hsel : sel.Alike sel') :
    (c.walker parent).next b sel = (c'.walker parent).next b sel' := by
  cases hsel with
  | field _ | object _ _ => rfl
  | spread same =>
    rw [walker_next_spread, walker_next_spread, (h.admits (congrArg (·.directives) same)).1]
  | inline same _ =>
    rw [walker_next_inline, walker_next_inline, (h.admits (congrArg (·.directives) same)).1,
      h.applies (congrArg (·.typeCondition) same)]

lemma Rearranged.body (h : c.Rearranged c') {g g' : FragmentDefinition} (hg : g.Rearranged g') :
    (c.walker parent).body b g = (c'.walker parent).body b g' := by
  rw [walker_body, walker_body, SelectionContext.applies, SelectionContext.applies, h.schema,
    hg.typeCondition]

/-- A rearranged walk reaches what is like the selections that are reached. -/
lemma Rearranged.meets (h : c.Rearranged c') {first first' : Selection} (hfirst : first.Alike first')
    (hmeets : (c.walker parent).Meets c.document b first b' sel) :
    ∃ sel', sel.Alike sel' ∧ (c'.walker parent).Meets c'.document b first' b' sel' := by
  induction hmeets generalizing first' with
  | refl b sel => exact ⟨first', hfirst, .refl b first'⟩
  | @inside b b₁ b' sel sel₁ sel₂ inner next isInner mem rest ih =>
    have hnext : (c'.walker parent).next b first' = some b₁ := (h.next hfirst).symm.trans next
    cases hfirst with
    | field same => simp [Selection.inner?] at isInner
    | object same below => simp [walker] at next
    | spread same => simp [Selection.inner?] at isInner
    | inline same below =>
      obtain rfl := Option.some.inj isInner
      obtain ⟨sel₁', hmem, halike⟩ := below.exists_alike mem
      obtain ⟨sel', hsel', hrest⟩ := ih halike
      exact ⟨sel', hsel', .inside hnext rfl hmem hrest⟩
  | @spread b b₁ b₂ b' s g sel₁ sel₂ next fragment body mem rest ih =>
    have hnext : (c'.walker parent).next b first' = some b₁ := (h.next hfirst).symm.trans next
    cases hfirst with
    | @spread _ s' same =>
      have hname : s.name.text = s'.name.text := congrArg (·.name.text) same
      obtain ⟨g', hg', hfragment⟩ := h.document.fragment? fragment
      obtain ⟨sel₁', hmem, halike⟩ := GraphQL.Rearranged.exists_alike hfragment.selections mem
      obtain ⟨sel', hsel', hrest⟩ := ih halike
      exact ⟨sel', hsel', .spread hnext (hname ▸ hg') ((h.body hfragment).symm.trans body) hmem hrest⟩

lemma Rearranged.reaches (h : c.Rearranged c') (hss : ss.Rearranged ss')
    (hreaches : c.Reaches parent ss sel) : ∃ sel', sel.Alike sel' ∧ c'.Reaches parent ss' sel' := by
  obtain ⟨first, hfirst, b, b', hmeets⟩ := hreaches
  obtain ⟨first', hfirst', halike⟩ := GraphQL.Rearranged.exists_alike hss hfirst
  obtain ⟨sel', hsel', hmeets'⟩ := h.meets halike hmeets
  exact ⟨sel', hsel', first', hfirst', b, b', hmeets'⟩

/-! ### What is collected -/

/-- Each of some selection sets is another one, rearranged, and each other one is one of them. -/
structure SetsRearranged (sets sets' : List SelectionSet) : Prop where
  left : ∀ ss ∈ sets, ∃ ss' ∈ sets', ss.Rearranged ss'
  right : ∀ ss' ∈ sets', ∃ ss ∈ sets, ss'.Rearranged ss

variable {sets sets' : List SelectionSet} {f : Field} {under : Option SelectionSet}

lemma SetsRearranged.symm (h : SetsRearranged sets sets') : SetsRearranged sets' sets :=
  ⟨h.right, h.left⟩

lemma Rearranged.collectedFields (h : c.Rearranged c') (hsets : SetsRearranged sets sets')
    (hf : (f, under) ∈ c.collectedFields parent sets) :
    ∃ f' under', (Selection.field f under).Alike (.field f' under') ∧
      (f', under') ∈ c'.collectedFields parent sets' := by
  obtain ⟨ss, hss, hreaches, hadmitted⟩ := mem_collectedFields.mp hf
  obtain ⟨ss', hss', hsame⟩ := hsets.left ss hss
  obtain ⟨sel', halike, hreaches'⟩ := h.reaches hsame hreaches
  have hadmits := (h.admits (p := f.pos) (q := sel'.pos) halike.directives).1
  obtain ⟨f', under', rfl⟩ : ∃ f' under', sel' = .field f' under' := by
    cases halike <;> exact ⟨_, _, rfl⟩
  refine ⟨f', under', halike, mem_collectedFields.mpr ⟨ss', hss', hreaches', ?_⟩⟩
  exact admits_iff.mp (hadmits.symm.trans (admits_iff.mpr hadmitted))

lemma Rearranged.collect_errors (h : c.Rearranged c') (hsets : SetsRearranged sets sets')
    (hnil : (c.collect parent sets).filterMap (·.error?) = []) :
    (c'.collect parent sets').filterMap (·.error?) = [] := by
  refine List.filterMap_eq_nil_iff.mpr fun a ha => ?_
  obtain ⟨ss', hss', sel', hreaches', hown⟩ := mem_collect.mp ha
  obtain ⟨ss, hss, hsame⟩ := hsets.right ss' hss'
  obtain ⟨sel, halike, hreaches⟩ := h.symm.reaches hsame hreaches'
  have herrors : ((c.walker parent).own () sel).filterMap (·.error?) = [] :=
    List.filterMap_eq_nil_iff.mpr fun b hb =>
      List.filterMap_eq_nil_iff.mp hnil b (mem_collect.mpr ⟨ss, hss, sel, hreaches, hb⟩)
  exact List.filterMap_eq_nil_iff.mp ((h.symm.own_errors halike).mpr herrors) a hown

lemma Rearranged.known (h : c.Rearranged c') (hsets : SetsRearranged sets sets')
    (hk : c.Known parent sets) : c'.Known parent sets' := by
  intro f' under' hf'
  obtain ⟨f, under, halike, hf⟩ := h.symm.collectedFields hsets.symm hf'
  rw [← h.schema, Field.name_eq halike.field_same]
  exact hk f under hf

open OperationContext.Level (setsBelow mem_setsBelow)

lemma Rearranged.setsBelow_left (h : c.Rearranged c') (hsets : SetsRearranged sets sets')
    (key : String) : ∀ inner ∈ setsBelow (c.collectedFields parent sets) key,
      ∃ inner' ∈ setsBelow (c'.collectedFields parent sets') key, inner.Rearranged inner' := by
  intro inner hinner
  obtain ⟨f, hf, hkey⟩ := mem_setsBelow.mp hinner
  obtain ⟨f', under', halike, hf'⟩ := h.collectedFields hsets hf
  cases halike with
  | object same below =>
    exact ⟨_, mem_setsBelow.mpr ⟨f', hf', (Field.responseKey_eq same).symm.trans hkey⟩, below⟩

/-- What stands below the fields of one response key is rearranged as well. -/
lemma Rearranged.setsBelow (h : c.Rearranged c') (hsets : SetsRearranged sets sets') (key : String) :
    SetsRearranged (setsBelow (c.collectedFields parent sets) key)
      (OperationContext.Level.setsBelow (c'.collectedFields parent sets') key) :=
  ⟨h.setsBelow_left hsets key, h.symm.setsBelow_left hsets.symm key⟩

lemma Rearranged.exists_key (h : c.Rearranged c') (hsets : SetsRearranged sets sets') {key : String}
    (hkey : ∃ f under, (f, under) ∈ c.collectedFields parent sets ∧ f.responseKey = key) :
    ∃ f under, (f, under) ∈ c'.collectedFields parent sets' ∧ f.responseKey = key := by
  obtain ⟨f, under, hf, rfl⟩ := hkey
  obtain ⟨f', under', halike, hf'⟩ := h.collectedFields hsets hf
  exact ⟨f', under', hf', (Field.responseKey_eq halike.field_same).symm⟩

end SelectionContext

/-! ### The same fields -/

/-- Two fields have the same name, arguments and type; where they stand does not count. -/
structure SameCall (f g : FieldCall) : Prop where
  key : f.key = g.key
  name : f.name = g.name
  arguments : f.arguments = g.arguments
  type : f.type = g.type

/-- The same fields in some order, at every depth. -/
inductive SameSelection : List SelectedField → List SelectedField → Prop where
  | mk {fs gs : List SelectedField} (keys : (fs.map (·.call.key)).Perm (gs.map (·.call.key)))
      (calls : ∀ f ∈ fs, ∀ g ∈ gs, f.call.key = g.call.key → SameCall f.call g.call)
      (leaves : ∀ f ∈ fs, ∀ g ∈ gs, f.call.key = g.call.key → (f.below? = none ↔ g.below? = none))
      (below : ∀ f ∈ fs, ∀ g ∈ gs, f.call.key = g.call.key → ∀ fs' gs', f.below? = some fs' →
        g.below? = some gs' → SameSelection fs' gs') : SameSelection fs gs

namespace OperationContext

open Level (setsBelow)

variable {c : OperationContext} {c' : SelectionContext} {k levels : Nat} {parent : TypeId}
  {sets sets' : List SelectionSet} {source : List Char} {vars : Variables} {g g' : SelectedField}
  {es es' : List ResponseError}

/-- The fields that one response key is merged into before and after. -/
structure SameField (g g' : SelectedField) : Prop where
  call : SameCall g.call g'.call
  leaf : g.below? = none ↔ g'.below? = none
  below : ∀ fs fs', g.below? = some fs → g'.below? = some fs' → SameSelection fs fs'

/-- Building what was rearranged comes to errors where it did before, and else to the same fields. -/
def BuildsSame (c : OperationContext) (source : List Char) (vars : Variables)
    (c' : SelectionContext) (levels : Nat) (parent : TypeId) (sets sets' : List SelectionSet) : Prop :=
  (((c.selecting source vars).build levels parent sets).2 = [] ↔
      (c'.build levels parent sets').2 = []) ∧
    (((c.selecting source vars).build levels parent sets).2 = [] →
      SameSelection ((c.selecting source vars).build levels parent sets).1
        (c'.build levels parent sets').1)

section

variable {d d' : SelectionContext} {first first' : Field} {spec : FieldSpec}
  {run run' : TypeId → List SelectionSet → List SelectedField × List ResponseError}

/-- Two first uses with the same values of their arguments are merged with errors alike, if what stands
below them is. -/
lemma merged_errors_iff (hd : d.schema = d'.schema) (h : d.Merged run first spec sets g es)
    (h' : d'.Merged run' first' spec sets' g' es')
    (hvalues : (d.schema.coerceArguments spec.arguments first.arguments (some d.variableValues)
      first.pos).toOption = (d'.schema.coerceArguments spec.arguments first'.arguments
        (some d'.variableValues) first'.pos).toOption)
    (hrun : d.schema.isComposite spec.type = true →
      ((run (d.schema.registry.innermost spec.type) sets).2 = [] ↔
        (run' (d.schema.registry.innermost spec.type) sets').2 = [])) : es = [] ↔ es' = [] := by
  rw [h.errors, h'.errors]
  simp only [← toOption_eq_some]
  rw [hvalues, ← hd]
  exact and_congr Iff.rfl (forall_congr' hrun)

/-- Two first uses with the same name and the same values are merged into the same field, if the same
fields stand below them. -/
lemma merged_sameField (hd : d.schema = d'.schema) (h : d.Merged run first spec sets g es)
    (h' : d'.Merged run' first' spec sets' g' es') (hkey : g.call.key = g'.call.key)
    (hname : first.name.text = first'.name.text)
    (hvalues : (d.schema.coerceArguments spec.arguments first.arguments (some d.variableValues)
      first.pos).toOption = (d'.schema.coerceArguments spec.arguments first'.arguments
        (some d'.variableValues) first'.pos).toOption)
    (hrun : d.schema.isComposite spec.type = true →
      (run (d.schema.registry.innermost spec.type) sets).2 = [] →
        SameSelection (run (d.schema.registry.innermost spec.type) sets).1
          (run' (d.schema.registry.innermost spec.type) sets').1) (hnil : es = []) :
    SameField g g' := by
  obtain ⟨⟨args, hargs⟩, hbelow⟩ := h.errors.mp hnil
  have hargs' : d'.schema.coerceArguments spec.arguments first'.arguments (some d'.variableValues)
      first'.pos = .ok args := by
    rw [← toOption_eq_some, ← hvalues, toOption_eq_some]
    exact hargs
  have hfields := h.below
  have hfields' := h'.below
  rw [← hd] at hfields'
  refine ⟨⟨hkey, ?name, ?arguments, ?type⟩, ?leaf, fun fs fs' hfs hfs' => ?below⟩
  case name => rw [h.name, h'.name, hname]
  case arguments => rw [h.arguments args hargs, h'.arguments args hargs']
  case type => rw [h.type, h'.type]
  case leaf =>
    rw [hfields, hfields']
    split <;> simp
  case below =>
    rw [hfields] at hfs
    rw [hfields'] at hfs'
    split at hfs
    · rename_i hobject
      rw [if_pos hobject] at hfs'
      rw [← Option.some.inj hfs, ← Option.some.inj hfs']
      exact hrun hobject (hbelow hobject)
    · simp at hfs

end

/-- Fields of one response key before and after have the same name and the same arguments. -/
lemma Level.first_same (hl : c.Level k parent sets) (hfit : c.FragmentsFit)
    (hc : (c.selecting source vars).Rearranged c')
    (hsets : SelectionContext.SetsRearranged sets sets') {first first' : Field}
    {under under' : Option SelectionSet}
    (hfirst : (first, under) ∈ (c.selecting source vars).collectedFields parent sets)
    (hfirst' : (first', under') ∈ c'.collectedFields parent sets')
    (hkey : first.responseKey = first'.responseKey) :
    first.name.text = first'.name.text ∧ SameArguments first.arguments first'.arguments := by
  obtain ⟨f, _, halike, hf⟩ := hc.symm.collectedFields hsets.symm hfirst'
  have hsame := halike.field_same
  obtain ⟨hname, hargs⟩ := hl.same hfit hfirst hf (hkey.trans (Field.responseKey_eq hsame))
  exact ⟨hname.trans (Field.name_eq hsame).symm, hargs.trans (Field.sameArguments hsame).symm⟩

/-- Another field of a response key may come first in the rearranged document, but it has the same name and
the same arguments. -/
lemma Level.merged_same (hl : c.Level k parent sets) (hfit : c.FragmentsFit)
    (hends : ∀ g ∈ c.document.fragments, c.document.Ends g.name.text)
    (hc : (c.selecting source vars).Rearranged c')
    (hsets : SelectionContext.SetsRearranged sets sets')
    (hbelow : ∀ m t inner inner', c.Level m t inner → SelectionContext.SetsRearranged inner inner' →
      c.BuildsSame source vars c' levels t inner inner')
    (hg : (g, es) ∈ (c.selecting source vars).mergedFields levels parent sets)
    (hg' : (g', es') ∈ c'.mergedFields levels parent sets') (hkey : g.call.key = g'.call.key) :
    (es = [] ↔ es' = []) ∧ (es = [] → SameField g g') := by
  have hk : (c.selecting source vars).Known parent sets := hl.known hfit
  obtain ⟨first, under, spec, hfirst, hfkey, hspec, hmerged⟩ := hk.mem_mergedFields hg
  obtain ⟨first', under', spec', hfirst', hfkey', hspec', hmerged'⟩ :=
    (hc.known hsets hk).mem_mergedFields hg'
  obtain ⟨hname, hargs⟩ := hl.first_same hfit hc hsets hfirst hfirst'
    (hfkey.trans (hkey.trans hfkey'.symm))
  obtain rfl : spec = spec' := by
    rw [← hc.schema, ← hname] at hspec'
    exact Option.some.inj (hspec.symm.trans hspec')
  have hvalues : (c.schema.coerceArguments spec.arguments first.arguments (some vars)
      first.pos).toOption = (c'.schema.coerceArguments spec.arguments first'.arguments
        (some c'.variableValues) first'.pos).toOption := by
    rw [← hc.schema, ← hc.values]
    exact Schema.coerceArguments_same hargs (some vars) first.pos first'.pos
  have hrun : c.schema.isComposite spec.type = true → c.BuildsSame source vars c' levels
      (c.schema.registry.innermost spec.type)
      (setsBelow ((c.selecting source vars).collectedFields parent sets) g.call.key)
      (setsBelow (c'.collectedFields parent sets') g'.call.key) := by
    intro hobject
    obtain ⟨m, -, hm⟩ := hl.next hfit hends hfirst hspec hobject
    rw [hfkey] at hm
    exact hbelow m _ _ _ hm (hkey ▸ hc.setsBelow hsets g.call.key)
  exact ⟨merged_errors_iff hc.schema hmerged hmerged' hvalues fun h => (hrun h).1,
    merged_sameField hc.schema hmerged hmerged' hkey hname hvalues fun h => (hrun h).2⟩

/-- Merged fields before and after belong together by their response keys. -/
structure SamelyMerged (fs fs' : List (SelectedField × List ResponseError)) : Prop where
  keys : ∀ key, key ∈ fs.map (·.1.call.key) ↔ key ∈ fs'.map (·.1.call.key)
  pair : ∀ {g es g' es'}, (g, es) ∈ fs → (g', es') ∈ fs' → g.call.key = g'.call.key →
    (es = [] ↔ es' = []) ∧ (es = [] → SameField g g')

namespace SamelyMerged

variable {fs fs' : List (SelectedField × List ResponseError)}

lemma errors_iff (h : SamelyMerged fs fs') : (∀ p ∈ fs, p.2 = []) ↔ ∀ p ∈ fs', p.2 = [] := by
  constructor
  · rintro hall ⟨g', es'⟩ hg'
    obtain ⟨⟨g, es⟩, hg, hkey⟩ := List.mem_map.mp
      ((h.keys g'.call.key).mpr (List.mem_map_of_mem hg'))
    exact (h.pair hg hg' hkey).1.mp (hall _ hg)
  · rintro hall ⟨g, es⟩ hg
    obtain ⟨⟨g', es'⟩, hg', hkey⟩ := List.mem_map.mp
      ((h.keys g.call.key).mp (List.mem_map_of_mem hg))
    exact (h.pair hg hg' hkey.symm).1.mpr (hall _ hg')

lemma sameSelection (h : SamelyMerged fs fs') (hnil : ∀ p ∈ fs, p.2 = [])
    (hnodup : ((fs.map (·.1)).map (·.call.key)).Nodup)
    (hnodup' : ((fs'.map (·.1)).map (·.call.key)).Nodup) :
    SameSelection (fs.map (·.1)) (fs'.map (·.1)) := by
  have hsame : ∀ g ∈ fs.map (·.1), ∀ g' ∈ fs'.map (·.1), g.call.key = g'.call.key →
      SameField g g' := by
    intro g hg g' hg' hkey
    obtain ⟨⟨g, es⟩, hmem, rfl⟩ := List.mem_map.mp hg
    obtain ⟨⟨g', es'⟩, hmem', rfl⟩ := List.mem_map.mp hg'
    exact (h.pair hmem hmem' hkey).2 (hnil _ hmem)
  refine .mk ?_ (fun g hg g' hg' hkey => (hsame g hg g' hg' hkey).call)
    (fun g hg g' hg' hkey => (hsame g hg g' hg' hkey).leaf)
    fun g hg g' hg' hkey => (hsame g hg g' hg' hkey).below
  refine (List.perm_ext_iff_of_nodup hnodup hnodup').mpr fun key => ?_
  rw [List.map_map, List.map_map]
  exact h.keys key

end SamelyMerged

/-- **Merging does not depend on what comes first**: at a level of a valid operation, the rearranged
selection sets have the same fields, unless something is wrong in both. -/
theorem Level.build_same (hfit : c.FragmentsFit)
    (hends : ∀ g ∈ c.document.fragments, c.document.Ends g.name.text)
    (hc : (c.selecting source vars).Rearranged c') (hl : c.Level k parent sets)
    (hsets : SelectionContext.SetsRearranged sets sets') :
    c.BuildsSame source vars c' levels parent sets sets' := by
  induction levels generalizing k parent sets sets' with
  | zero =>
    refine ⟨Iff.rfl, fun _ => .mk .nil ?_ ?_ ?_⟩
    all_goals simp [SelectionContext.build]
  | succ levels ih =>
    have hk : (c.selecting source vars).Known parent sets := hl.known hfit
    have hk' := hc.known hsets hk
    have hmerged : SamelyMerged ((c.selecting source vars).mergedFields levels parent sets)
        (c'.mergedFields levels parent sets') := by
      refine ⟨fun key => ?_, fun hg hg' hkey => ?_⟩
      · rw [hk.mem_keys, hk'.mem_keys]
        exact ⟨hc.exists_key hsets, hc.symm.exists_key hsets.symm⟩
      · exact hl.merged_same hfit hends hc hsets
          (fun m t inner inner' hm hinner => ih hm hinner) hg hg' hkey
    have hnodup := (SelectionContext.build_distinctKeys (c := c.selecting source vars) (levels + 1)
      parent sets).keys
    have hnodup' := (SelectionContext.build_distinctKeys (c := c') (levels + 1) parent sets').keys
    rw [SelectionContext.build_succ] at hnodup hnodup'
    rw [BuildsSame, SelectionContext.build_succ, SelectionContext.build_succ]
    dsimp only
    rw [List.append_eq_nil_iff, List.append_eq_nil_iff, List.flatMap_eq_nil_iff,
      List.flatMap_eq_nil_iff]
    refine ⟨and_congr ⟨hc.collect_errors hsets, hc.symm.collect_errors hsets.symm⟩ hmerged.errors_iff,
      fun hnil => hmerged.sameSelection hnil.2 hnodup hnodup'⟩

end OperationContext

namespace Schema

open OperationContext (declaring)

variable {ds : List SchemaDocument} {id : Nat} {s : Schema} {source : List Char} {d : Document}
  {op : OperationDefinition}

/-- **The order of selections does not count**: wherever fields of a valid operation are merged into one,
they have the same name and the same arguments. So if selections of the operation or of its fragments
are put in another order, the same fields are selected in some order, unless something is wrong either
way. -/
theorem select_rearranged (hds : ∀ d ∈ ds, ∃ file text, SchemaDocument.load file text = .ok d)
    (hs : build ds id = .ok s) (hd : Document.parse source = ⟨some d, []⟩)
    (hvalid : s.validate d source = []) (hop : op ∈ d.operations) (vars : Variables) :
    ∃ root, s.executableRoot op.type = .ok root ∧
      (∀ parent sets,
        SelectionContext.ComesTo ⟨s, d, source, vars⟩ root [op.selectionSet] parent sets →
        ∀ key group, (key, group) ∈ groupByKey (·.1.responseKey)
          (SelectionContext.collectedFields ⟨s, d, source, vars⟩ parent sets) →
        ∀ x ∈ group, ∀ y ∈ group,
          x.1.name.text = y.1.name.text ∧ SameArguments x.1.arguments y.1.arguments) ∧
      ∀ d' op' source', d.Rearranged d' → (op, op') ∈ d.operations.zip d'.operations →
        ((SelectionContext.select ⟨s, d, source, vars⟩ root op.selectionSet).2 = [] ↔
          (SelectionContext.select ⟨s, d', source', vars⟩ root op'.selectionSet).2 = []) ∧
        ((SelectionContext.select ⟨s, d, source, vars⟩ root op.selectionSet).2 = [] →
          SameSelection (SelectionContext.select ⟨s, d, source, vars⟩ root op.selectionSet).1
            (SelectionContext.select ⟨s, d', source', vars⟩ root op'.selectionSet).1) := by
  have hvalid := validate_eq_nil_iff.mp hvalid
  have hnodup := Document.parse_parts_nodup hd
  obtain ⟨-, root, hroot, -⟩ := hvalid.operation hop
  have hlevel := hvalid.level (build_wellFormed hds hs) hnodup hop hroot
  have hfit : (declaring s d op).FragmentsFit := hvalid.fragmentsFit
  have hends := (hvalid.tidy hnodup).ends
  refine ⟨root, hroot, fun parent sets hcomes key group hgroup => ?_,
    fun d' op' source' hd' hops => ?_⟩
  · obtain ⟨m, hm⟩ := hlevel.comesTo hfit hends hcomes
    exact hm.group_same hfit hgroup
  · have hop' := (List.forall₂_iff_zip.mp hd'.operations).2 hops
    have hback : op'.selectionSet.Rearranged op.selectionSet := Rearranged.symm hop'.selections
    have hsets : SelectionContext.SetsRearranged [op.selectionSet] [op'.selectionSet] :=
      ⟨by simpa using hop'.selections, by simpa using hback⟩
    have hc : SelectionContext.Rearranged ((declaring s d op).selecting source vars)
        ⟨s, d', source', vars⟩ := ⟨rfl, rfl, hd'⟩
    have hsame : (declaring s d op).BuildsSame source vars ⟨s, d', source', vars⟩ (d.maxLevels + 1) root
        [op.selectionSet] [op'.selectionSet] := hlevel.build_same hfit hends hc hsets
    unfold SelectionContext.select
    rw [← hd'.maxLevels_eq]
    exact hsame

theorem select_rearranged_of_sample : ∃ d₀ s d op op' vars root,
    SchemaDocument.load none Sample.schemaText = .ok d₀ ∧ build [d₀] 0 = .ok s ∧
    Document.parse Sample.query = ⟨some d, []⟩ ∧ s.validate d Sample.query = [] ∧
    op ∈ d.operations ∧ (op, op') ∈ d.operations.zip d.reversed.operations ∧
    s.executableRoot op.type = .ok root ∧
    (SelectionContext.select ⟨s, d, Sample.query, vars⟩ root op.selectionSet).2 = [] ∧
    SameSelection (SelectionContext.select ⟨s, d, Sample.query, vars⟩ root op.selectionSet).1
      (SelectionContext.select ⟨s, d.reversed, Sample.query, vars⟩ root op'.selectionSet).1 := by
  obtain ⟨s, d, op, root, -, vars, hchecked, -, -, -, hselect⟩ := Sample.checked?_values
  obtain ⟨⟨d₀, hload, hs⟩, hd, hvalid, hop, hroot⟩ := Sample.checked?_spec hchecked
  have hds : ∀ e ∈ [d₀], ∃ file text, SchemaDocument.load file text = .ok e :=
    List.forall_mem_singleton.mpr ⟨none, _, hload⟩
  obtain ⟨root', hroot', -, hsame⟩ := select_rearranged hds hs hd hvalid hop vars
  obtain rfl := Except.ok.inj (hroot.symm.trans hroot')
  have hops := d.zip_reversed hop
  exact ⟨d₀, s, d, op, _, vars, root, hload, hs, hd, hvalid, hop, hops, hroot, hselect,
    (hsame d.reversed _ Sample.query d.rearranged_reversed hops).2 hselect⟩

end Schema

end GraphQL
