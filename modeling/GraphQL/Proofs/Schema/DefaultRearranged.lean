import GraphQL.Proofs.Schema.DefaultFinal
import GraphQL.Proofs.Schema.Members
import GraphQL.Proofs.Schema.Resolvable

/-!
Defaults do not depend on the order of definitions.

Where no input object holds itself, documents that hold the same definitions in another order, or in other
documents, build as well, and all arguments and input fields have the same defaults, up to handles.
-/

namespace GraphQL

open TypeRegistry (SameType)

namespace SchemaDocument

variable {ds ds' : List SchemaDocument}

/-- Each argument and input field is defined alike in both. -/
lemma Rearranged.ownedInputs (h : Rearranged ds ds') {owner : InputOwner} {d : InputDefinition}
    (hd : (owner, d) ∈ ownedInputs ds) :
    ∃ d', (owner, d') ∈ SchemaDocument.ownedInputs ds' ∧ d.unplaced = d'.unplaced := by
  obtain ⟨t, ht, hd⟩ := List.mem_flatMap.mp hd
  rw [List.flatMap_cons] at ht
  rcases List.mem_append.mp ht with ht | ht
  · refine ⟨d, List.mem_flatMap.mpr ⟨t, ?_, hd⟩, rfl⟩
    exact List.mem_append_left _ ht
  · obtain ⟨t', ht', hsame⟩ := h.exists_same ht
    have hmem : (owner, d.unplaced) ∈ t.ownedInputs.map fun p => (p.1, p.2.unplaced) :=
      List.mem_map.mpr ⟨_, hd, rfl⟩
    rw [← t.ownedInputs_unplaced, hsame, t'.ownedInputs_unplaced] at hmem
    obtain ⟨⟨owner', d'⟩, hd', heq⟩ := List.mem_map.mp hmem
    obtain rfl : owner' = owner := congrArg Prod.fst heq
    have hunplaced : d'.unplaced = d.unplaced := congrArg Prod.snd heq
    refine ⟨d', List.mem_flatMap.mpr ⟨t', ?_, hd'⟩, hunplaced.symm⟩
    exact List.mem_append_right _ ht'

end SchemaDocument

namespace Schema

variable {s s' s₀ σ : Schema} {ps : List PendingDefault}

/-! ### Runs that exist -/

lemma applyDefaultsInOrder_of_applies (h : Applies s ps s') : s.applyDefaultsInOrder ps = (s', []) := by
  induction h with
  | nil => rfl
  | @cons s s' p ps v coerced rest ih =>
    have hstep : applyNext (s, []) p = (s.setDefault p.owner v, []) := by
      simp [applyNext, applyDefault, coerced]
    show ps.foldl applyNext (applyNext (s, []) p) = (s', [])
    rw [hstep]
    exact ih

/-- Defaults that are stored in another schema can be applied, if each of them comes behind those that
it needs, and all others agree. -/
lemma exists_applies (hs : s.HasCounterparts σ) (howners : (s.ownedInputs.map (·.1)).Nodup)
    (howners' : (σ.ownedInputs.map (·.1)).Nodup) (htypes : SameTypes s₀ σ) (hneeds : s₀.NeedsFirst ps)
    (hagree : ∀ owner, owner ∉ ps.map (·.owner) → s.AgreeOn σ owner)
    (hstored : ∀ p ∈ ps, p.key ∈ σ.ownedTypes ∧ ∃ i v, (p.owner, i) ∈ s.ownedInputs ∧
      SameType s.registry σ.registry i.type p.type ∧ i.default? = some v ∧
      s.coerceLiteral i.type p.literal none = .ok v) :
    ∃ s', Applies σ ps s' ∧ ∀ owner, s.AgreeOn s' owner := by
  induction ps generalizing σ with
  | nil => exact ⟨σ, .nil σ, fun owner => hagree owner List.not_mem_nil⟩
  | cons p ps ih =>
    obtain ⟨⟨hkey, i, v, hi, htype, hdefault, hcoerced⟩, hstored⟩ := List.forall_mem_cons.mp hstored
    obtain ⟨⟨owner, i'⟩, hi', heq⟩ := List.mem_map.mp hkey
    obtain ⟨rfl, -⟩ := Prod.mk.inj heq
    -- What the literal leaves out agrees already.
    obtain ⟨v', hcoerced', hsame⟩ := CoercionContext.coerce_carries hs [] htype
      (fun n d hd => hagree _ (not_mem_of_needsFirst htypes hneeds hd)) v hcoerced
    have hset := sameTypes_setDefault σ p.owner v'
    have hagree' : ∀ owner, owner ∉ ps.map (·.owner) → s.AgreeOn (σ.setDefault p.owner v') owner := by
      intro owner hnot
      by_cases howner : owner = p.owner
      · subst howner
        exact agreeOn_setDefault howners howners' hi hi' (hdefault ▸ .some hsame)
      · have hnot : owner ∉ (p :: ps).map (·.owner) := by simpa [howner] using hnot
        exact fun j j' hj hj' => hagree owner hnot j j' hj ((mem_setDefault_of_ne howner).mp hj')
    obtain ⟨s', happlies, hall⟩ := ih (hs.of_sameTypes (.refl s) hset)
      (owners_setDefault σ p.owner v' ▸ howners') (htypes.trans hset) hneeds.2 hagree'
      fun q hq => ⟨ownedTypes_setDefault σ p.owner v' ▸ (hstored q hq).1, (hstored q hq).2⟩
    exact ⟨s', .cons hcoerced' happlies, hall⟩

lemma inputCycleErrors_eq_nil (hs : s.HasPlainNames) (hrec : s.NoInputRecursion) :
    s.inputCycleErrors = [] := by
  obtain ⟨cycles, heq, hcycles, -⟩ := inputCycleErrors_spec hs
  rw [heq, List.map_eq_nil_iff]
  exact List.eq_nil_iff_forall_not_mem.mpr fun es hes => hrec.no_cycle ⟨es, hcycles es hes⟩

variable {ds ds' : List SchemaDocument} {id id' : ℕ} {st : ResolutionState}

lemma build_of_applies (hr : resolve ds id = .ok (s₀, st)) (hst : st.errors = [])
    (h : Applies s₀ (s₀.orderDefaults st.pending.reverse) s) (hcycles : s.inputCycleErrors = []) :
    build ds id = .ok s := by
  have happlied : s₀.applyDefaults st.pending.reverse = (s, []) := applyDefaultsInOrder_of_applies h
  refine bind_eq_ok.mpr ⟨_, hr, ?_⟩
  simp [happlied, hst, hcycles, pure, Except.pure]

/-! ### Rearranged documents -/

/-- Each argument and input field has a counterpart of the same type and with the same default, up to
handles. -/
def CarriesDefaults (s s' : Schema) : Prop :=
  ∀ owner i, (owner, i) ∈ s.ownedInputs → ∃ i', (owner, i') ∈ s'.ownedInputs ∧
    SameInput s.registry s'.registry i i' ∧
    Option.Rel (SameValue s.registry s'.registry) i.default? i'.default?

/-- What is written for the arguments and input fields of a schema that is resolved is written for those of
another one as well, which has what their literals come to. -/
def StoresWritten (s s₀ : Schema) (waiting : List PendingDefault) : Prop :=
  ∀ owner i', (owner, i') ∈ s₀.ownedInputs → ∃ i d d' ctx, (owner, i) ∈ s.ownedInputs ∧
    s.HoldsDefault (owner, d) (owner, i) ∧ Resolution.InputOf ctx s₀.registry waiting owner d' i' ∧
    d.unplaced = d'.unplaced

lemma storesWritten (hd : ∀ d ∈ ds, d.IsProper) (h : build ds id = .ok s) (hrec : s.NoInputRecursion)
    (hd' : ∀ d ∈ ds', d.IsProper) (hr' : resolve ds' id' = .ok (s₀, st)) (hst' : st.errors = [])
    (hsame : SchemaDocument.Rearranged ds ds') : s.StoresWritten s₀ st.pending := by
  intro owner i' hi'
  obtain ⟨⟨owner', d'⟩, hmem', howner, ctx, hin⟩ := forall₂_exists_left (resolve_inputs hd' hr' hst') hi'
  obtain rfl : owner = owner' := howner
  obtain ⟨d, hmem, hunplaced⟩ := hsame.symm.ownedInputs hmem'
  obtain ⟨⟨owner', i⟩, hi, hholds⟩ := forall₂_exists_right (build_holdsDefaults hd h hrec) hmem
  obtain rfl : owner' = owner := hholds.owner
  exact ⟨i, d, d', ctx, hi, hholds, hin, hunplaced.symm⟩

namespace StoresWritten

variable (h : s.StoresWritten s₀ st.pending) (hres : s₀.Resolved st)
include h hres

/-- Where nothing waits, both have no default. -/
lemma agreeOn (howners : (s.ownedInputs.map (·.1)).Nodup) {owner : InputOwner}
    (hnot : owner ∉ (s₀.orderDefaults st.pending.reverse).map (·.owner)) : s.AgreeOn s₀ owner := by
  intro i i' hi hi'
  obtain ⟨j, d, d', ctx, hj, hholds, hin, hunplaced⟩ := h owner i' hi'
  obtain rfl := owned_unique howners hi hj
  have hnone' : i'.default? = none := by
    rw [← Option.not_isSome_iff_eq_none]
    exact fun hsome => hnot (hres.owner_ordered hi' hsome)
  have hwritten' : d'.default? = none := by simpa [hnone', eq_comm] using hin.default
  have hwritten : d.default? = none := by
    simpa [InputDefinition.unplaced, hwritten'] using congrArg InputDefinition.default? hunplaced
  have hnone : i.default? = none := by simpa [hwritten] using hholds.default
  rw [hnone, hnone']
  exact .none

/-- What waits comes to what is stored. -/
lemma stored {p : PendingDefault} (hp : p ∈ s₀.orderDefaults st.pending.reverse) :
    ∃ i v, (p.owner, i) ∈ s.ownedInputs ∧ SameType s.registry s₀.registry i.type p.type ∧
      i.default? = some v ∧ s.coerceLiteral i.type p.literal none = .ok v := by
  obtain ⟨⟨owner, i'⟩, hmem, heq⟩ := List.mem_map.mp (hres.ordered.mem_iff.mp (List.mem_map.mpr ⟨p, hp, rfl⟩))
  obtain ⟨hi', hsome⟩ := List.mem_filter.mp hmem
  obtain rfl : owner = p.owner := congrArg Prod.fst heq
  have htype : i'.type = p.type := congrArg Prod.snd heq
  obtain ⟨i, d, d', ctx, hi, hholds, hin, hunplaced⟩ := h _ i' hi'
  obtain ⟨l', hl'⟩ : ∃ l', d'.default? = some l' := by
    rw [← Option.isSome_iff_exists]
    simpa [hin.default] using hsome
  -- No other default waits for this owner, so that `l'` is the literal of `p`.
  obtain ⟨w, hw, howner, rfl⟩ := hin.waits l' hl'
  obtain rfl := List.inj_on_of_nodup_map hres.ordered_owners hp (Resolved.mem_ordered.mpr hw) howner.symm
  obtain ⟨l, hl, hliteral⟩ : ∃ l, d.default? = some l ∧ l.unplaced = p.literal.unplaced := by
    simpa [InputDefinition.unplaced, hl'] using congrArg InputDefinition.default? hunplaced
  have hdefault := hholds.default
  rw [hl, Option.map_some] at hdefault
  obtain ⟨v, hv, hcoerced⟩ := Option.map_eq_some_iff.mp hdefault
  refine ⟨i, v, hi, ?_, hv, ?_⟩
  · exact htype ▸ .of_ofRef? hholds.type hin.type (congrArg InputDefinition.type hunplaced)
  · rw [← toOption_eq_some, ← coerceLiteral_unplaced hliteral, toOption_eq_some]
    exact hcoerced.symm

end StoresWritten

/-- Documents that hold the same definitions build, with the same defaults. -/
lemma build_rearranged (hds : ∀ d ∈ ds, ∃ file text, SchemaDocument.load file text = .ok d)
    (hds' : ∀ d ∈ ds', ∃ file text, SchemaDocument.load file text = .ok d) (h : build ds id = .ok s)
    (hrec : s.NoInputRecursion) (hsame : SchemaDocument.Rearranged ds ds') (id' : ℕ) :
    ∃ s', build ds' id' = .ok s' ∧ s'.NoInputRecursion ∧ s.CarriesDefaults s' := by
  have hd := SchemaDocument.loaded_isProper hds
  have hd' := SchemaDocument.loaded_isProper hds'
  obtain ⟨s₀, st, hr, hst, happlies⟩ := build_applies h
  have hobey := hsame.obey (SchemaDocument.loaded_isUser hds) (SchemaDocument.loaded_isUser hds')
    (resolve_faultless_iff.mp ⟨s₀, st, hr, hst⟩)
  obtain ⟨s₀', st', hr', hst'⟩ : ∃ s₀' st', resolve ds' id' = .ok (s₀', st') ∧ st'.errors = [] :=
    resolve_faultless_iff.mpr hobey
  have hres' := resolve_resolved hd' hr' hst'
  have hs : s.HasCounterparts s₀' := (resolve_hasCounterparts hd hr hst hd' hr' hst'
    fun _ => hsame.exists_same).of_sameTypes happlies.sameTypes (.refl s₀')
  have hs' : s₀'.HasCounterparts s := (resolve_hasCounterparts hd' hr' hst' hd hr hst
    fun _ => hsame.symm.exists_same).of_sameTypes (.refl s₀') happlies.sameTypes
  have howners : (s.ownedInputs.map (·.1)).Nodup :=
    happlies.owners ▸ (resolve_resolved hd hr hst).wellFormed.owners_nodup
  have hstores := storesWritten hd h hrec hd' hr' hst' hsame
  obtain ⟨s', happlies', hagree⟩ := exists_applies hs howners hres'.wellFormed.owners_nodup (.refl s₀')
    (orderDefaults_needsFirst hres'.wellFormed (hs'.noInputRecursion hrec) fun p hp =>
      hres'.ordered_keys p ((s₀'.orderDefaults_perm _).mem_iff.mpr hp))
    (fun owner => hstores.agreeOn hres' howners)
    fun p hp => ⟨hres'.ordered_keys p hp, hstores.stored hres' hp⟩
  have htypes' := happlies'.sameTypes
  have hrec' := (hs'.of_sameTypes htypes' (.refl s)).noInputRecursion hrec
  have hplain := htypes'.hasPlainNames (resolve_hasPlainNames hds' hr')
  refine ⟨s', build_of_applies hr' hst' happlies' (inputCycleErrors_eq_nil hplain hrec'), hrec', ?_⟩
  intro owner i hi
  obtain ⟨i', hi', hinput⟩ := (hs.of_sameTypes (.refl s) htypes').ownedInputs hi
  exact ⟨i', hi', hinput, hagree owner i i' hi hi'⟩

/-- **Defaults do not depend on the order of definitions**: where no input object reaches itself through its
fields, each argument and input field that a default is written for has what the literal comes to in the
finished schema, and all others have none. Documents that hold the same definitions in another order, or
distribute them in another way, build as well, with the same defaults up to handles. -/
theorem build_defaults_independent (hds : ∀ d ∈ ds, ∃ file text, SchemaDocument.load file text = .ok d)
    (h : build ds id = .ok s) (hrec : s.NoInputRecursion) :
    List.Forall₂ s.HoldsDefault (SchemaDocument.ownedInputs ds) s.ownedInputs ∧
    ∀ ds' id', (∀ d ∈ ds', ∃ file text, SchemaDocument.load file text = .ok d) →
      SchemaDocument.Rearranged ds ds' →
      ∃ s', build ds' id' = .ok s' ∧ s.CarriesDefaults s' ∧ s'.CarriesDefaults s := by
  refine ⟨build_holdsDefaults (SchemaDocument.loaded_isProper hds) h hrec, fun ds' id' hds' hsame => ?_⟩
  obtain ⟨s', h', hrec', hcarries⟩ := build_rearranged hds hds' h hrec hsame id'
  obtain ⟨s₁, h₁, -, hback⟩ := build_rearranged hds' hds h' hrec' hsame.symm id
  obtain rfl := Except.ok.inj (h.symm.trans h₁)
  exact ⟨s', h', hcarries, hback⟩

def outerText : String := "type Query \x7b f(a: [Outer!] = \x7binner: \x7b\x7d\x7d): Int \x7d"

def innerText : String := "input Outer \x7b inner: Inner \x7d input Inner \x7b n: Int = 3, all: [Int] \x7d"

theorem build_defaults_independent_of_two : ∃ d₁ d₂ s s', SchemaDocument.load none outerText = .ok d₁ ∧
    SchemaDocument.load (some "inner") innerText = .ok d₂ ∧ build [d₁, d₂] 0 = .ok s ∧
    s.NoInputRecursion ∧
    List.Forall₂ s.HoldsDefault (SchemaDocument.ownedInputs [d₁, d₂]) s.ownedInputs ∧
    build [d₂, d₁] 1 = .ok s' ∧ s.CarriesDefaults s' ∧ s'.CarriesDefaults s := by
  have hrun : (do
      let d₁ ← SchemaDocument.load none outerText
      let d₂ ← SchemaDocument.load (some "inner") innerText
      build [d₁, d₂] 0).toOption.any (fun s : Schema => decide (∀ a ∈ s.inputNames,
        ∀ b ∈ s.nestedInputs a, s.inputOrder.idxOf b < s.inputOrder.idxOf a)) = true := by
    decide +kernel
  obtain ⟨s, hrun, hfront⟩ := (Option.any_eq_true _ _).mp hrun
  obtain ⟨d₁, hd₁, hrun⟩ := bind_eq_ok.mp (toOption_eq_some.mp hrun)
  obtain ⟨d₂, hd₂, h⟩ := bind_eq_ok.mp hrun
  have hds : ∀ d ∈ [d₁, d₂], ∃ file text, SchemaDocument.load file text = .ok d :=
    List.forall_mem_cons.mpr ⟨⟨_, _, hd₁⟩, List.forall_mem_singleton.mpr ⟨_, _, hd₂⟩⟩
  have hrec : s.NoInputRecursion :=
    (noInputRecursion_iff (build_wellFormed hds h).types).mpr (of_decide_eq_true hfront)
  obtain ⟨hholds, hall⟩ := build_defaults_independent hds h hrec
  obtain ⟨s', h', hsame⟩ := hall [d₂, d₁] 1 (fun d hd => hds d ((List.Perm.swap d₁ d₂ []).mem_iff.mp hd)) (by
    simpa [SchemaDocument.Rearranged] using List.perm_append_comm)
  exact ⟨d₁, d₂, s, s', hd₁, hd₂, h, hrec, hholds, h', hsame⟩

end Schema

end GraphQL
