import GraphQL.Proofs.Parser.Document
import GraphQL.Proofs.Schema.Default

/-!
Which default values of a schema are well typed.

While defaults are applied, null stands for those that are not yet there, also where null is excluded.
A default that leaves out such a field takes the null up. So all defaults are well typed exactly if
each of them comes behind the defaults that it needs.
-/

namespace GraphQL

namespace Schema

variable {s s' s₀ : Schema} {v : Value} {t : TypeId} {ps : List PendingDefault}
  {done : List InputOwner}

/-! ### Applying defaults one after another -/

/-- The defaults are applied from the first to the last, and none of them is wrong. -/
inductive Applies : Schema → List PendingDefault → Schema → Prop where
  | nil (s : Schema) : Applies s [] s
  | cons {s s' : Schema} {p : PendingDefault} {ps : List PendingDefault} {v : Value}
      (coerced : s.coerceLiteral p.type p.literal none = .ok v)
      (rest : Applies (s.setDefault p.owner v) ps s') : Applies s (p :: ps) s'

/-- One more default is applied, behind the errors of those before. -/
def applyNext : Schema × List DefinitionError → PendingDefault → Schema × List DefinitionError :=
  fun (s, errors) p =>
    let (s, more) := s.applyDefault p
    (s, errors ++ more)

lemma applies_of_foldl_applyNext {es : List DefinitionError}
    (h : ps.foldl applyNext (s, es) = (s', [])) : es = [] ∧ Applies s ps s' := by
  induction ps generalizing s es with
  | nil =>
    cases h
    exact ⟨rfl, .nil _⟩
  | cons p ps ih =>
    obtain ⟨hes, happlies⟩ := ih h
    obtain ⟨rfl, hmore⟩ := List.append_eq_nil_iff.mp hes
    refine ⟨rfl, ?_⟩
    cases hc : s.coerceLiteral p.type p.literal none with
    | error errors => simp [hc] at hmore
    | ok v =>
      rw [hc] at happlies
      exact .cons hc happlies

lemma applies_of_applyDefaultsInOrder (h : s.applyDefaultsInOrder ps = (s', [])) :
    Applies s ps s' :=
  (applies_of_foldl_applyNext h).2

lemma Applies.keeps (h : Applies s ps s') {p : InputOwner × InputSpec} (hp : p ∈ s.ownedInputs)
    (hnot : p.1 ∉ ps.map (·.owner)) : p ∈ s'.ownedInputs := by
  induction h with
  | nil => exact hp
  | cons coerced rest ih =>
    rw [List.map_cons, List.mem_cons, not_or] at hnot
    refine ih ?_ hnot.2
    rw [ownedInputs_setDefault]
    exact List.mem_map.mpr ⟨p, hp, if_neg hnot.1⟩

lemma Applies.sameTypes (h : Applies s ps s') : SameTypes s s' := by
  induction h with
  | nil => exact .refl _
  | cons coerced rest ih => exact (sameTypes_setDefault _ _ _).trans ih

/-- Apart from the types, defaults leave a schema as it is. -/
lemma Applies.frame (h : Applies s ps s') :
    s'.directives = s.directives ∧ s'.metaFields = s.metaFields ∧ ∀ op, s'.root? op = s.root? op := by
  induction h with
  | nil => exact ⟨rfl, rfl, fun _ => rfl⟩
  | cons coerced rest ih => exact ⟨ih.1, ih.2.1, fun op => (ih.2.2 op).trans (by cases op <;> rfl)⟩

/-- Each default comes behind the defaults of the fields that it leaves out and that exclude null;
those of `done` come first. -/
def DefaultsInOrder (s : Schema) (done : List InputOwner) : List PendingDefault → Prop
  | [] => True
  | p :: ps =>
    (∀ n d, s.constant.LeavesOut p.literal p.type n d → d.type.isNonNull = true →
      .inputField n d.name ∈ done) ∧ s.DefaultsInOrder (p.owner :: done) ps

/-- A schema between two defaults: null stands for those that are not done. -/
structure Between (s₀ s : Schema) (done : List InputOwner) : Prop where
  registry : s.registry.WellFormed
  types : SameTypes s₀ s
  placeholder : ∀ p ∈ s.ownedInputs, p.1 ∉ done → ∀ v, p.2.default? = some v → v = .null p.2.type

/-- The defaults that are done are well typed. -/
def DoneWellTyped (s : Schema) (done : List InputOwner) : Prop :=
  ∀ p ∈ s.ownedInputs, p.1 ∈ done → ∀ v, p.2.default? = some v → WellTyped s p.2.type v

namespace Between

/-- The next default is well typed exactly if what it needs is done. -/
lemma wellTyped_iff (hb : Between s₀ s done) (hdone : s.DoneWellTyped done) {p : PendingDefault}
    (hp : p.literal.IsProper) (hv : s.coerceLiteral p.type p.literal none = .ok v) :
    WellTyped s p.type v ↔ ∀ n d, s₀.constant.LeavesOut p.literal p.type n d →
      d.type.isNonNull = true → .inputField n d.name ∈ done := by
  have hvalue := (Coerced.result_ok_iff.mp hv).1
  constructor
  · intro htyped n d hd hnonNull
    obtain ⟨d', hd', hname, htype⟩ := hb.types.leavesOut hd
    obtain ⟨hreq, hfallback⟩ :=
      CoercionContext.leavesOut_wellTyped (c := s.constant) hb.registry hd' hvalue htyped
    by_contra hnot
    rw [← hname] at hnot
    rw [← htype] at hnonNull
    cases hdefault : d'.default? with
    | none => simp [InputSpec.isRequired, hnonNull, hdefault] at hreq
    | some u =>
      obtain rfl := hb.placeholder _ hd'.owned hnot u hdefault
      rw [InputSpec.fallback, hdefault, Option.getD_some] at hfallback
      have := (wellTyped_null_iff.mp hfallback).2
      simp [hnonNull] at this
  · intro hneeds
    refine CoercionContext.coerce_wellTyped (c := s.constant) hb.registry hp false hvalue ?_ ?_
    · intro name l b _ q path u hu
      simp [CoercionContext.coerceVariable, constant, Coerced.error] at hu
    · intro n d hd hreq
      obtain ⟨d₀, hd₀, hname, htype⟩ := hb.types.symm.leavesOut hd
      refine InputSpec.fallback_holds .null (fun u hdefault => ?_) hreq
      by_cases hmem : InputOwner.inputField n d.name ∈ done
      · exact hdone _ hd.owned hmem u hdefault
      · obtain rfl := hb.placeholder _ hd.owned hmem u hdefault
        refine .null (Bool.eq_false_of_not_eq_true fun hnonNull => hmem ?_)
        rw [← hname]
        exact hneeds n d₀ hd₀ (htype ▸ hnonNull)

lemma setDefault (hb : Between s₀ s done) (owner : InputOwner) (v : Value) :
    Between s₀ (s.setDefault owner v) (owner :: done) := by
  refine ⟨hb.registry, hb.types.trans (sameTypes_setDefault s owner v), ?_⟩
  intro p hp hnot u hu
  rw [ownedInputs_setDefault] at hp
  obtain ⟨q, hq, rfl⟩ := List.mem_map.mp hp
  unfold withDefault at hnot hu ⊢
  split at hnot
  · rename_i heq
    simp [heq] at hnot
  · rename_i hne
    rw [if_neg hne] at hu ⊢
    exact hb.placeholder q hq (fun h => hnot (List.mem_cons_of_mem _ h)) u hu

end Between

/-- The type that an input is declared with. -/
lemma setDefault_doneWellTyped (hdone : s.DoneWellTyped done) {owner : InputOwner}
    (htype : ∀ p ∈ s.ownedInputs, p.1 = owner → p.2.type = t) (hv : WellTyped s t v) :
    (s.setDefault owner v).DoneWellTyped (owner :: done) := by
  have hsame := sameTypes_setDefault s owner v
  intro p hp hmem u hu
  rw [ownedInputs_setDefault] at hp
  obtain ⟨q, hq, rfl⟩ := List.mem_map.mp hp
  unfold withDefault at hmem hu ⊢
  by_cases heq : q.1 = owner
  · rw [if_pos heq] at hu ⊢
    obtain rfl := Option.some.inj hu
    rw [htype q hq heq]
    exact hsame.wellTyped hv
  · rw [if_neg heq] at hmem hu ⊢
    exact hsame.wellTyped (hdone q hq ((List.mem_cons.mp hmem).resolve_left heq) u hu)

/-- The owners of defaults, each with the type that it declares. -/
def ownedTypes (s : Schema) : List (InputOwner × TypeId) :=
  s.ownedInputs.map fun p => (p.1, p.2.type)

lemma ownedTypes_setDefault (s : Schema) (owner : InputOwner) (v : Value) :
    (s.setDefault owner v).ownedTypes = s.ownedTypes := by
  rw [ownedTypes, ownedInputs_setDefault, List.map_map]
  refine List.map_congr_left fun p _ => ?_
  by_cases h : p.1 = owner <;> simp [withDefault, h]

lemma ownedTypes_unique (hnodup : (s.ownedTypes.map (·.1)).Nodup) {p : PendingDefault}
    (hp : p.key ∈ s.ownedTypes) {q : InputOwner × InputSpec} (hq : q ∈ s.ownedInputs)
    (hown : q.1 = p.owner) : q.2.type = p.type := by
  have hmem : (q.1, q.2.type) ∈ s.ownedTypes := List.mem_map.mpr ⟨q, hq, rfl⟩
  have := List.inj_on_of_nodup_map hnodup hmem hp hown
  exact congrArg Prod.snd this

/-- An applied default stays as it is, so if it is well typed in the end then it is so already. -/
lemma Applies.head_wellTyped {p : PendingDefault} (rest : Applies (s.setDefault p.owner v) ps s')
    (hkey : p.key ∈ s.ownedTypes) (hlast : p.owner ∉ ps.map (·.owner))
    (hfinal : ∀ q ∈ s'.ownedInputs, ∀ v, q.2.default? = some v → WellTyped s' q.2.type v) :
    WellTyped s p.type v := by
  obtain ⟨q, hq, hqkey⟩ := List.mem_map.mp hkey
  obtain ⟨hown, htype⟩ := Prod.mk.inj hqkey
  have hset : withDefault p.owner v q ∈ (s.setDefault p.owner v).ownedInputs := by
    rw [ownedInputs_setDefault]
    exact List.mem_map.mpr ⟨q, hq, rfl⟩
  rw [withDefault, if_pos hown] at hset
  have htyped := hfinal _ (rest.keeps hset (by rw [hown]; exact hlast)) v rfl
  have hsame := (sameTypes_setDefault s p.owner v).trans rest.sameTypes
  exact htype ▸ hsame.symm.wellTyped htyped

/-- Every default is done or waits, also behind the next one. -/
lemma covered_setDefault {p : PendingDefault}
    (h : ∀ q ∈ s.ownedInputs, q.2.default?.isSome →
      q.1 ∈ done ∨ q.1 ∈ (p :: ps).map (·.owner)) :
    ∀ q ∈ (s.setDefault p.owner v).ownedInputs, q.2.default?.isSome →
      q.1 ∈ p.owner :: done ∨ q.1 ∈ ps.map (·.owner) := by
  intro q hq hsome
  rw [ownedInputs_setDefault] at hq
  obtain ⟨r, hr, rfl⟩ := List.mem_map.mp hq
  by_cases hown : r.1 = p.owner
  · simp [withDefault, hown]
  · rw [withDefault, if_neg hown] at hsome ⊢
    rcases h r hr hsome with hmem | hmem
    · exact Or.inl (List.mem_cons_of_mem _ hmem)
    · exact Or.inr ((List.mem_cons.mp hmem).resolve_left hown)

/-- All defaults come out well typed exactly if they are applied in order. -/
lemma Applies.wellTyped_iff (h : Applies s ps s') (hb : Between s₀ s done)
    (hdone : s.DoneWellTyped done) (hnodup : (s.ownedTypes.map (·.1)).Nodup)
    (hkeys : ∀ p ∈ ps, p.key ∈ s.ownedTypes) (howners : (ps.map (·.owner)).Nodup)
    (hproper : ∀ p ∈ ps, p.literal.IsProper)
    (hall : ∀ q ∈ s.ownedInputs, q.2.default?.isSome → q.1 ∈ done ∨ q.1 ∈ ps.map (·.owner)) :
    (∀ q ∈ s'.ownedInputs, ∀ v, q.2.default? = some v → WellTyped s' q.2.type v) ↔
      s₀.DefaultsInOrder done ps := by
  induction h generalizing done with
  | nil s =>
    refine ⟨fun _ => trivial, fun _ q hq v hv => hdone q hq ?_ v hv⟩
    simpa using hall q hq (by simp [hv])
  | @cons s s' p ps v coerced rest ih =>
    have hkey := hkeys p List.mem_cons_self
    rw [List.map_cons, List.nodup_cons] at howners
    have hhead := hb.wellTyped_iff hdone (hproper p List.mem_cons_self) coerced
    have htail (hv : WellTyped s p.type v) :=
      ih (hb.setDefault p.owner v)
        (setDefault_doneWellTyped hdone (fun q hq hown => ownedTypes_unique hnodup hkey hq hown) hv)
        (by rwa [ownedTypes_setDefault])
        (fun q hq => by rw [ownedTypes_setDefault]; exact hkeys q (List.mem_cons_of_mem p hq))
        howners.2 (fun q hq => hproper q (List.mem_cons_of_mem p hq)) (covered_setDefault hall)
    constructor
    · intro hfinal
      have hv := rest.head_wellTyped hkey howners.1 hfinal
      exact ⟨hhead.mp hv, (htail hv).mp hfinal⟩
    · rintro ⟨hneeds, horder⟩
      exact (htail (hhead.mpr hneeds)).mpr horder

/-! ### The defaults of a built schema -/

/-- The innermost name of a place that a default is for. -/
def inputName : InputOwner → String
  | .inputField _ fieldName => fieldName
  | .argument _ _ argumentName => argumentName

lemma ownedInputs_nodup {n : NamedType} (h : n.body.HasDistinctNames) :
    (n.ownedInputs.map (·.1)).Nodup := by
  obtain ⟨name, description, body⟩ := n
  cases body with
  | scalar b => simp [NamedType.ownedInputs, NamedTypeBody.ownedInputs]
  | enum values => simp [NamedType.ownedInputs, NamedTypeBody.ownedInputs]
  | inputObject fields =>
    have hnames : (fields.map (·.name)).Nodup := h
    simp only [NamedType.ownedInputs, NamedTypeBody.ownedInputs, List.map_map]
    exact List.Nodup.of_map inputName (by simpa [Function.comp_def, inputName] using hnames)
  | object fields =>
    obtain ⟨hfields, hargs⟩ := h
    simp only [NamedType.ownedInputs, NamedTypeBody.ownedInputs, List.map_flatMap,
      List.nodup_flatMap, FieldSpec.ownedInputs, List.map_map]
    constructor
    · intro f hf
      exact List.Nodup.of_map inputName (by simpa [Function.comp_def, inputName] using hargs f hf)
    · refine (List.pairwise_map.mp hfields).imp fun hne o ho ho' => ?_
      obtain ⟨a, -, rfl⟩ := List.mem_map.mp ho
      obtain ⟨b, -, heq⟩ := List.mem_map.mp ho'
      simp only [Function.comp_apply, InputOwner.argument.injEq] at heq
      exact hne heq.2.1.symm

lemma WellFormed.owners_nodup (h : s.WellFormed) : (s.ownedInputs.map (·.1)).Nodup := by
  rw [ownedInputs, List.map_flatMap, List.nodup_flatMap]
  refine ⟨fun n hn => ownedInputs_nodup (h.members n hn), ?_⟩
  refine (List.pairwise_map.mp h.types).imp fun hne o ho ho' => ?_
  obtain ⟨p, hp, rfl⟩ := List.mem_map.mp ho
  obtain ⟨q, hq, heq⟩ := List.mem_map.mp ho'
  exact hne ((ownedInputs_owner hp).symm.trans (heq ▸ ownedInputs_owner hq))

lemma orderDefaults_perm (s : Schema) (ps : List PendingDefault) : (s.orderDefaults ps).Perm ps := by
  unfold orderDefaults
  dsimp only
  rw [List.partition_eq_filter_filter]
  exact ((List.mergeSort_perm _ _).append_right _).trans (List.filter_append_perm _ ps)

/-- All arguments and input fields of a schema. -/
def inputs (s : Schema) : List InputSpec :=
  s.ownedInputs.map (·.2) ++ s.directives.flatMap (·.arguments)
    ++ s.metaFields.all.flatMap (·.arguments)

lemma mem_inputs_of_owned {q : InputOwner × InputSpec} (hq : q ∈ s.ownedInputs) : q.2 ∈ s.inputs :=
  List.mem_append_left _ (List.mem_append_left _ (List.mem_map_of_mem hq))

/-- All defaults of a schema are what their types say. -/
def DefaultsWellTyped (s : Schema) : Prop :=
  ∀ i ∈ s.inputs, ∀ v, i.default? = some v → WellTyped s i.type v

/-- The only default of a builtin directive is a string. -/
lemma HasBuiltins.default_string {r : TypeRegistry} (h : s.HasBuiltins r)
    {i : InputSpec}
    (hi : i ∈ s.directives.flatMap (·.arguments) ++ s.metaFields.all.flatMap (·.arguments))
    (hv : i.default? = some v) : (∃ text, v = .scalar i.type text) ∧ s.element? i.type = none ∧
      s.named? i.type = some BuiltinScalar.string.namedType := by
  rw [h.directives, h.metaFields] at hi
  obtain ⟨string, hstring⟩ := Option.isSome_iff_exists.mp h.string
  have hhandle : Builtin.handle r "String" = string := by
    simp only [Builtin.handle, TypeRegistry.named, TypeRegistry.intern]
    rw [show r.find? (.named "String") = some string from hstring]
  obtain ⟨hhas, -, hshape⟩ := TypeRegistry.find?_spec hstring
  have hshape' : s.registry.shape? string = some (.named "String") :=
    (h.registry.shape? hhas).trans hshape
  have hsingle : s.registry.element? string = none := by
    simp [TypeRegistry.element?, hshape']
  have hnamed : s.named? string = some BuiltinScalar.string.namedType := by
    unfold named?
    rw [TypeRegistry.innermost_single hsingle, TypeRegistry.shape?_nullable, hshape']
    exact h.stringType
  simp [Builtin.directives, Builtin.conditional, Builtin.metaFields, MetaFields.all] at hi
  rcases hi with rfl | rfl | rfl
  · simp at hv
  · rw [hhandle] at hv ⊢
    exact ⟨⟨_, (Option.some.inj hv).symm⟩, hsingle, hnamed⟩
  · simp at hv

lemma HasBuiltins.wellTyped {r : TypeRegistry} (h : s.HasBuiltins r) {i : InputSpec}
    (hi : i ∈ s.directives.flatMap (·.arguments) ++ s.metaFields.all.flatMap (·.arguments))
    (hv : i.default? = some v) : WellTyped s i.type v := by
  obtain ⟨⟨text, rfl⟩, hsingle, hnamed⟩ := h.default_string hi hv
  exact .scalar hsingle ⟨_, hnamed, trivial⟩

/-- A built schema is a resolved one with all defaults applied. -/
lemma build_applies {ds : List SchemaDocument} {id : Nat} (h : build ds id = .ok s) :
    ∃ s₀ st, resolve ds id = .ok (s₀, st) ∧ st.errors = [] ∧
      Applies s₀ (s₀.orderDefaults st.pending.reverse) s := by
  obtain ⟨⟨s₀, st⟩, hr, h⟩ := bind_eq_ok.mp h
  dsimp only at h
  generalize happlied : s₀.applyDefaults st.pending.reverse = applied at h
  obtain ⟨s', errors⟩ := applied
  dsimp only at h
  split at h
  · rename_i hempty
    obtain rfl := Except.ok.inj h
    simp only [List.isEmpty_iff, List.append_eq_nil_iff, List.reverse_eq_nil_iff] at hempty
    obtain ⟨⟨hst, rfl⟩, -⟩ := hempty
    exact ⟨s₀, st, hr, hst, applies_of_applyDefaultsInOrder happlied⟩
  · simp [throw, throwThe, MonadExceptOf.throw] at h

lemma bare_hasDistinctNames (n : NamedType) :
    n.bare.body.HasDistinctNames ↔ n.body.HasDistinctNames := by
  obtain ⟨name, description, body⟩ := n
  cases body with
  | scalar b => exact Iff.rfl
  | enum values => exact Iff.rfl
  | inputObject fields =>
    simp [NamedType.bare, NamedTypeBody.HasDistinctNames, Function.comp_def]
  | object fields =>
    simp [NamedType.bare, NamedTypeBody.HasDistinctNames, Function.comp_def, FieldSpec.bare]

lemma Applies.wellFormed (h : Applies s ps s') (hs : s.WellFormed) : s'.WellFormed := by
  have htypes := h.sameTypes
  obtain ⟨hdirectives, hmeta, hroot⟩ := h.frame
  have hnames : s'.types.map (·.name) = s.types.map (·.name) := by
    have := congrArg (List.map NamedType.name) htypes.types
    simpa [List.map_map, Function.comp_def] using this
  refine ⟨htypes.registry ▸ hs.registry, hnames ▸ hs.types, ?_, hdirectives ▸ hs.directives,
    hmeta ▸ hs.metaFields, fun op t ht => hs.roots op t (hroot op ▸ ht)⟩
  intro n' hn'
  have hmem : n'.bare ∈ s.types.map (·.bare) := htypes.types ▸ List.mem_map.mpr ⟨n', hn', rfl⟩
  obtain ⟨n, hn, heq⟩ := List.mem_map.mp hmem
  rw [← bare_hasDistinctNames, ← heq, bare_hasDistinctNames]
  exact hs.members n hn

/-- What waits, in the order in which it is applied. -/
lemma Resolved.ordered {st : ResolutionState} (h : s₀.Resolved st) :
    ((s₀.orderDefaults st.pending.reverse).map PendingDefault.key).Perm (defaulted s₀.ownedInputs) :=
  h.pending ▸ (s₀.orderDefaults_perm st.pending.reverse).map _

lemma Resolved.mem_ordered {st : ResolutionState} {p : PendingDefault} :
    p ∈ s₀.orderDefaults st.pending.reverse ↔ p ∈ st.pending := by
  rw [(s₀.orderDefaults_perm st.pending.reverse).mem_iff, List.mem_reverse]

lemma Resolved.ordered_keys {st : ResolutionState} (h : s₀.Resolved st) :
    ∀ p ∈ s₀.orderDefaults st.pending.reverse, p.key ∈ s₀.ownedTypes := by
  intro p hp
  have hmem := h.ordered.mem_iff.mp (List.mem_map.mpr ⟨p, hp, rfl⟩)
  obtain ⟨q, hq, heq⟩ := List.mem_map.mp hmem
  exact List.mem_map.mpr ⟨q, (List.mem_filter.mp hq).1, heq⟩

lemma Resolved.ordered_owners {st : ResolutionState} (h : s₀.Resolved st) :
    ((s₀.orderDefaults st.pending.reverse).map (·.owner)).Nodup := by
  have howners := h.ordered.map Prod.fst
  simp only [defaulted, List.map_map, Function.comp_def, PendingDefault.key] at howners
  refine howners.nodup_iff.mpr ?_
  exact h.wellFormed.owners_nodup.sublist (List.filter_sublist.map _)

lemma Resolved.owner_ordered {st : ResolutionState} (h : s₀.Resolved st) {q : InputOwner × InputSpec}
    (hq : q ∈ s₀.ownedInputs) (hsome : q.2.default?.isSome) :
    q.1 ∈ (s₀.orderDefaults st.pending.reverse).map (·.owner) := by
  have hkey : (q.1, q.2.type) ∈ defaulted s₀.ownedInputs :=
    List.mem_map.mpr ⟨q, List.mem_filter.mpr ⟨hq, hsome⟩, rfl⟩
  obtain ⟨p, hp, heq⟩ := List.mem_map.mp (h.ordered.mem_iff.mpr hkey)
  exact List.mem_map.mpr ⟨p, hp, congrArg Prod.fst heq⟩

lemma build_wellTyped_iff_of_proper {ds : List SchemaDocument} {id : Nat} {st : ResolutionState}
    (hd : ∀ d ∈ ds, d.IsProper) (hr : resolve ds id = .ok (s₀, st)) (h : build ds id = .ok s) :
    s.DefaultsWellTyped ↔ s₀.DefaultsInOrder [] (s₀.orderDefaults st.pending.reverse) := by
  obtain ⟨s₁, st₁, hr₁, hst, happlies⟩ := build_applies h
  obtain ⟨rfl, rfl⟩ := Prod.mk.inj (Except.ok.inj (hr.symm.trans hr₁))
  have hres := resolve_resolved hd hr hst
  have hb : Between s₀ s₀ [] :=
    ⟨hres.wellFormed.registry, .refl s₀, fun p hp _ => hres.placeholder p hp⟩
  have hiff := happlies.wellTyped_iff hb (by simp [DoneWellTyped])
    ?nodup hres.ordered_keys hres.ordered_owners ?proper ?all
  · rw [← hiff]
    obtain ⟨hdirectives, hmeta, -⟩ := happlies.frame
    obtain ⟨r, hbuiltins⟩ := hres.builtins
    constructor
    · exact fun hall q hq v hv => hall q.2 (mem_inputs_of_owned hq) v hv
    · intro howned i hi v hv
      rw [inputs, List.append_assoc, List.mem_append] at hi
      rcases hi with hi | hi
      · obtain ⟨q, hq, rfl⟩ := List.mem_map.mp hi
        exact howned q hq v hv
      · rw [hdirectives, hmeta] at hi
        exact happlies.sameTypes.wellTyped (hbuiltins.wellTyped hi hv)
  case nodup =>
    have := hres.wellFormed.owners_nodup
    simpa [ownedTypes, Function.comp_def] using this
  case proper => exact fun p hp => hres.proper p (Resolved.mem_ordered.mp hp)
  case all => exact fun q hq hsome => Or.inr (hres.owner_ordered hq hsome)

/-- Neither a list nor an object, so that nothing can be left out. -/
def isFlat : Literal → Bool
  | .list .. | .object .. => false
  | _ => true

lemma defaultsInOrder_of_flat {ps : List PendingDefault} (h : ∀ p ∈ ps, isFlat p.literal = true)
    (done : List InputOwner) : s.DefaultsInOrder done ps := by
  induction ps generalizing done with
  | nil => trivial
  | cons p ps ih =>
    obtain ⟨hp, hps⟩ := List.forall_mem_cons.mp h
    refine ⟨fun n d hleaves => ?_, ih hps _⟩
    generalize p.literal = v at hp hleaves
    cases hleaves <;> simp [isFlat] at hp

/-- Defaults that are neither lists nor objects are well typed in any order. -/
lemma build_wellTyped_of_flat {ds : List SchemaDocument} {id : Nat} {st : ResolutionState}
    (hd : ∀ d ∈ ds, d.IsProper) (hr : resolve ds id = .ok (s₀, st)) (h : build ds id = .ok s)
    (hflat : ∀ p ∈ st.pending, isFlat p.literal = true) : s.DefaultsWellTyped := by
  refine (build_wellTyped_iff_of_proper hd hr h).mpr (defaultsInOrder_of_flat (fun p hp => ?_) [])
  exact hflat p (Resolved.mem_ordered.mp hp)

end Schema

namespace SchemaDocument

/-- The default values of a loaded document come from its text. -/
lemma load_isProper {file : Option String} {text : String} {d : SchemaDocument}
    (h : load file text = .ok d) : d.IsProper := by
  obtain ⟨document, hresult, rfl⟩ := load_eq_ok h
  obtain ⟨-, -, hproper⟩ := Document.parse_spec hresult
  intro t ht
  obtain ⟨e, he, het⟩ := List.mem_filterMap.mp ht
  cases e with
  | type d =>
    cases het
    exact hproper _ he
  | operation d => simp [Definition.type?] at het
  | fragment d => simp [Definition.type?] at het

lemma loaded_isProper {ds : List SchemaDocument}
    (hds : ∀ d ∈ ds, ∃ file text, load file text = .ok d) : ∀ d ∈ ds, d.IsProper := by
  intro d hd
  obtain ⟨file, text, hload⟩ := hds d hd
  exact load_isProper hload

lemma loaded_isUser {ds : List SchemaDocument}
    (hds : ∀ d ∈ ds, ∃ file text, load file text = .ok d) : ∀ d ∈ ds, d.isBuiltin = false := by
  intro d hd
  obtain ⟨file, text, hload⟩ := hds d hd
  obtain ⟨document, -, rfl⟩ := load_eq_ok hload
  rfl

end SchemaDocument

namespace Schema

variable {s s₀ : Schema}

/-- **Defaults come out well typed exactly if they are in order**: in the schema of any documents,
every default is what its type says, at every depth, if and only if each default is applied behind
the defaults of all fields that it leaves out and that exclude null. -/
theorem build_wellTyped_iff {ds : List SchemaDocument} {id : Nat} {st : ResolutionState}
    (hd : ∀ d ∈ ds, ∃ file text, SchemaDocument.load file text = .ok d)
    (hr : resolve ds id = .ok (s₀, st)) (h : build ds id = .ok s) :
    s.DefaultsWellTyped ↔ s₀.DefaultsInOrder [] (s₀.orderDefaults st.pending.reverse) := by
  refine build_wellTyped_iff_of_proper (fun d hmem => ?_) hr h
  obtain ⟨file, text, hload⟩ := hd d hmem
  exact SchemaDocument.load_isProper hload

theorem build_wellTyped_iff_of_ordered : ∃ d s₀ st s,
    SchemaDocument.load none
      ("input A \x7b x: Int! = 5, y: [A!] \x7d "
        ++ "type Query \x7b f(a: A = \x7by: [\x7b\x7d]\x7d): Int \x7d") = .ok d ∧
    resolve [d] 0 = .ok (s₀, st) ∧ build [d] 0 = .ok s ∧
    (s.DefaultsWellTyped ↔ s₀.DefaultsInOrder [] (s₀.orderDefaults st.pending.reverse)) := by
  have hall : (do
      let d ← SchemaDocument.load none
        ("input A \x7b x: Int! = 5, y: [A!] \x7d "
          ++ "type Query \x7b f(a: A = \x7by: [\x7b\x7d]\x7d): Int \x7d")
      let _ ← resolve [d] 0
      build [d] 0).toOption.isSome = true := by
    decide +kernel
  obtain ⟨s, hrun⟩ := exists_ok hall
  obtain ⟨d, hd, hrun⟩ := bind_eq_ok.mp hrun
  obtain ⟨⟨s₀, st⟩, hr, h⟩ := bind_eq_ok.mp hrun
  refine ⟨d, s₀, st, s, hd, hr, h, build_wellTyped_iff ?_ hr h⟩
  intro e he
  rw [List.mem_singleton] at he
  exact ⟨none, _, he ▸ hd⟩

/-- A default that leaves out the field that it belongs to takes up null for it. -/
theorem build_selfReference : ∃ s,
    ofText "input A \x7b n: [A!]! = [\x7b\x7d] \x7d type Query \x7b f(a: A): Int \x7d" 0 = .ok s ∧
      ¬ s.DefaultsWellTyped := by
  have hbroken :
      (match ofText
        "input A \x7b n: [A!]! = [\x7b\x7d] \x7d type Query \x7b f(a: A): Int \x7d" 0 with
       | .ok s => s.inputs.all fun i => i.default?.all (·.nullsFit)
       | .error _ => true) = false := by
    decide +kernel
  split at hbroken
  · rename_i s hs
    refine ⟨s, hs, fun hall => ?_⟩
    obtain ⟨i, hi, hdefault⟩ := List.all_eq_false.mp hbroken
    cases hv : i.default? with
    | none => simp [hv] at hdefault
    | some v => simp [hv, (hall i hi v hv).nullsFit] at hdefault
  · simp at hbroken

end Schema

end GraphQL
