import GraphQL.Proofs.Coercion.Counterpart
import GraphQL.Proofs.Schema.SameWritten

/-!
Defaults as they are in the end.

While defaults are applied, the fields that a literal leaves out have their own defaults already. So what
is stored for it is what it comes to in the finished schema.
-/

namespace GraphQL

open TypeRegistry (SameType)

namespace Schema

variable {s s' s₀ : Schema} {owner : InputOwner} {i i' : InputSpec} {v : Value} {p : PendingDefault}
  {ps : List PendingDefault}

/-! ### Applying defaults -/

lemma owned_unique (hs : (s.ownedInputs.map (·.1)).Nodup) (hi : (owner, i) ∈ s.ownedInputs)
    (hi' : (owner, i') ∈ s.ownedInputs) : i = i' :=
  congrArg Prod.snd (List.inj_on_of_nodup_map hs hi hi' rfl)

lemma owners_setDefault (s : Schema) (owner : InputOwner) (v : Value) :
    (s.setDefault owner v).ownedInputs.map (·.1) = s.ownedInputs.map (·.1) := by
  rw [ownedInputs_setDefault, List.map_map]
  refine List.map_congr_left fun p _ => ?_
  by_cases h : p.1 = owner <;> simp [withDefault, h]

lemma mem_setDefault_self (hi : (owner, i) ∈ s.ownedInputs) :
    (owner, { i with default? := some v }) ∈ (s.setDefault owner v).ownedInputs := by
  rw [ownedInputs_setDefault]
  exact List.mem_map.mpr ⟨_, hi, if_pos rfl⟩

lemma mem_setDefault_of_ne {o : InputOwner} (hne : o ≠ owner) :
    (o, i) ∈ (s.setDefault owner v).ownedInputs ↔ (o, i) ∈ s.ownedInputs := by
  rw [ownedInputs_setDefault, List.mem_map]
  constructor
  · rintro ⟨⟨o', j⟩, hj, heq⟩
    by_cases ho : o' = owner
    · rw [withDefault, if_pos ho] at heq
      exact absurd ((congrArg Prod.fst heq).symm.trans ho) hne
    · rw [withDefault, if_neg ho] at heq
      exact heq ▸ hj
  · exact fun h => ⟨_, h, if_neg hne⟩

/-- A default that is set agrees with one of the same value. -/
lemma agreeOn_setDefault (hs : (s.ownedInputs.map (·.1)).Nodup) (hs' : (s'.ownedInputs.map (·.1)).Nodup)
    (hi : (owner, i) ∈ s.ownedInputs) (hi' : (owner, i') ∈ s'.ownedInputs)
    (hv : Option.Rel (SameValue s.registry s'.registry) i.default? (some v)) :
    s.AgreeOn (s'.setDefault owner v) owner := by
  intro j j' hj hj'
  obtain rfl := owned_unique hs hi hj
  obtain rfl := owned_unique (owners_setDefault s' owner v ▸ hs') (mem_setDefault_self hi') hj'
  exact hv

/-- A schema whose handles stand for types, also those in its defaults. -/
structure Steady (s : Schema) : Prop where
  counterparts : s.HasCounterparts s
  owners : (s.ownedInputs.map (·.1)).Nodup
  agree : ∀ owner, s.AgreeOn s owner

namespace Steady

lemma sameType (hs : s.Steady) (hi : (owner, i) ∈ s.ownedInputs) :
    SameType s.registry s.registry i.type i.type := by
  obtain ⟨i', hi', hsame⟩ := hs.counterparts.ownedInputs hi
  obtain rfl := owned_unique hs.owners hi hi'
  exact hsame.type

/-- What a literal comes to has handles that stand for types. -/
lemma sameValue (hs : s.Steady) (hi : (owner, i) ∈ s.ownedInputs) {l : Literal}
    (hv : s.coerceLiteral i.type l none = .ok v) : SameValue s.registry s.registry v v := by
  obtain ⟨v', hv', hsame⟩ := CoercionContext.coerce_carries hs.counterparts []
    (hs.sameType hi) (fun _ _ _ => hs.agree _) v hv
  obtain rfl := Except.ok.inj (hv.symm.trans hv')
  exact hsame

lemma setDefault (hs : s.Steady) (hi : (owner, i) ∈ s.ownedInputs)
    (hv : SameValue s.registry s.registry v v) : (s.setDefault owner v).Steady := by
  have htypes := sameTypes_setDefault s owner v
  have howners : ((s.setDefault owner v).ownedInputs.map (·.1)).Nodup :=
    owners_setDefault s owner v ▸ hs.owners
  refine ⟨hs.counterparts.of_sameTypes htypes htypes, howners, fun o => ?_⟩
  by_cases ho : o = owner
  · subst ho
    exact agreeOn_setDefault howners hs.owners (mem_setDefault_self hi) hi (.some hv)
  · intro j j' hj hj'
    exact hs.agree o j j' ((mem_setDefault_of_ne ho).mp hj) ((mem_setDefault_of_ne ho).mp hj')

end Steady

lemma Applies.owners (h : Applies s ps s') :
    s'.ownedInputs.map (·.1) = s.ownedInputs.map (·.1) := by
  induction h with
  | nil => rfl
  | cons _ _ ih => rw [ih, owners_setDefault]

/-- What is not applied any more agrees with what it is in the end. -/
lemma Applies.agreeOn (h : Applies s ps s') (hs : s.Steady) (hnot : owner ∉ ps.map (·.owner)) :
    s.AgreeOn s' owner := by
  intro i i' hi hi'
  obtain rfl := owned_unique (h.owners ▸ hs.owners) (h.keeps hi hnot) hi'
  rw [h.sameTypes.registry]
  exact hs.agree owner i i hi hi

/-- A field that a default leaves out is not behind it. -/
lemma not_mem_of_needsFirst (htypes : SameTypes s₀ s) (hneeds : s₀.NeedsFirst (p :: ps)) {n : String}
    {d : InputSpec} (hd : s.constant.LeavesOut p.literal p.type n d) :
    InputOwner.inputField n d.name ∉ (p :: ps).map (·.owner) := by
  obtain ⟨d₀, hd₀, hname, -⟩ := htypes.symm.leavesOut hd
  rw [← hname]
  intro hmem
  obtain ⟨q, hq, howner⟩ := List.mem_map.mp hmem
  exact hneeds.1 q hq ⟨n, d₀, hd₀, howner⟩

/-- **Defaults are final**: where each default comes behind those that it needs, all of them are what
their literals come to in the schema that is left behind. -/
lemma Applies.final (h : Applies s ps s') (hs : s.Steady) (htypes : SameTypes s₀ s)
    (hkeys : ∀ p ∈ ps, p.key ∈ s.ownedTypes) (howners : (ps.map (·.owner)).Nodup)
    (hneeds : s₀.NeedsFirst ps) : ∀ p ∈ ps, ∃ i v, (p.owner, i) ∈ s'.ownedInputs ∧ i.type = p.type ∧
      i.default? = some v ∧ s'.coerceLiteral p.type p.literal none = .ok v := by
  induction h with
  | nil => simp
  | @cons s s' p ps v coerced rest ih =>
    have hall : Applies s (p :: ps) s' := .cons coerced rest
    obtain ⟨hkey, hkeys⟩ := List.forall_mem_cons.mp hkeys
    rw [List.map_cons, List.nodup_cons] at howners
    obtain ⟨⟨owner, i⟩, hi, heq⟩ := List.mem_map.mp hkey
    obtain ⟨rfl, htype⟩ := Prod.mk.inj heq
    have htype : i.type = p.type := htype
    have hvalue : SameValue s.registry s.registry v v := hs.sameValue hi (htype ▸ coerced)
    have hkept := rest.keeps (mem_setDefault_self hi) howners.1
    refine List.forall_mem_cons.mpr ⟨⟨_, v, hkept, htype, rfl, ?_⟩, ?_⟩
    · -- What the literal leaves out has its default already, so that it comes to the same in the end.
      obtain ⟨v', hv', hsame⟩ := CoercionContext.coerce_carries
        (hs.counterparts.of_sameTypes (.refl s) hall.sameTypes) [] (hall.sameTypes.registry ▸ hs.sameType hi)
        (fun n d hd => hall.agreeOn hs
          (not_mem_of_needsFirst (htypes.trans hall.sameTypes) hneeds (htype ▸ hd))) v (htype ▸ coerced)
      rw [hall.sameTypes.registry] at hsame
      rw [hsame.eq hs.counterparts.registry, ← htype]
      exact hv'
    · refine ih (hs.setDefault hi hvalue) (htypes.trans (sameTypes_setDefault _ _ _)) ?_ howners.2 hneeds.2
      rwa [ownedTypes_setDefault]

/-! ### Built schemas -/

variable {st : ResolutionState} {ds : List SchemaDocument} {id : ℕ}

lemma resolve_steady (hd : ∀ d ∈ ds, d.IsProper) (hr : resolve ds id = .ok (s, st)) (hst : st.errors = []) :
    s.Steady := by
  have hres := resolve_resolved hd hr hst
  have hcounterparts := resolve_hasCounterparts hd hr hst hd hr hst fun t ht => ⟨t, ht, rfl⟩
  refine ⟨hcounterparts, hres.wellFormed.owners_nodup, fun owner i i' hi hi' => ?_⟩
  obtain ⟨j, hj, hsame⟩ := hcounterparts.ownedInputs hi
  obtain rfl := owned_unique hres.wellFormed.owners_nodup hi hi'
  obtain rfl := owned_unique hres.wellFormed.owners_nodup hi hj
  cases hdefault : i.default? with
  | none => exact .none
  | some v =>
    rw [hres.placeholder _ hi v hdefault]
    exact .some (.null hsame.type)

lemma ownedInputs_outline (n : NamedType) :
    n.outline.ownedInputs = n.ownedInputs.map fun q => (q.1, q.2.outline) := by
  obtain ⟨name, description, body⟩ := n
  cases body with
  | scalar builtin => rfl
  | enum values => rfl
  | inputObject fields =>
    simp [NamedType.ownedInputs, NamedTypeBody.ownedInputs, NamedType.outline, InputSpec.outline,
      Function.comp_def]
  | object fields =>
    simp [NamedType.ownedInputs, NamedTypeBody.ownedInputs, NamedType.outline, FieldSpec.ownedInputs,
      FieldSpec.outline, InputSpec.outline, Function.comp_def, List.flatMap_map, List.map_flatMap]

/-- An argument or input field has the type that is written, and a default if one is written: what the
literal comes to in the schema. -/
structure HoldsDefault (s : Schema) (p : InputOwner × InputDefinition) (q : InputOwner × InputSpec) :
    Prop where
  owner : q.1 = p.1
  type : s.registry.ofRef? p.2.type = some q.2.type
  default : q.2.default?.map Except.ok = p.2.default?.map fun l => s.coerceLiteral q.2.type l none

lemma build_holdsDefaults (hd : ∀ d ∈ ds, d.IsProper) (h : build ds id = .ok s)
    (hrec : s.NoInputRecursion) :
    List.Forall₂ s.HoldsDefault (SchemaDocument.ownedInputs ds) s.ownedInputs := by
  obtain ⟨s₀, st, hr, hst, happlies⟩ := build_applies h
  have hres := resolve_resolved hd hr hst
  have hsteady := resolve_steady hd hr hst
  have htypes := happlies.sameTypes
  have hrec₀ : s₀.NoInputRecursion :=
    (hsteady.counterparts.of_sameTypes (.refl s₀) htypes).noInputRecursion hrec
  have hfinal := happlies.final hsteady (.refl s₀) hres.ordered_keys hres.ordered_owners
    (orderDefaults_needsFirst hres.wellFormed hrec₀ fun p hp =>
      hres.ordered_keys p ((s₀.orderDefaults_perm _).mem_iff.mpr hp))
  have houtline : s₀.ownedInputs = s.ownedInputs.map fun q => (q.1, q.2.outline) := by
    rw [ownedInputs, ← build_outline hd hr h, List.flatMap_map, ownedInputs, List.map_flatMap]
    exact List.flatMap_congr fun n _ => ownedInputs_outline n
  have howners : (s.ownedInputs.map (·.1)).Nodup := happlies.owners ▸ hsteady.owners
  have hinputs := resolve_inputs hd hr hst
  rw [houtline, List.forall₂_map_right_iff] at hinputs
  obtain ⟨hlength, hzip⟩ := List.forall₂_iff_zip.mp hinputs
  refine List.forall₂_iff_zip.mpr ⟨hlength, fun {p q} hpair => ?_⟩
  obtain ⟨howner, ctx, hin⟩ := hzip hpair
  refine ⟨howner, htypes.registry ▸ hin.type, ?_⟩
  cases hl : p.2.default? with
  | none =>
    have hnone : q.2.default?.map (fun _ => Value.null q.2.type) = none := by
      simpa [InputSpec.outline, hl] using hin.default
    rw [Option.map_eq_none_iff.mp hnone]
    rfl
  | some l =>
    obtain ⟨w, hw, hwaits, rfl⟩ := hin.waits l hl
    obtain ⟨i, v, hi, htype, hdefault, hcoerced⟩ := hfinal w (Resolved.mem_ordered.mpr hw)
    rw [hwaits, ← howner] at hi
    have hq : (q.1, q.2) ∈ s.ownedInputs := (List.of_mem_zip hpair).2
    obtain rfl := owned_unique howners hi hq
    rw [hdefault, Option.map_some, Option.map_some, htype, hcoerced]

end Schema

end GraphQL
