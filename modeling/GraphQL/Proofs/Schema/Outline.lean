import GraphQL.Proofs.Schema.DefaultOrder

/-!
Types up to the values of their defaults.

Only inputs that were given a default get a value for it. So the types of a built schema have the same
outline as those that documents resolve to, in which null stands for every default.
-/

namespace GraphQL

/-- An input with null for its default, if it has one. -/
def InputSpec.outline (i : InputSpec) : InputSpec :=
  { i with default? := i.default?.map fun _ => .null i.type }

def FieldSpec.outline (f : FieldSpec) : FieldSpec := { f with arguments := f.arguments.map (·.outline) }

/-- A type with null for all defaults of its members. -/
def NamedType.outline (t : NamedType) : NamedType :=
  { t with
    body := match t.body with
      | .object fields => .object (fields.map (·.outline))
      | .inputObject fields => .inputObject (fields.map (·.outline))
      | b => b }

namespace Schema

variable {s s' s₀ : Schema} {owner : InputOwner} {v : Value} {ps : List PendingDefault}

lemma outline_setInputDefault {name : String} {inputs : List InputSpec}
    (h : ∀ i ∈ inputs, i.name = name → i.default?.isSome) :
    (setInputDefault name v inputs).map (·.outline) = inputs.map (·.outline) := by
  unfold setInputDefault
  rw [List.map_map]
  refine List.map_congr_left fun i hi => ?_
  by_cases hname : i.name = name
  · obtain ⟨u, hu⟩ := Option.isSome_iff_exists.mp (h i hi hname)
    simp [InputSpec.outline, hname, hu]
  · simp [hname]

lemma outline_setBodyDefault {n : NamedType} (hn : n.name = ownerType owner)
    (h : ∀ p ∈ n.ownedInputs, p.1 = owner → p.2.default?.isSome) :
    NamedType.outline { n with body := setBodyDefault owner v n.body } = n.outline := by
  obtain ⟨typeName, description, body⟩ := n
  obtain rfl : typeName = ownerType owner := hn
  cases owner with
  | inputField t fieldName =>
    cases body with
    | inputObject fields =>
      simp only [NamedType.outline, setBodyDefault]
      rw [outline_setInputDefault fun i hi hname => h (_, i) (List.mem_map.mpr ⟨i, hi, rfl⟩) (by rw [hname]; rfl)]
    | object fields => rfl
    | scalar builtin => rfl
    | enum values => rfl
  | argument t fieldName argumentName =>
    cases body with
    | object fields =>
      simp only [NamedType.outline, setBodyDefault, setArgumentDefault, List.map_map]
      congr 2
      refine List.map_congr_left fun f hf => ?_
      by_cases hfield : f.name = fieldName
      · simp only [Function.comp_apply, hfield, beq_self_eq_true, if_true, FieldSpec.outline]
        rw [outline_setInputDefault fun i hi hname => h (_, i)
          (List.mem_flatMap.mpr ⟨f, hf, List.mem_map.mpr ⟨i, hi, rfl⟩⟩) (by rw [hname, hfield]; rfl)]
      · simp [hfield]
    | inputObject fields => rfl
    | scalar builtin => rfl
    | enum values => rfl

lemma outline_setDefault (h : ∀ p ∈ s.ownedInputs, p.1 = owner → p.2.default?.isSome) :
    (s.setDefault owner v).types.map (·.outline) = s.types.map (·.outline) := by
  rw [setDefault_types, List.map_map]
  refine List.map_congr_left fun n hn => ?_
  by_cases hname : n.name = ownerType owner
  · rw [Function.comp_apply, if_pos (beq_iff_eq.mpr hname)]
    exact outline_setBodyDefault hname fun p hp => h p (List.mem_flatMap.mpr ⟨n, hn, hp⟩)
  · rw [Function.comp_apply, if_neg (by simpa using hname)]

/-- Applying defaults leaves the outline of the types as it is. -/
lemma Applies.outline (h : Applies s ps s')
    (hps : ∀ p ∈ ps, ∀ q ∈ s.ownedInputs, q.1 = p.owner → q.2.default?.isSome) :
    s'.types.map (·.outline) = s.types.map (·.outline) := by
  induction h with
  | nil => rfl
  | @cons s s' p ps v _ _ ih =>
    rw [← outline_setDefault (v := v) (hps p List.mem_cons_self)]
    refine ih fun p' hp' q hq hown => ?_
    rw [ownedInputs_setDefault] at hq
    obtain ⟨q, hmem, rfl⟩ := List.mem_map.mp hq
    by_cases hp : q.1 = p.owner
    · rw [withDefault, if_pos hp]
      rfl
    · rw [withDefault, if_neg hp] at hown ⊢
      exact hps p' (List.mem_cons_of_mem p hp') q hmem hown

/-- Where null stands for all defaults, there is nothing to blank out. -/
lemma outline_eq_self {n : NamedType}
    (h : ∀ p ∈ n.ownedInputs, ∀ v, p.2.default? = some v → v = .null p.2.type) : n.outline = n := by
  have hinputs {inputs : List InputSpec} (hi : ∀ i ∈ inputs, ∀ v, i.default? = some v → v = .null i.type) :
      inputs.map (·.outline) = inputs := by
    refine (List.map_congr_left fun i hmem => ?_).trans (List.map_id _)
    obtain ⟨name, type, default?, description⟩ := i
    cases default? with
    | none => rfl
    | some v =>
      have hv : v = .null type := hi _ hmem v rfl
      rw [hv]
      rfl
  obtain ⟨name, description, body⟩ := n
  cases body with
  | scalar builtin => rfl
  | enum values => rfl
  | inputObject fields =>
    simp only [NamedType.outline]
    rw [hinputs fun i hi => h (_, i) (List.mem_map.mpr ⟨i, hi, rfl⟩)]
  | object fields =>
    simp only [NamedType.outline]
    congr 2
    refine (List.map_congr_left fun f hf => ?_).trans (List.map_id _)
    unfold FieldSpec.outline
    rw [hinputs fun i hi => h (_, i) (List.mem_flatMap.mpr ⟨f, hf, List.mem_map.mpr ⟨i, hi, rfl⟩⟩)]
    rfl

/-- A default waits for an input that has one. -/
lemma Resolved.isSome_of_pending {st : ResolutionState} (h : s.Resolved st) {p : PendingDefault}
    (hp : p ∈ st.pending) {q : InputOwner × InputSpec} (hq : q ∈ s.ownedInputs) (hown : q.1 = p.owner) :
    q.2.default?.isSome := by
  have hkey : p.key ∈ defaulted s.ownedInputs :=
    h.pending ▸ List.mem_map.mpr ⟨p, List.mem_reverse.mpr hp, rfl⟩
  obtain ⟨q', hq', heq⟩ := List.mem_map.mp hkey
  obtain ⟨hmem, hsome⟩ := List.mem_filter.mp hq'
  have hsame : q'.1 = q.1 := (congrArg Prod.fst heq).trans hown.symm
  obtain rfl := List.inj_on_of_nodup_map h.wellFormed.owners_nodup hmem hq hsame
  exact hsome

/-- The types of a built schema, up to the values of defaults. -/
lemma build_outline {ds : List SchemaDocument} {id : Nat} {st : ResolutionState}
    (hd : ∀ d ∈ ds, d.IsProper) (hr : resolve ds id = .ok (s₀, st)) (h : build ds id = .ok s) :
    s.types.map (·.outline) = s₀.types := by
  obtain ⟨s₁, st₁, hr₁, hst, happlies⟩ := build_applies h
  obtain ⟨rfl, rfl⟩ := Prod.mk.inj (Except.ok.inj (hr.symm.trans hr₁))
  have hres := resolve_resolved hd hr hst
  rw [happlies.outline fun p hp q hq hown =>
    hres.isSome_of_pending (Resolved.mem_ordered.mp hp) hq hown]
  refine (List.map_congr_left fun n hn => outline_eq_self fun p hp v hv => ?_).trans (List.map_id _)
  exact hres.placeholder p (List.mem_flatMap.mpr ⟨n, hn, hp⟩) v hv

end Schema

end GraphQL
