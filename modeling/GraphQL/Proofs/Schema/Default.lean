import GraphQL.Proofs.Coercion.Typing
import GraphQL.Proofs.Schema.Build

/-!
Setting the default of an argument or input field.

Nothing else changes: the types stay as they are, and so does what a literal of a type leaves out.
-/

namespace GraphQL

namespace Schema

variable {s : Schema} {owner : InputOwner} {v : Value} {t : TypeId}

/-! ### Setting a default -/

/-- An input with a new default, if the owner is the one that gets it. -/
def withDefault (owner : InputOwner) (v : Value) (p : InputOwner × InputSpec) :
    InputOwner × InputSpec :=
  if p.1 = owner then (p.1, { p.2 with default? := some v }) else p

lemma ownedInputs_inputField {typeName name : String} (fields : List InputSpec) :
    (setInputDefault name v fields).map (fun f => (InputOwner.inputField typeName f.name, f))
      = (fields.map fun f => (InputOwner.inputField typeName f.name, f)).map
          (withDefault (.inputField typeName name) v) := by
  unfold setInputDefault
  rw [List.map_map, List.map_map]
  refine List.map_congr_left fun f _ => ?_
  by_cases h : f.name = name <;> simp [withDefault, h]

lemma ownedInputs_argument {typeName fieldName name : String} (fields : List FieldSpec) :
    (setArgumentDefault fieldName name v fields).flatMap (·.ownedInputs typeName)
      = (fields.flatMap (·.ownedInputs typeName)).map
          (withDefault (.argument typeName fieldName name) v) := by
  unfold setArgumentDefault
  rw [List.flatMap_map, List.map_flatMap]
  congr 1
  funext f
  by_cases hf : f.name = fieldName
  · simp only [hf, beq_self_eq_true, if_true, FieldSpec.ownedInputs, setInputDefault, List.map_map]
    refine List.map_congr_left fun a _ => ?_
    by_cases h : a.name = name <;> simp [withDefault, h]
  · simp only [beq_iff_eq, hf, if_false, FieldSpec.ownedInputs, List.map_map]
    refine List.map_congr_left fun a _ => ?_
    simp [withDefault, hf]

/-- The type that the owner of a default belongs to. -/
def ownerType : InputOwner → String
  | .inputField t _ | .argument t _ _ => t

lemma ownedInputs_owner {n : NamedType} {p : InputOwner × InputSpec} (hp : p ∈ n.ownedInputs) :
    ownerType p.1 = n.name := by
  obtain ⟨name, description, body⟩ := n
  cases body with
  | scalar b => simp [NamedType.ownedInputs, NamedTypeBody.ownedInputs] at hp
  | enum values => simp [NamedType.ownedInputs, NamedTypeBody.ownedInputs] at hp
  | object fields =>
    obtain ⟨f, -, hp⟩ := List.mem_flatMap.mp hp
    obtain ⟨a, -, rfl⟩ := List.mem_map.mp hp
    rfl
  | inputObject fields =>
    obtain ⟨f, -, rfl⟩ := List.mem_map.mp hp
    rfl

lemma map_withDefault_of_ne {inputs : List (InputOwner × InputSpec)}
    (h : ∀ p ∈ inputs, p.1 ≠ owner) : inputs.map (withDefault owner v) = inputs := by
  have hid : ∀ p ∈ inputs, withDefault owner v p = id p := fun p hp => if_neg (h p hp)
  rw [List.map_congr_left hid, List.map_id]

lemma ownedInputs_setBodyDefault (owner : InputOwner) (v : Value) (b : NamedTypeBody) :
    (setBodyDefault owner v b).ownedInputs (ownerType owner)
      = (b.ownedInputs (ownerType owner)).map (withDefault owner v) := by
  cases owner with
  | inputField typeName name =>
    cases b with
    | inputObject fields => exact ownedInputs_inputField fields
    | object fields =>
      refine (map_withDefault_of_ne fun p hp => ?_).symm
      obtain ⟨f, -, hp⟩ := List.mem_flatMap.mp hp
      obtain ⟨a, -, rfl⟩ := List.mem_map.mp hp
      simp
    | scalar builtin => rfl
    | enum values => rfl
  | argument typeName fieldName name =>
    cases b with
    | object fields => exact ownedInputs_argument fields
    | inputObject fields =>
      refine (map_withDefault_of_ne fun p hp => ?_).symm
      obtain ⟨f, -, rfl⟩ := List.mem_map.mp hp
      simp
    | scalar builtin => rfl
    | enum values => rfl

lemma setDefault_types (s : Schema) (owner : InputOwner) (v : Value) :
    (s.setDefault owner v).types = s.types.map fun n =>
      if n.name == ownerType owner then { n with body := setBodyDefault owner v n.body } else n := by
  cases owner <;> rfl

lemma ownedInputs_setDefault (s : Schema) (owner : InputOwner) (v : Value) :
    (s.setDefault owner v).ownedInputs = s.ownedInputs.map (withDefault owner v) := by
  rw [ownedInputs, ownedInputs, setDefault_types, List.flatMap_map, List.map_flatMap]
  congr 1
  funext n
  by_cases h : n.name = ownerType owner
  · rw [if_pos (beq_iff_eq.mpr h), NamedType.ownedInputs, NamedType.ownedInputs, h]
    exact ownedInputs_setBodyDefault owner v n.body
  · rw [if_neg (by simpa using h)]
    refine (map_withDefault_of_ne fun p hp heq => ?_).symm
    exact h ((ownedInputs_owner hp).symm.trans (congrArg ownerType heq))

lemma bare_setInputDefault (name : String) (v : Value) (inputs : List InputSpec) :
    (setInputDefault name v inputs).map (·.bare) = inputs.map (·.bare) := by
  unfold setInputDefault
  rw [List.map_map]
  refine List.map_congr_left fun i _ => ?_
  by_cases h : i.name = name <;> simp [InputSpec.bare, h]

lemma bare_setBodyDefault (owner : InputOwner) (v : Value) (n : NamedType) :
    NamedType.bare { n with body := setBodyDefault owner v n.body } = n.bare := by
  obtain ⟨name, description, body⟩ := n
  cases owner with
  | inputField typeName fieldName =>
    cases body with
    | inputObject fields =>
      simp only [NamedType.bare, setBodyDefault, bare_setInputDefault]
    | object fields => rfl
    | scalar builtin => rfl
    | enum values => rfl
  | argument typeName fieldName argumentName =>
    cases body with
    | object fields =>
      simp only [NamedType.bare, setBodyDefault, setArgumentDefault, List.map_map]
      congr 2
      refine List.map_congr_left fun f _ => ?_
      by_cases h : f.name = fieldName <;> simp [FieldSpec.bare, h, bare_setInputDefault]
    | inputObject fields => rfl
    | scalar builtin => rfl
    | enum values => rfl

lemma sameTypes_setDefault (s : Schema) (owner : InputOwner) (v : Value) :
    SameTypes s (s.setDefault owner v) := by
  refine ⟨rfl, ?_⟩
  rw [setDefault_types, List.map_map]
  refine List.map_congr_left fun n _ => ?_
  by_cases h : n.name = ownerType owner
  · simp only [Function.comp_apply, h, beq_self_eq_true, if_true]
    rw [← h]
    exact bare_setBodyDefault owner v n
  · simp [h]

/-! ### What a default leaves out -/

/-- The context in which defaults are read. -/
def constant (s : Schema) : CoercionContext := ⟨s, false, .forbidden⟩

lemma type?_mem {name : String} {n : NamedType} (h : s.type? name = some n) :
    n ∈ s.types ∧ n.name = name :=
  ⟨List.mem_of_find?_eq_some h, by simpa using List.find?_some h⟩

lemma named?_mem {n : NamedType} (h : s.named? t = some n) : n ∈ s.types := by
  unfold named? at h
  split at h
  · exact (type?_mem h).1
  · simp at h

lemma inputFields?_owned {n : NamedType} {declared : List InputSpec} {d : InputSpec}
    (hn : n ∈ s.types) (hd : n.inputFields? = some declared) (hmem : d ∈ declared) :
    (.inputField n.name d.name, d) ∈ s.ownedInputs := by
  refine List.mem_flatMap.mpr ⟨n, hn, ?_⟩
  obtain ⟨name, description, body⟩ := n
  cases body with
  | inputObject fields =>
    cases hd
    exact List.mem_map.mpr ⟨d, hmem, rfl⟩
  | scalar b => simp [NamedType.inputFields?] at hd
  | object fields => simp [NamedType.inputFields?] at hd
  | enum values => simp [NamedType.inputFields?] at hd

end Schema

namespace CoercionContext

variable {c : CoercionContext} {v : Literal} {t : TypeId} {n : String} {d : InputSpec}

lemma LeavesOut.owned (h : LeavesOut c v t n d) : (.inputField n d.name, d) ∈ c.schema.ownedInputs := by
  induction h with
  | here named isInput mem _ =>
    exact Schema.inputFields?_owned (Schema.named?_mem named) isInput mem
  | field _ _ _ _ _ ih => exact ih
  | item _ _ _ _ ih => exact ih

end CoercionContext

namespace Schema

variable {s s' : Schema} {t : TypeId}

namespace SameTypes

lemma inputFields? (h : SameTypes s s') {n : NamedType} {declared : List InputSpec}
    (hn : s.named? t = some n) (hd : n.inputFields? = some declared) :
    ∃ n' declared', s'.named? t = some n' ∧ n'.inputFields? = some declared' ∧
      n'.name = n.name ∧ declared'.map (·.bare) = declared.map (·.bare) := by
  have hmap := h.named? (t := t)
  rw [hn, Option.map_some, Option.map_eq_some_iff] at hmap
  obtain ⟨n', hn', heq⟩ := hmap
  have hfields := congrArg NamedType.inputFields? heq
  rw [n'.bare_inputFields?, n.bare_inputFields?, hd, Option.map_some, Option.map_eq_some_iff] at hfields
  obtain ⟨declared', hd', hbare⟩ := hfields
  exact ⟨n', declared', hn', hd', by simpa using congrArg NamedType.name heq, hbare⟩

lemma exists_bare {declared declared' : List InputSpec}
    (h : declared'.map (·.bare) = declared.map (·.bare)) {d : InputSpec} (hd : d ∈ declared) :
    ∃ d' ∈ declared', d'.name = d.name ∧ d'.type = d.type := by
  have hmem : d.bare ∈ declared'.map (·.bare) := h ▸ List.mem_map.mpr ⟨d, hd, rfl⟩
  obtain ⟨d', hd', heq⟩ := List.mem_map.mp hmem
  exact ⟨d', hd', by simpa using congrArg InputSpec.name heq, by simpa using congrArg InputSpec.type heq⟩

/-- What a literal leaves out is the same under the same types, up to defaults. -/
lemma leavesOut (h : SameTypes s s') {v : Literal} {n : String} {d : InputSpec}
    (hd : s.constant.LeavesOut v t n d) :
    ∃ d', s'.constant.LeavesOut v t n d' ∧ d'.name = d.name ∧ d'.type = d.type := by
  induction hd with
  | here named isInput mem missing =>
    obtain ⟨n', declared', hn', hd', hname, hbare⟩ := h.inputFields? named isInput
    obtain ⟨d', hmem, hdname, htype⟩ := exists_bare hbare mem
    rw [← hname]
    refine ⟨d', .here hn' hd' hmem ?_, hdname, htype⟩
    rw [hdname]
    exact missing
  | field named isInput mem given below ih =>
    obtain ⟨n', declared', hn', hd', -, hbare⟩ := h.inputFields? named isInput
    obtain ⟨d', hmem, hdname, htype⟩ := exists_bare hbare mem
    obtain ⟨e', he', hename, hetype⟩ := ih
    refine ⟨e', .field hn' hd' hmem ?_ (htype ▸ he'), hename, hetype⟩
    rw [hdname]
    exact given
  | item element mem present below ih =>
    obtain ⟨d', hd', hname, htype⟩ := ih
    exact ⟨d', .item (h.element?.trans element) mem present hd', hname, htype⟩

end SameTypes

end Schema

end GraphQL
