import GraphQL.Proofs.Schema.InputOrder
import GraphQL.Proofs.Type.Counterpart

/-!
Types and values of schemas that differ in their handles.

A type has a counterpart in another schema if that has one of the same name with the same members, whose
types are the same up to handles. What defaults the members have does not count.
-/

namespace GraphQL

open TypeRegistry (SameType)

/-! ### Values -/

/-- Two values differ in the handles of their types alone. -/
inductive SameValue (r r' : TypeRegistry) : Value → Value → Prop where
  | null {t t' : TypeId} (type : SameType r r' t t') : SameValue r r' (.null t) (.null t')
  | scalar {t t' : TypeId} {text : String} (type : SameType r r' t t') :
      SameValue r r' (.scalar t text) (.scalar t' text)
  | list {t t' : TypeId} {items items' : List Value} (type : SameType r r' t t')
      (length : items.length = items'.length) (each : ∀ p ∈ items.zip items', SameValue r r' p.1 p.2) :
      SameValue r r' (.list t items) (.list t' items')
  | object {t t' : TypeId} {fields fields' : List (String × Value)} (type : SameType r r' t t')
      (names : fields.map (·.1) = fields'.map (·.1))
      (each : ∀ p ∈ fields.zip fields', SameValue r r' p.1.2 p.2.2) :
      SameValue r r' (.object t fields) (.object t' fields')

variable {r r' : TypeRegistry} {t t' : TypeId} {v v' : Value}

namespace SameValue

lemma list_of_forall₂ {items items' : List Value} (type : SameType r r' t t')
    (h : List.Forall₂ (SameValue r r') items items') : SameValue r r' (.list t items) (.list t' items') :=
  have ⟨hlength, hzip⟩ := List.forall₂_iff_zip.mp h
  .list type hlength fun _ hp => hzip hp

lemma object_of_forall₂ {fields fields' : List (String × Value)} (type : SameType r r' t t')
    (h : List.Forall₂ (fun f f' => f.1 = f'.1 ∧ SameValue r r' f.2 f'.2) fields fields') :
    SameValue r r' (.object t fields) (.object t' fields') :=
  have ⟨_, hzip⟩ := List.forall₂_iff_zip.mp h
  .object type (forall₂_map_eq h fun _ _ hf => hf.1) fun _ hp => (hzip hp).2

/-- Lists of one around a value. -/
lemma layers {ts ts' : List TypeId} (h : List.Forall₂ (SameType r r') ts ts') (hv : SameValue r r' v v') :
    SameValue r r' (ts.foldr (fun t inner => .list t [inner]) v)
      (ts'.foldr (fun t inner => .list t [inner]) v') := by
  induction h with
  | nil => exact hv
  | cons ht _ ih => exact list_of_forall₂ ht (.cons ih .nil)

/-- In one registry there is one such value. -/
lemma eq (hr : r.WellFormed) (h : SameValue r r v v') : v = v' := by
  induction h with
  | null type => rw [type.eq hr]
  | scalar type => rw [type.eq hr]
  | @list _ _ items items' type length each ih =>
    have hitems : List.Forall₂ Eq items items' := List.forall₂_iff_zip.mpr ⟨length, fun hp => ih _ hp⟩
    rw [List.forall₂_eq_eq_eq] at hitems
    rw [type.eq hr, hitems]
  | @object _ _ fields fields' type names each ih =>
    obtain ⟨hlength, hnames⟩ := List.forall₂_iff_zip.mp (Schema.names_eq_iff.mp names.symm)
    have hfields : List.Forall₂ Eq fields fields' :=
      List.forall₂_iff_zip.mpr ⟨hlength, fun hp => Prod.ext (hnames hp) (ih _ hp)⟩
    rw [List.forall₂_eq_eq_eq] at hfields
    rw [type.eq hr, hfields]

end SameValue

/-! ### Types -/

/-- An argument or input field has the same name and type. -/
structure SameInput (r r' : TypeRegistry) (i i' : InputSpec) : Prop where
  name : i'.name = i.name
  type : SameType r r' i.type i'.type

structure SameField (r r' : TypeRegistry) (f f' : FieldSpec) : Prop where
  name : f'.name = f.name
  arguments : List.Forall₂ (SameInput r r') f.arguments f'.arguments

inductive SameBody (r r' : TypeRegistry) : NamedTypeBody → NamedTypeBody → Prop where
  | scalar (builtin : Option BuiltinScalar) : SameBody r r' (.scalar builtin) (.scalar builtin)
  | object {fields fields' : List FieldSpec} (members : List.Forall₂ (SameField r r') fields fields') :
      SameBody r r' (.object fields) (.object fields')
  | enum {values values' : List EnumValueSpec} (names : values'.map (·.name) = values.map (·.name)) :
      SameBody r r' (.enum values) (.enum values')
  | inputObject {fields fields' : List InputSpec}
      (members : List.Forall₂ (SameInput r r') fields fields') :
      SameBody r r' (.inputObject fields) (.inputObject fields')

/-- A type has the name of another one, and the same members up to handles and defaults. -/
structure SameNamed (r r' : TypeRegistry) (n n' : NamedType) : Prop where
  name : n'.name = n.name
  body : SameBody r r' n.body n'.body

lemma forall₂_bare {is is' : List InputSpec} :
    List.Forall₂ (SameInput r r') (is.map (·.bare)) (is'.map (·.bare))
      ↔ List.Forall₂ (SameInput r r') is is' := by
  rw [List.forall₂_map_left_iff, List.forall₂_map_right_iff]
  exact ⟨fun h => h.imp fun _ _ h => ⟨h.name, h.type⟩, fun h => h.imp fun _ _ h => ⟨h.name, h.type⟩⟩

lemma sameField_bare {f f' : FieldSpec} : SameField r r' f.bare f'.bare ↔ SameField r r' f f' :=
  ⟨fun h => ⟨h.name, forall₂_bare.mp h.arguments⟩, fun h => ⟨h.name, forall₂_bare.mpr h.arguments⟩⟩

/-- Defaults do not count. -/
lemma sameNamed_bare {n n' : NamedType} : SameNamed r r' n.bare n'.bare ↔ SameNamed r r' n n' := by
  have hfields {fs fs' : List FieldSpec} :
      List.Forall₂ (SameField r r') (fs.map (·.bare)) (fs'.map (·.bare))
        ↔ List.Forall₂ (SameField r r') fs fs' := by
    rw [List.forall₂_map_left_iff, List.forall₂_map_right_iff]
    exact ⟨fun h => h.imp fun _ _ => sameField_bare.mp, fun h => h.imp fun _ _ => sameField_bare.mpr⟩
  have hbody : SameBody r r' n.bare.body n'.bare.body ↔ SameBody r r' n.body n'.body := by
    obtain ⟨name, description, body⟩ := n
    obtain ⟨name', description', body'⟩ := n'
    constructor
    · intro h
      cases body <;> cases body' <;> cases h
      · exact .scalar _
      · exact .object (hfields.mp ‹_›)
      · exact .enum ‹_›
      · exact .inputObject (forall₂_bare.mp ‹_›)
    · rintro (⟨builtin⟩ | ⟨members⟩ | ⟨names⟩ | ⟨members⟩)
      · exact .scalar builtin
      · exact .object (hfields.mpr members)
      · exact .enum names
      · exact .inputObject (forall₂_bare.mpr members)
  exact ⟨fun h => ⟨h.name, hbody.mp h.body⟩, fun h => ⟨h.name, hbody.mpr h.body⟩⟩

/-! ### Schemas -/

namespace Schema

variable {s s' s₁ s₁' : Schema} {a b : String} {n : NamedType}

/-- Every type of a schema has a counterpart in the other one. -/
structure HasCounterparts (s s' : Schema) : Prop where
  registry : s.registry.WellFormed
  registry' : s'.registry.WellFormed
  names : (s'.types.map (·.name)).Nodup
  types : ∀ n ∈ s.types, ∃ n' ∈ s'.types, SameNamed s.registry s'.registry n n'

namespace HasCounterparts

lemma named? (h : s.HasCounterparts s') (ht : SameType s.registry s'.registry t t')
    (hn : s.named? t = some n) :
    ∃ n', s'.named? t' = some n' ∧ SameNamed s.registry s'.registry n n' := by
  obtain ⟨name, hshape, hshape'⟩ := ht.shape?_innermost h.registry h.registry'
  rw [Schema.named?, hshape] at hn
  obtain ⟨hmem, rfl⟩ := type?_mem hn
  obtain ⟨n', hn', hsame⟩ := h.types n hmem
  refine ⟨n', ?_, hsame⟩
  rw [Schema.named?, hshape', ← hsame.name]
  exact find?_of_nodup_keys h.names hn'

/-- Defaults do not count. -/
lemma of_sameTypes (h : s.HasCounterparts s') (hs : SameTypes s s₁) (hs' : SameTypes s' s₁') :
    s₁.HasCounterparts s₁' := by
  have hmem {s s₁ : Schema} (hs : SameTypes s s₁) {n : NamedType} (hn : n ∈ s₁.types) :
      ∃ n₀ ∈ s.types, n₀.bare = n.bare :=
    List.mem_map.mp (hs.types ▸ List.mem_map.mpr ⟨n, hn, rfl⟩)
  refine ⟨hs.registry ▸ h.registry, hs'.registry ▸ h.registry', ?_, fun n hn => ?_⟩
  · have hnames := congrArg (List.map NamedType.name) hs'.types
    simp only [List.map_map, Function.comp_def, NamedType.bare_name] at hnames
    exact hnames ▸ h.names
  · obtain ⟨n₀, hn₀, hbare⟩ := hmem hs hn
    obtain ⟨n₀', hn₀', hsame⟩ := h.types n₀ hn₀
    obtain ⟨n', hn', hbare'⟩ := hmem hs'.symm hn₀'
    refine ⟨n', hn', ?_⟩
    rw [hs.registry, hs'.registry, ← sameNamed_bare, ← hbare, hbare', sameNamed_bare]
    exact hsame

lemma inputFields? {n' : NamedType} (h : SameNamed r r' n n') {fields : List InputSpec}
    (hfields : n.inputFields? = some fields) :
    ∃ fields', n'.inputFields? = some fields' ∧ List.Forall₂ (SameInput r r') fields fields' := by
  obtain ⟨name, description, body⟩ := n
  obtain ⟨name', description', body'⟩ := n'
  obtain ⟨-, hbody⟩ := h
  cases hbody with
  | inputObject members =>
    cases hfields
    exact ⟨_, rfl, members⟩
  | scalar builtin => simp [NamedType.inputFields?] at hfields
  | object members => simp [NamedType.inputFields?] at hfields
  | enum names => simp [NamedType.inputFields?] at hfields

lemma nestsInput (h : s.HasCounterparts s') (hab : s.NestsInput a b) : s'.NestsInput a b := by
  obtain @⟨t, u, fields, f, ht, hfields, hf, hu, hinput⟩ := hab
  obtain ⟨t', ht', hsame⟩ := h.types t ht
  obtain ⟨fields', hfields', hmembers⟩ := inputFields? hsame hfields
  obtain ⟨f', hf', hfsame⟩ := forall₂_exists_right hmembers hf
  obtain ⟨u', hu', husame⟩ := h.named? hfsame.type hu
  obtain ⟨below, hbelow⟩ := Option.isSome_iff_exists.mp hinput
  obtain ⟨below', hbelow', -⟩ := inputFields? husame hbelow
  rw [← hsame.name, ← husame.name]
  exact .mk ht' hfields' hf' hu' (by simp [hbelow'])

/-- The arguments and input fields of a type, side by side with those of its counterpart. -/
lemma ownedInputs_same {n' : NamedType} (h : SameNamed r r' n n') :
    List.Forall₂ (fun p p' => p'.1 = p.1 ∧ SameInput r r' p.2 p'.2) n.ownedInputs n'.ownedInputs := by
  have hinputs {owner : String → InputOwner} {is is' : List InputSpec}
      (h : List.Forall₂ (SameInput r r') is is') :
      List.Forall₂ (fun p p' => p'.1 = p.1 ∧ SameInput r r' p.2 p'.2)
        (is.map fun i => (owner i.name, i)) (is'.map fun i => (owner i.name, i)) := by
    rw [List.forall₂_map_left_iff, List.forall₂_map_right_iff]
    exact h.imp fun i i' h => ⟨congrArg owner h.name, h⟩
  obtain ⟨name, description, body⟩ := n
  obtain ⟨name', description', body'⟩ := n'
  obtain ⟨hname, hbody⟩ := h
  obtain rfl : name' = name := hname
  cases hbody with
  | scalar builtin => exact .nil
  | enum names => exact .nil
  | inputObject members => exact hinputs members
  | object members =>
    refine List.rel_flatMap members fun f f' hf => ?_
    unfold FieldSpec.ownedInputs
    rw [hf.name]
    exact hinputs hf.arguments

lemma ownedInputs (h : s.HasCounterparts s') {owner : InputOwner} {i : InputSpec}
    (hi : (owner, i) ∈ s.ownedInputs) :
    ∃ i', (owner, i') ∈ s'.ownedInputs ∧ SameInput s.registry s'.registry i i' := by
  obtain ⟨n, hn, hi⟩ := List.mem_flatMap.mp hi
  obtain ⟨n', hn', hsame⟩ := h.types n hn
  obtain ⟨⟨owner', i'⟩, hi', rfl, hinput⟩ := forall₂_exists_right (ownedInputs_same hsame) hi
  exact ⟨i', List.mem_flatMap.mpr ⟨n', hn', hi'⟩, hinput⟩

/-- Where an input object holds itself, its counterpart does. -/
lemma noInputRecursion (h : s.HasCounterparts s') (hrec : s'.NoInputRecursion) : s.NoInputRecursion :=
  fun name hcycle =>
    hrec name (Relation.TransGen.mono (fun _ _ hab => h.nestsInput hab) name name hcycle)

end HasCounterparts

end Schema

end GraphQL
