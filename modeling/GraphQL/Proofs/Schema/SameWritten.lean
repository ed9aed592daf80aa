import GraphQL.Proofs.Schema.Counterpart
import GraphQL.Proofs.Schema.Lossless

/-!
Schemas of documents that write the same types.

Where types are written, in which document and in which order, makes no difference for what they become,
apart from the handles.
-/

namespace GraphQL

open TypeRegistry (SameType)

/-! ### The inputs that a definition owns -/

/-- The arguments of a field, each with the owner of its default. -/
def FieldDefinition.ownedInputs (typeName : String) (d : FieldDefinition) :
    List (InputOwner × InputDefinition) :=
  d.arguments.map fun a => (.argument typeName d.name.text a.name.text, a)

def TypeBody.ownedInputs (typeName : String) : TypeBody → List (InputOwner × InputDefinition)
  | .object fields => fields.flatMap (·.ownedInputs typeName)
  | .input fields => fields.map fun f => (.inputField typeName f.name.text, f)
  | .scalar | .enum _ => []

def TypeDefinition.ownedInputs (d : TypeDefinition) : List (InputOwner × InputDefinition) :=
  d.body.ownedInputs d.name.text

lemma TypeDefinition.ownedInputs_unplaced (d : TypeDefinition) :
    d.unplaced.ownedInputs = d.ownedInputs.map fun p => (p.1, p.2.unplaced) := by
  obtain ⟨description, name, directives, body, pos⟩ := d
  cases body with
  | scalar => rfl
  | enum values => rfl
  | input fields =>
    simp [ownedInputs, TypeBody.ownedInputs, unplaced, TypeBody.unplaced, InputDefinition.unplaced,
      Function.comp_def]
  | object fields =>
    simp [ownedInputs, TypeBody.ownedInputs, FieldDefinition.ownedInputs, unplaced, TypeBody.unplaced,
      FieldDefinition.unplaced, InputDefinition.unplaced, Function.comp_def, List.flatMap_map,
      List.map_flatMap]

/-- All arguments and input fields that documents define, with those of introspection in front. -/
def SchemaDocument.ownedInputs (ds : List SchemaDocument) : List (InputOwner × InputDefinition) :=
  ((introspection :: ds).flatMap (·.types)).flatMap (·.ownedInputs)

namespace Resolution

variable {ctx ctx' : ResolutionContext} {r r' : TypeRegistry} {waiting waiting' : List PendingDefault}

lemma InputOf.same {owner owner' : InputOwner} {d d' : InputDefinition} {i i' : InputSpec}
    (h : InputOf ctx r waiting owner d i) (h' : InputOf ctx' r' waiting' owner' d' i')
    (hd : d.unplaced = d'.unplaced) : SameInput r r' i i' where
  name := by
    rw [h.name, h'.name]
    exact (congrArg (fun d : InputDefinition => d.name.text) hd).symm
  type := .of_ofRef? h.type h'.type (congrArg InputDefinition.type hd)

lemma inputs_same {owner owner' : InputDefinition → InputOwner} {ds ds' : List InputDefinition}
    {is is' : List InputSpec} (h : List.Forall₂ (fun d => InputOf ctx r waiting (owner d) d) ds is)
    (h' : List.Forall₂ (fun d => InputOf ctx' r' waiting' (owner' d) d) ds' is')
    (hds : ds.map InputDefinition.unplaced = ds'.map InputDefinition.unplaced) :
    List.Forall₂ (SameInput r r') is is' :=
  forall₂_of_map_eq h h' hds fun _ _ _ _ hd hi hi' => hi.same hi' hd

lemma FieldOf.same {typeName typeName' : String} {d d' : FieldDefinition} {f f' : FieldSpec}
    (h : FieldOf ctx r waiting typeName d f) (h' : FieldOf ctx' r' waiting' typeName' d' f')
    (hd : d.unplaced = d'.unplaced) : SameField r r' f f' where
  name := by
    rw [h.name, h'.name]
    exact (congrArg (fun d : FieldDefinition => d.name.text) hd).symm
  arguments := inputs_same h.arguments h'.arguments (congrArg FieldDefinition.arguments hd)

lemma BodyOf.same {typeName typeName' : String} {b b' : TypeBody} {nb nb' : NamedTypeBody}
    (h : BodyOf ctx r waiting typeName b nb) (h' : BodyOf ctx' r' waiting' typeName' b' nb')
    (hb : b.unplaced = b'.unplaced) : SameBody r r' nb nb' := by
  cases h with
  | scalar =>
    cases h' <;> simp only [TypeBody.unplaced, reduceCtorEq] at hb
    exact .scalar none
  | object _ members =>
    cases h' <;> simp only [TypeBody.unplaced, reduceCtorEq, TypeBody.object.injEq] at hb
    rename_i members'
    exact .object (forall₂_of_map_eq members members' hb fun _ _ _ _ hd hf hf' => hf.same hf' hd)
  | enum _ members =>
    cases h' <;> simp only [TypeBody.unplaced, reduceCtorEq, TypeBody.enum.injEq] at hb
    rename_i members'
    have hnames : List.Forall₂ (fun v v' : EnumValueSpec => v'.name = v.name) _ _ :=
      forall₂_of_map_eq members members' hb fun d v d' v' hd hv hv' => by
        rw [hv.name, hv'.name]
        exact (congrArg (fun d : EnumValueDefinition => d.name.text) hd).symm
    exact .enum (forall₂_map_eq hnames fun _ _ h => h.symm).symm
  | input _ members =>
    cases h' <;> simp only [TypeBody.unplaced, reduceCtorEq, TypeBody.input.injEq] at hb
    rename_i members'
    exact .inputObject (inputs_same members members' hb)

/-- What a definition becomes is the same wherever it is written, up to handles. -/
lemma TypeOf.same {d d' : TypeDefinition} {t t' : NamedType} (h : TypeOf ctx r waiting d t)
    (h' : TypeOf ctx' r' waiting' d' t') (hd : d.unplaced = d'.unplaced) : SameNamed r r' t t' where
  name := by
    rw [h.name, h'.name]
    exact (congrArg (fun d : TypeDefinition => d.name.text) hd).symm
  body := h.body.same h'.body (congrArg TypeDefinition.body hd)

/-- What a definition owns stands in the same order in what it becomes. -/
lemma TypeOf.ownedInputs {d : TypeDefinition} {t : NamedType} (h : TypeOf ctx r waiting d t) :
    List.Forall₂ (fun p q => q.1 = p.1 ∧ InputOf ctx r waiting p.1 p.2 q.2) d.ownedInputs t.ownedInputs := by
  have hinputs {owner : String → InputOwner} {ds : List InputDefinition} {is : List InputSpec}
      (h : List.Forall₂ (fun d => InputOf ctx r waiting (owner d.name.text) d) ds is) :
      List.Forall₂ (fun p q => q.1 = p.1 ∧ InputOf ctx r waiting p.1 p.2 q.2)
        (ds.map fun d => (owner d.name.text, d)) (is.map fun i => (owner i.name, i)) := by
    rw [List.forall₂_map_left_iff, List.forall₂_map_right_iff]
    exact h.imp fun d i hi => ⟨congrArg owner hi.name, hi⟩
  obtain ⟨description, name, directives, body, pos⟩ := d
  obtain ⟨typeName, description', body'⟩ := t
  obtain ⟨hname, -, hbody⟩ := h
  obtain rfl : typeName = name.text := hname
  cases hbody with
  | scalar => exact .nil
  | enum _ members => exact .nil
  | input _ members => exact hinputs members
  | object _ members =>
    refine List.rel_flatMap members fun f f' hf => ?_
    unfold FieldSpec.ownedInputs
    rw [hf.name]
    exact hinputs hf.arguments

end Resolution

namespace Schema

variable {s s' : Schema} {st st' : ResolutionState} {ds ds' : List SchemaDocument} {id id' : ℕ}

/-- If documents write all types that others do, the types of those have counterparts. -/
lemma resolve_hasCounterparts (hd : ∀ d ∈ ds, d.IsProper) (hr : resolve ds id = .ok (s, st))
    (hst : st.errors = []) (hd' : ∀ d ∈ ds', d.IsProper) (hr' : resolve ds' id' = .ok (s', st'))
    (hst' : st'.errors = []) (hsame : ∀ t ∈ ds.flatMap (·.types), ∃ t' ∈ ds'.flatMap (·.types),
      t.unplaced = t'.unplaced) : s.HasCounterparts s' := by
  have hwf := (resolve_resolved hd hr hst).wellFormed
  have hwf' := (resolve_resolved hd' hr' hst').wellFormed
  obtain ⟨names, -, -, internal, users, htypes, hinternal, husers⟩ := resolve_types hd hr hst
  obtain ⟨names', -, -, internal', users', htypes', hinternal', husers'⟩ := resolve_types hd' hr' hst'
  refine ⟨hwf.registry, hwf'.registry, hwf'.types, fun n hn => ?_⟩
  rw [htypes, List.mem_append, List.mem_append] at hn
  rw [htypes']
  rcases hn with (hn | hn) | hn
  · obtain ⟨b, hb, rfl⟩ := List.mem_map.mp hn
    exact ⟨b.namedType, by simp [hn], rfl, .scalar _⟩
  · obtain ⟨d, hd, ht⟩ := forall₂_exists_left hinternal hn
    obtain ⟨n', hn', ht'⟩ := forall₂_exists_right hinternal' hd
    exact ⟨n', by simp [hn'], ht.same ht' rfl⟩
  · obtain ⟨d, hd, e, -, -, ht⟩ := forall₂_exists_left husers hn
    obtain ⟨d', hd', hunplaced⟩ := hsame d hd
    obtain ⟨n', hn', e', -, -, ht'⟩ := forall₂_exists_right husers' hd'
    exact ⟨n', by simp [hn'], ht.same ht' hunplaced⟩

/-- The arguments and input fields of a resolved schema are those that are defined. -/
lemma resolve_inputs (hd : ∀ d ∈ ds, d.IsProper) (hr : resolve ds id = .ok (s, st)) (hst : st.errors = []) :
    List.Forall₂ (fun p q => q.1 = p.1 ∧ ∃ ctx, Resolution.InputOf ctx s.registry st.pending p.1 p.2 q.2)
      (SchemaDocument.ownedInputs ds) s.ownedInputs := by
  obtain ⟨names, -, -, internal, users, htypes, hinternal, husers⟩ := resolve_types hd hr hst
  have hscalars : (BuiltinScalar.all.map (·.namedType)).flatMap (·.ownedInputs) = [] := rfl
  rw [ownedInputs, htypes, List.flatMap_append, List.flatMap_append, hscalars, List.nil_append,
    SchemaDocument.ownedInputs, List.flatMap_cons, List.flatMap_append]
  refine List.rel_append (List.rel_flatMap hinternal fun d t ht => ?_)
    (List.rel_flatMap husers fun d t ht => ?_)
  · exact ht.ownedInputs.imp fun _ _ h => ⟨h.1, _, h.2⟩
  · obtain ⟨e, -, -, ht⟩ := ht
    exact ht.ownedInputs.imp fun _ _ h => ⟨h.1, _, h.2⟩

end Schema

end GraphQL
