import GraphQL.Proofs.Schema.Slots

/-!
What every schema says of itself.

The types of introspection are worked out like those of any other document. So a built schema has each of
them, with the fields and values that are written and the types that are written for them, and they are
what its meta fields lead to.
-/

namespace GraphQL

open TypeRegistry (Extends)

namespace Builtin

/-- The handle of a name that has a slot. -/
lemma named?_handle {r : TypeRegistry} {name : String} (h : (r.named? name).isSome = true) :
    r.named? name = some (handle r name) := by
  obtain ⟨t, ht⟩ := Option.isSome_iff_exists.mp h
  unfold handle TypeRegistry.named TypeRegistry.intern
  rw [show r.find? (.named name) = some t from ht]
  exact ht

end Builtin

namespace Schema

variable {s s' : Schema} {r r' : TypeRegistry} {ds : List SchemaDocument} {id : Nat}

/-- A field has the name and the type that are written. -/
def DeclaresField (r : TypeRegistry) (d : FieldDefinition) (f : FieldSpec) : Prop :=
  f.name = d.name.text ∧ r.ofRef? d.type = some f.type

/-- A type has the fields or values that are written. -/
inductive Declares (r : TypeRegistry) : TypeBody → NamedTypeBody → Prop where
  | object {ds : List FieldDefinition} {fs : List FieldSpec} (fields : List.Forall₂ (DeclaresField r) ds fs) :
      Declares r (.object ds) (.object fs)
  | enum {ds : List EnumValueDefinition} {vs : List EnumValueSpec}
      (values : vs.map (·.name) = ds.map (·.name.text)) : Declares r (.enum ds) (.enum vs)

lemma Declares.of_extends {d : TypeBody} {b : NamedTypeBody} (h : Declares r d b) (hr' : r'.WellFormed)
    (hext : Extends r r') : Declares r' d b := by
  cases h with
  | object fields => exact .object (fields.imp fun _ _ ⟨hname, htype⟩ =>
      ⟨hname, TypeRegistry.ofRef?_of_extends hr' hext htype⟩)
  | enum values => exact .enum values

/-- What questions of a schema about itself rest on: the types of introspection, the scalars that they use,
the meta fields that lead to them, and the root of queries. -/
structure Introspective (s : Schema) : Prop where
  registry : s.registry.WellFormed
  types : ∀ d ∈ Builtin.introspectionTypes,
    ∃ t, s.type? d.name.text = some t ∧ Declares s.registry d.body t.body
  scalars : ∀ b : BuiltinScalar, s.type? b.name = some b.namedType
  typename : s.registry.ofRef? (Builtin.required Builtin.string) = some s.metaFields.typename.type
  schema : s.registry.ofRef? (Builtin.required (Builtin.ref "__Schema")) = some s.metaFields.schema.type
  type : s.registry.ofRef? (Builtin.ref "__Type") = some s.metaFields.type.type
  query : s.registry.named? "Query" = some s.query
  slots : s.SlotsDefined

lemma declares_of_typeOf {ctx : ResolutionContext} {waiting : List PendingDefault} {d : TypeDefinition}
    {t : NamedType} (hd : d ∈ Builtin.introspectionTypes)
    (h : Resolution.TypeOf ctx r waiting d t.outline) : Declares r d.body t.body := by
  have hkinds : ∀ d ∈ Builtin.introspectionTypes, d.body.kind = .object ∨ d.body.kind = .enum := by decide
  have hkind := hkinds d hd
  obtain ⟨name, description, body⟩ := t
  have hbody := h.body
  generalize d.body = b at hbody hkind
  cases body with
  | scalar builtin =>
    cases hbody
    rcases hkind with hkind | hkind <;> cases hkind
  | inputObject fields =>
    cases hbody
    rcases hkind with hkind | hkind <;> cases hkind
  | enum values =>
    obtain _ | _ | ⟨-, members⟩ := hbody
    exact .enum (forall₂_map_eq members.flip fun v d hv => hv.name)
  | object fields =>
    obtain _ | ⟨-, members⟩ := hbody
    refine .object ?_
    rw [List.forall₂_map_right_iff] at members
    exact members.imp fun d f hf => ⟨hf.name, hf.type⟩

lemma objectRoot?_named {names : TypeNames} {name : String} {t : TypeId}
    (h : objectRoot? names name = some t) : names.registry.named? name = some t := by
  unfold objectRoot? at h
  split at h
  · exact h
  · cases h

/-- What a schema has without any definition rests on the names that were registered: its directives, its meta
fields and the root of queries. -/
structure RestsOn (s : Schema) (names : TypeNames) : Prop where
  extends_ : TypeRegistry.Extends names.registry s.registry
  named : ∀ name ∈ names.kinds.map (·.1), s.registry.named? name = some (Builtin.handle names.registry name)
  directives : s.directives = Builtin.directives names.registry
  metaFields : s.metaFields = Builtin.metaFields names.registry
  query : objectRoot? names "Query" = some s.query

lemma build_restsOn (hd : ∀ d ∈ ds, d.IsProper) (h : build ds id = .ok s) :
    ∃ names, (TypeNames.builtin id).registerAll (.introspection :: ds) = .ok names ∧ s.RestsOn names := by
  obtain ⟨s₀, st, hr, hst, happlies⟩ := build_applies h
  have hwf := happlies.wellFormed (resolve_resolved hd hr hst).wellFormed
  obtain ⟨hdirectives, hmeta, hroot⟩ := happlies.frame
  obtain ⟨names, query, types, hnames, hquery, hrun, rfl⟩ := resolve_eq_ok hr
  obtain ⟨hknown, -, -⟩ := TypeNames.registerAll_wellFormed (TypeNames.builtin_wellFormed id) hnames
  have hproper := List.forall_mem_cons.mpr ⟨SchemaDocument.introspection_isProper, hd⟩
  obtain ⟨hgrows, -⟩ := resolveDocuments_spec _ hproper (ready_of_wellFormed hknown) hrun
  have hregistry : s.registry = st.registry := happlies.sameTypes.registry
  have hextends : Extends names.registry s.registry := hregistry ▸ hgrows.registry
  exact ⟨names, hnames, {
    extends_ := hextends
    named := fun name hname =>
      TypeRegistry.find?_of_extends hwf.registry hextends (Builtin.named?_handle (hknown.known name hname))
    directives := hdirectives
    metaFields := hmeta
    query := hquery.trans (hroot .query).symm }⟩

lemma builtin_mem_kinds {names : TypeNames} (b : BuiltinScalar)
    (h : (TypeNames.builtin id).registerAll (.introspection :: ds) = .ok names) : b.name ∈ names.kinds.map (·.1) := by
  obtain ⟨-, -, hkinds⟩ := TypeNames.registerAll_wellFormed (TypeNames.builtin_wellFormed id) h
  rw [hkinds, List.map_append]
  refine List.mem_append_left _ (show b.name ∈ (TypeNames.builtin 0).kinds.map (·.1) from ?_)
  cases b <;> decide

/-- **A built schema can be asked about itself.** -/
theorem build_introspective (hd : ∀ d ∈ ds, d.IsProper) (h : build ds id = .ok s) : s.Introspective := by
  have hwf : s.WellFormed := by
    obtain ⟨s₀, st, hr, hst, happlies⟩ := build_applies h
    exact happlies.wellFormed (resolve_resolved hd hr hst).wellFormed
  obtain ⟨names, hnames, hrests⟩ := build_restsOn hd h
  obtain ⟨names', waiting, hnames', -, internal, users, htypes, hinternal, -⟩ := build_types hd h
  obtain rfl := Except.ok.inj (hnames.symm.trans hnames')
  obtain ⟨-, -, hkinds⟩ := TypeNames.registerAll_wellFormed (TypeNames.builtin_wellFormed id) hnames
  have hfind {t : NamedType} (ht : t ∈ s.types) : s.type? t.name = some t := find?_of_nodup_keys hwf.types ht
  have hkind {name : String} (hname : name ∈ Builtin.introspectionTypes.map (·.name.text)) :
      name ∈ names.kinds.map (·.1) := by
    obtain ⟨d, hd, rfl⟩ := List.mem_map.mp hname
    rw [hkinds, List.map_append, List.flatMap_cons]
    refine List.mem_append_right _ (List.mem_map.mpr ⟨(d.name.text, d.body.kind), ?_, rfl⟩)
    exact List.mem_map.mpr ⟨d, List.mem_append_left _ hd, rfl⟩
  refine ⟨hwf.registry, fun d hdmem => ?_, fun b => ?_, ?_, ?_, ?_, ?_, build_slotsDefined hd h⟩
  · obtain ⟨t', ht', htype⟩ := forall₂_exists_right hinternal hdmem
    obtain ⟨t, ht, rfl⟩ := List.mem_map.mp ht'
    have hmem : t ∈ s.types := htypes ▸ List.mem_append_left _ (List.mem_append_right _ ht)
    have hname : t.name = d.name.text := htype.name
    exact ⟨t, hname ▸ hfind hmem, declares_of_typeOf hdmem htype⟩
  · have hmem : b.namedType ∈ s.types := by
      rw [htypes, List.append_assoc]
      exact List.mem_append_left _ (List.mem_map_of_mem (by cases b <;> decide))
    exact hfind hmem
  · rw [hrests.metaFields]
    exact congrArg (Option.map TypeId.nonNull) (hrests.named _ (builtin_mem_kinds .string hnames))
  · rw [hrests.metaFields]
    exact congrArg (Option.map TypeId.nonNull) (hrests.named _ (hkind (by decide)))
  · rw [hrests.metaFields]
    exact hrests.named _ (hkind (by decide))
  · exact TypeRegistry.find?_of_extends hwf.registry hrests.extends_ (objectRoot?_named hrests.query)

lemma WithLists.introspective (h : s.WithLists s') (hs : s.Introspective) : s'.Introspective := by
  obtain ⟨hr', hextends⟩ := h.registry hs.registry
  have hslots := h.slotsDefined hs.slots
  have href {ref : TypeRef} {t : TypeId} (ht : s.registry.ofRef? ref = some t) : s'.registry.ofRef? ref = some t :=
    TypeRegistry.ofRef?_of_extends hr' hextends ht
  rw [h.eq] at hslots ⊢
  refine ⟨hr', fun d hd => ?_, hs.scalars, href hs.typename, href hs.schema, href hs.type,
    TypeRegistry.find?_of_extends hr' hextends hs.query, hslots⟩
  obtain ⟨t, ht, hdeclares⟩ := hs.types d hd
  exact ⟨t, ht, hdeclares.of_extends hr' hextends⟩

end Schema

end GraphQL
