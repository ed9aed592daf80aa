import GraphQL.Proofs.Schema.DefaultOrder
import GraphQL.Proofs.Type.Reference

/-!
What is found by a name.

Lists and marks lead to the definition of the name below them, and what kind of type a handle is of is read
off that definition alone. Fields, arguments and input fields can be told apart by their names in the schema
of any documents, and all of them count among its inputs.
-/

namespace GraphQL

namespace Schema

variable {s : Schema} {t e : TypeId} {n : NamedType} {name : String} {f : FieldSpec}
  {declared : List InputSpec}

/-! ### The definition behind a type -/

lemma named?_nonNull (hr : s.registry.WellFormed) (t : TypeId) : s.named? t.nonNull = s.named? t := by
  rw [named?, named?, TypeRegistry.innermost_nonNull hr]

lemma named?_element (hr : s.registry.WellFormed) (he : s.element? t = some e) : s.named? t = s.named? e := by
  rw [named?, named?, TypeRegistry.innermost_list hr he]

lemma named?_innermost (hr : s.registry.WellFormed) (t : TypeId) :
    s.named? (s.registry.innermost t) = s.named? t := by
  have hinner : s.registry.innermost (s.registry.innermost t) = s.registry.innermost t :=
    TypeRegistry.innermost_single (TypeRegistry.element?_innermost hr t)
  rw [named?, named?, hinner]

/-! ### The handle of a name -/

lemma nullable_of_name (h : s.registry.named? name = some t) : t.nullable = t := by
  obtain ⟨-, hnull, -⟩ := TypeRegistry.find?_spec h
  cases t
  cases hnull
  rfl

lemma innermost_of_name (h : s.registry.named? name = some t) : s.registry.innermost t = t := by
  rw [TypeRegistry.innermost_single (TypeRegistry.element?_named h), nullable_of_name h]

lemma named?_of_name (h : s.registry.named? name = some t) : s.named? t = s.type? name := by
  obtain ⟨-, -, hshape⟩ := TypeRegistry.find?_spec h
  rw [named?, innermost_of_name h, hshape]

/-! ### Kinds of types -/

lemma isInput_congr (h : s.named? t = s.named? e) : s.isInput t = s.isInput e := by
  unfold isInput isScalar isEnum isInputObject kind?
  rw [h]

lemma isLeaf_congr (h : s.named? t = s.named? e) : s.isLeaf t = s.isLeaf e := by
  unfold isLeaf isScalar isEnum kind?
  rw [h]

lemma isComposite_congr (h : s.named? t = s.named? e) : s.isComposite t = s.isComposite e := by
  unfold isComposite isObject kind?
  rw [h]

/-! ### Members -/

lemma inputFields_nodup (hs : s.WellFormed) (hn : s.named? t = some n)
    (hd : n.inputFields? = some declared) : (declared.map (·.name)).Nodup := by
  have hdistinct := hs.members n (named?_mem hn)
  obtain ⟨name, description, body⟩ := n
  cases body with
  | inputObject fields =>
    obtain rfl := Option.some.inj hd
    exact hdistinct
  | scalar b => simp [NamedType.inputFields?] at hd
  | object fields => simp [NamedType.inputFields?] at hd
  | enum values => simp [NamedType.inputFields?] at hd

/-- A field is a declared one or a meta field. -/
lemma field?_cases (h : s.field? t name = some f) :
    f ∈ s.metaFields.all ∨ ∃ n fields, n ∈ s.types ∧ n.body = .object fields ∧ f ∈ fields := by
  unfold field? at h
  split at h
  · simp at h
  · rename_i fields hfields
    extract_lets isQueryRoot at h
    split_ifs at h
    · exact .inl (by simp [MetaFields.all, Option.some.inj h])
    · exact .inl (by simp [MetaFields.all, Option.some.inj h])
    · exact .inl (by simp [MetaFields.all, Option.some.inj h])
    · obtain ⟨n, hn, hobject⟩ := Option.bind_eq_some_iff.mp hfields
      refine .inr ⟨n, fields, named?_mem hn, ?_, List.mem_of_find?_eq_some h⟩
      unfold NamedType.objectFields? at hobject
      split at hobject
      · rename_i hbody
        rw [hbody, Option.some.inj hobject]
      · simp at hobject

lemma field?_arguments_nodup (hs : s.WellFormed) (h : s.field? t name = some f) :
    (f.arguments.map (·.name)).Nodup := by
  rcases field?_cases h with hmeta | ⟨n, fields, hn, hbody, hf⟩
  · exact hs.metaFields f hmeta
  · have hdistinct := hs.members n hn
    rw [hbody] at hdistinct
    exact hdistinct.2 f hf

lemma field?_arguments_inputs (h : s.field? t name = some f) : ∀ i ∈ f.arguments, i ∈ s.inputs := by
  intro i hi
  rcases field?_cases h with hmeta | ⟨n, fields, hn, hbody, hf⟩
  · exact List.mem_append_right _ (List.mem_flatMap.mpr ⟨f, hmeta, hi⟩)
  · have howned : (.argument n.name f.name i.name, i) ∈ s.ownedInputs := by
      refine List.mem_flatMap.mpr ⟨n, hn, ?_⟩
      rw [NamedType.ownedInputs, hbody]
      exact List.mem_flatMap.mpr ⟨f, hf, List.mem_map.mpr ⟨i, hi, rfl⟩⟩
    exact mem_inputs_of_owned howned

lemma directive?_arguments_nodup {d : DirectiveSpec} (hs : s.WellFormed)
    (h : s.directive? name = some d) : (d.arguments.map (·.name)).Nodup :=
  hs.directives d (List.mem_of_find?_eq_some h)

lemma ofText_eq_ok {text : String} {id : Nat} : ofText text id = .ok s ↔
    ∃ d, SchemaDocument.load none text = .ok d ∧ build [d] id = .ok s := bind_eq_ok

/-- The schema of loaded documents is well formed. -/
lemma build_wellFormed {ds : List SchemaDocument} {id : Nat}
    (hd : ∀ d ∈ ds, ∃ file text, SchemaDocument.load file text = .ok d) (h : build ds id = .ok s) :
    s.WellFormed := by
  obtain ⟨s₀, st, hr, hst, happlies⟩ := build_applies h
  exact happlies.wellFormed (resolve_resolved (SchemaDocument.loaded_isProper hd) hr hst).wellFormed

end Schema

end GraphQL
