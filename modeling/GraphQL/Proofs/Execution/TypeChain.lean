import GraphQL.Proofs.Execution.MetaObject

/-!
Types as introspection spells them out.

A type is told by its kind and its name or the type inside it, which is told in the same way. Elements of
lists were there before the lists, so this comes to an end, and what has been told by then is the type as it
is written.
-/

namespace GraphQL

namespace Schema

variable {s : Schema} {t e : TypeId} {name text text' : String} {v w : HostValue MetaObject}

/-- What introspection answers to a field of a type, whatever the host and wherever the type stands. -/
def Says (s : Schema) (t : TypeId) (name : String) (v : HostValue MetaObject) : Prop :=
  ∀ ⦃ρ : Type⦄ (host : Host ρ) (r : FieldRequest), r.schema = s → r.field.call.name = name →
    host.withIntrospection (.introspection (.type t)) r = .ok (v.map .introspection)

/-- The chain of kinds, names and inner types that starts at a type comes to an end, and is written as
`text`. -/
inductive SpelledBack (s : Schema) : TypeId → String → Prop where
  | named {t : TypeId} {kind name : String} (kinds : s.Says t "kind" (.ofString kind))
      (single : kind ≠ "LIST" ∧ kind ≠ "NON_NULL") (names : s.Says t "name" (.ofString name))
      (ends : s.Says t "ofType" .null) : SpelledBack s t name
  | list {t e : TypeId} {text : String} (kinds : s.Says t "kind" (.ofString "LIST"))
      (leads : s.Says t "ofType" (.object (.type e))) (inner : SpelledBack s e text) :
      SpelledBack s t ("[" ++ text ++ "]")
  | nonNull {t e : TypeId} {text : String} (kinds : s.Says t "kind" (.ofString "NON_NULL"))
      (leads : s.Says t "ofType" (.object (.type e))) (inner : SpelledBack s e text) :
      SpelledBack s t (text ++ "!")

lemma says_of_typeField (hname : name ∉ ["__schema", "__type", "__typename"])
    (h : ∀ call : FieldCall, call.name = name → MetaObject.typeField s t call = some v) : s.Says t name v := by
  intro ρ host r hschema hcall
  simp only [List.mem_cons, List.not_mem_nil, or_false, not_or] at hname
  have hmeta : Host.metaField? r = none := by
    unfold Host.metaField?
    simp [hcall, hname]
  exact Host.withIntrospection_object hmeta (by rw [hschema]; exact h _ hcall)

lemma says_kind (s : Schema) (t : TypeId) : s.Says t "kind" (.ofString (MetaObject.kindName s t)) :=
  says_of_typeField (by decide) fun call h => by
    rw [MetaObject.typeField, h]
    rfl

lemma says_name (s : Schema) (t : TypeId) :
    s.Says t "name" (.ofString? ((MetaObject.definition? s t).map (·.name))) :=
  says_of_typeField (by decide) fun call h => by
    rw [MetaObject.typeField, h]
    rfl

lemma says_ofType (s : Schema) (t : TypeId) :
    s.Says t "ofType" (.ofObject? ((MetaObject.ofType s t).map .type)) :=
  says_of_typeField (by decide) fun call h => by
    rw [MetaObject.typeField, h]
    rfl

/-- There is one answer to each field. -/
lemma Says.unique (h : s.Says t name v) (h' : s.Says t name w) :
    (v.map .introspection : HostValue (ExecutionObject Unit)) = w.map .introspection := by
  let r : FieldRequest := ⟨s, t, [], .leaf ⟨"", name, ⟨1, 1⟩, [], t⟩, false⟩
  have host : Host Unit := fun _ _ => .error ""
  exact Except.ok.inj ((h host r rfl rfl).symm.trans (h' host r rfl rfl))

lemma Says.text_unique (h : s.Says t name (.ofString text)) (h' : s.Says t name (.ofString text')) :
    text = text' := by
  simpa [HostValue.ofString, HostValue.map] using h.unique h'

lemma Says.type_unique {e' : TypeId} (h : s.Says t name (.object (.type e)))
    (h' : s.Says t name (.object (.type e'))) : e = e' := by
  simpa [HostValue.map] using h.unique h'

namespace SpelledBack

/-- A chain is written in one way. -/
lemma unique (h : s.SpelledBack t text) (h' : s.SpelledBack t text') : text = text' := by
  induction h generalizing text' with
  | named kinds single names ends =>
    cases h' with
    | named _ _ names' _ => exact names.text_unique names'
    | list kinds' _ _ => exact absurd (kinds.text_unique kinds') single.1
    | nonNull kinds' _ _ => exact absurd (kinds.text_unique kinds') single.2
  | list kinds leads _ ih =>
    cases h' with
    | named kinds' single _ _ => exact absurd (kinds'.text_unique kinds) single.1
    | list _ leads' inner' =>
      obtain rfl := leads.type_unique leads'
      rw [ih inner']
    | nonNull kinds' _ _ => exact absurd (kinds.text_unique kinds') (by decide)
  | nonNull kinds leads _ ih =>
    cases h' with
    | named kinds' single _ _ => exact absurd (kinds'.text_unique kinds) single.2
    | list kinds' _ _ => exact absurd (kinds.text_unique kinds') (by decide)
    | nonNull _ leads' inner' =>
      obtain rfl := leads.type_unique leads'
      rw [ih inner']

/-- Where null is excluded, the chain goes on with the type that takes null. -/
lemma of_nullable (hr : s.registry.WellFormed) (h : s.SpelledBack t.nullable (s.typeName t.nullable)) :
    s.SpelledBack t (s.typeName t) := by
  cases hnull : t.isNonNull with
  | false =>
    have heq : t.nullable = t := by
      cases t
      cases hnull
      rfl
    rwa [heq] at h
  | true =>
    have heq : t.nullable.nonNull = t := by
      cases t
      cases hnull
      rfl
    have hname : s.typeName t = s.typeName t.nullable ++ "!" := by
      rw [← heq]
      exact TypeRegistry.nameOf_nonNull hr rfl
    have hkind : MetaObject.kindName s t = "NON_NULL" := by rw [MetaObject.kindName, if_pos hnull]
    have hinner : MetaObject.ofType s t = some t.nullable := by rw [MetaObject.ofType, if_pos hnull]
    have hleads := s.says_ofType t
    rw [hinner] at hleads
    rw [hname]
    exact .nonNull (hkind ▸ s.says_kind t) hleads h

/-- The chain of a named type ends at once. -/
lemma of_named (hslots : s.SlotsDefined) (ht : s.registry.Has t) (hsingle : s.element? t = none)
    (hnull : t.isNonNull = false) : s.SpelledBack t (s.typeName t) := by
  obtain ⟨name, hshape⟩ := ht.named_of_single hsingle
  obtain ⟨n, hn⟩ := Option.isSome_iff_exists.mp (hslots name (TypeRegistry.mem_of_shape? hshape))
  have hnname : n.name = name := by simpa using List.find?_some hn
  have hlist : s.isList t = false := by rw [isList, hsingle, Option.isSome_none]
  have hnamed : s.named? t = some n := by
    unfold named?
    rw [TypeRegistry.innermost_single hsingle, TypeRegistry.shape?_nullable, hshape]
    exact hn
  have hdefinition : MetaObject.definition? s t = some n := by simp [MetaObject.definition?, hnull, hlist, hnamed]
  have hkind : MetaObject.kindName s t = n.kind.name := by simp [MetaObject.kindName, hnull, hlist, hdefinition]
  have hinner : MetaObject.ofType s t = none := by simp [MetaObject.ofType, hnull, hsingle]
  have hname : s.typeName t = n.name := by simp [typeName, TypeRegistry.nameOf_single hsingle hshape, hnull, hnname]
  have hends := s.says_ofType t
  have hnames := s.says_name t
  rw [hinner] at hends
  rw [hdefinition] at hnames
  rw [hname]
  exact .named (s.says_kind t) (by rw [hkind]; cases n.kind <;> decide) hnames hends

/-- The chain of a list goes on with that of its element. -/
lemma of_list (hr : s.registry.WellFormed) (helement : s.element? t = some e) (hnull : t.isNonNull = false)
    (h : s.SpelledBack e (s.typeName e)) : s.SpelledBack t (s.typeName t) := by
  have hname : s.typeName t = "[" ++ s.typeName e ++ "]" := by
    simp [typeName, TypeRegistry.nameOf_list hr helement, hnull]
  have hlist : s.isList t = true := by rw [isList, helement, Option.isSome_some]
  have hkind : MetaObject.kindName s t = "LIST" := by simp [MetaObject.kindName, hnull, hlist]
  have hinner : MetaObject.ofType s t = some e := by simp [MetaObject.ofType, hnull, helement]
  have hleads := s.says_ofType t
  rw [hinner] at hleads
  rw [hname]
  exact .list (hkind ▸ s.says_kind t) hleads h

/-- The chain of every type is written as the type is. -/
lemma typeName (hr : s.registry.WellFormed) (hslots : s.SlotsDefined) (t : TypeId) (ht : s.registry.Has t) :
    s.SpelledBack t (s.typeName t) := by
  induction t using TypeRegistry.typeInduction hr with
  | single t hsingle => exact of_nullable hr (of_named hslots ht hsingle rfl)
  | list t e helement ih =>
    have he := (TypeRegistry.element_slot_lt hr helement).1
    exact of_nullable hr (of_list hr helement rfl (ih he))

end SpelledBack

end Schema

end GraphQL
