import GraphQL.Proofs.Document.Unplaced
import GraphQL.Proofs.Type.Reference

/-!
Handles of different registries for the same type.

Which slots a registry has for a name and for the lists over it depends on the order in which they were
asked for. What a handle stands for does not: a name or a list, with null or without.
-/

namespace GraphQL

namespace TypeRegistry

/-- Two handles stand for the same type, each of them in its own registry. -/
inductive SameType (r r' : TypeRegistry) : TypeId → TypeId → Prop where
  | named {t t' : TypeId} {name : String} (shape : r.shape? t = some (.named name))
      (shape' : r'.shape? t' = some (.named name)) (nonNull : t'.isNonNull = t.isNonNull) :
      SameType r r' t t'
  | list {t t' e e' : TypeId} (element : r.element? t = some e) (element' : r'.element? t' = some e')
      (elements : SameType r r' e e') (nonNull : t'.isNonNull = t.isNonNull) : SameType r r' t t'

variable {r r' : TypeRegistry} {t t' e : TypeId} {ref ref' : TypeRef} {name : String}

lemma element?_eq_none (h : r.shape? t = some (.named name)) : r.element? t = none := by
  rw [element?, h]

lemma shape?_of_element? (h : r.element? t = some e) : r.shape? t = some (.list e) := by
  unfold element? at h
  split at h
  · rename_i e' hshape
    rw [hshape, Option.some.inj h]
  · simp at h

/-- A handle is known by its shape and its mark. -/
lemma WellFormed.eq_of_shape? (hr : r.WellFormed) {shape : TypeShape} (h : r.shape? t = some shape)
    (h' : r.shape? t' = some shape) (hnull : t'.isNonNull = t.isNonNull) : t = t' := by
  obtain ⟨registry, slot, nonNull⟩ := t
  obtain ⟨registry', slot', nonNull'⟩ := t'
  have hhas := has_of_shape? h
  have hhas' := has_of_shape? h'
  have hslot {t : TypeId} (h : r.shape? t = some shape) : r.shapes[t.slot]? = some shape := by
    rwa [shape?, if_pos (by simpa [owns] using (has_of_shape? h).1)] at h
  have hslots := (List.getElem?_inj hhas.2 hr.nodup).mp ((hslot h).trans (hslot h').symm)
  exact TypeId.mk.injEq .. ▸ ⟨hhas.1.trans hhas'.1.symm, hslots, hnull.symm⟩

namespace SameType

lemma nonNull (h : SameType r r' t t') : t'.isNonNull = t.isNonNull := by
  cases h <;> assumption

lemma required (h : SameType r r' t t') : SameType r r' t.nonNull t'.nonNull := by
  cases h with
  | named shape shape' _ => exact .named shape shape' rfl
  | list element element' elements _ => exact .list element element' elements rfl

/-- In one registry there is one handle for each type. -/
lemma eq (hr : r.WellFormed) (h : SameType r r t t') : t = t' := by
  induction h with
  | named shape shape' nonNull => exact hr.eq_of_shape? shape shape' nonNull
  | list element element' _ nonNull ih =>
    subst ih
    exact hr.eq_of_shape? (shape?_of_element? element) (shape?_of_element? element') nonNull

/-- Both are lists, or neither is. -/
lemma element? (h : SameType r r' t t') : (r.element? t = none ∧ r'.element? t' = none) ∨
    ∃ e e', r.element? t = some e ∧ r'.element? t' = some e' ∧ SameType r r' e e' := by
  cases h with
  | named shape shape' _ => exact .inl ⟨element?_eq_none shape, element?_eq_none shape'⟩
  | list element element' elements _ => exact .inr ⟨_, _, element, element', elements⟩

lemma layers (hr : r.WellFormed) (hr' : r'.WellFormed) (h : SameType r r' t t') :
    List.Forall₂ (SameType r r') (r.layers t).1 (r'.layers t').1 ∧
      SameType r r' (r.layers t).2 (r'.layers t').2 := by
  induction h with
  | named shape shape' nonNull =>
    rw [layers_single (element?_eq_none shape), layers_single (element?_eq_none shape')]
    exact ⟨.nil, .named shape shape' nonNull⟩
  | list element element' elements nonNull ih =>
    rw [layers_list hr element, layers_list hr' element']
    exact ⟨.cons (.list element element' elements nonNull) ih.1, ih.2⟩

/-- Below the lists of both is the same name. -/
lemma shape?_innermost (hr : r.WellFormed) (hr' : r'.WellFormed) (h : SameType r r' t t') :
    ∃ name, r.shape? (r.innermost t) = some (.named name) ∧
      r'.shape? (r'.innermost t') = some (.named name) := by
  induction h with
  | @named t t' name shape shape' _ =>
    rw [innermost_single (element?_eq_none shape), innermost_single (element?_eq_none shape')]
    exact ⟨name, shape, shape'⟩
  | list element element' _ _ ih =>
    rwa [innermost_list hr element, innermost_list hr' element']

/-- Handles of types that are written alike. -/
lemma of_ofRef? (h : r.ofRef? ref = some t) (h' : r'.ofRef? ref' = some t')
    (href : ref.unplaced = ref'.unplaced) : SameType r r' t t' := by
  induction ref generalizing ref' t t' with
  | named n =>
    cases ref' with
    | named n' =>
      have hname : n.text = n'.text := by simpa [TypeRef.unplaced, Name.unplaced] using href
      obtain ⟨-, hnull, hshape⟩ := find?_spec h
      obtain ⟨-, hnull', hshape'⟩ := find?_spec h'
      exact .named hshape (hname ▸ hshape') (hnull'.trans hnull.symm)
    | list ref' p => simp [TypeRef.unplaced] at href
    | nonNull ref' p => simp [TypeRef.unplaced] at href
  | list ref p ih =>
    cases ref' with
    | list ref' p' =>
      obtain ⟨e, he, ht⟩ := Option.bind_eq_some_iff.mp h
      obtain ⟨e', he', ht'⟩ := Option.bind_eq_some_iff.mp h'
      have hsame := ih he he' (by simpa [TypeRef.unplaced] using href)
      exact .list (element?_listOf? ht) (element?_listOf? ht') hsame
        ((find?_spec ht').2.1.trans (find?_spec ht).2.1.symm)
    | named n' => simp [TypeRef.unplaced] at href
    | nonNull ref' p' => simp [TypeRef.unplaced] at href
  | nonNull ref p ih =>
    cases ref' with
    | nonNull ref' p' =>
      obtain ⟨e, he, rfl⟩ := Option.map_eq_some_iff.mp h
      obtain ⟨e', he', rfl⟩ := Option.map_eq_some_iff.mp h'
      exact (ih he he' (by simpa [TypeRef.unplaced] using href)).required
    | named n' => simp [TypeRef.unplaced] at href
    | list ref' p' => simp [TypeRef.unplaced] at href

end SameType

end TypeRegistry

end GraphQL
