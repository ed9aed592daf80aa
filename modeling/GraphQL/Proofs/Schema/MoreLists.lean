import GraphQL.Proofs.Schema.DefaultOrder

/-!
Schemas that make room for lists.

While a schema is used, lists of its types are added to it. What is there stays as it is, and so do the
values of all types that the schema had before.
-/

namespace GraphQL

open TypeRegistry (Extends)

namespace TypeRegistry

variable {r r' : TypeRegistry} {t : TypeId} {s : TypeShape}

lemma Extends.element? (h : Extends r r') (ht : r.Has t) : r'.element? t = r.element? t := by
  rw [TypeRegistry.element?, TypeRegistry.element?, h.shape? ht]

lemma Extends.innermost (h : Extends r r') (hr : r.WellFormed) (hr' : r'.WellFormed) (ht : r.Has t) :
    r'.innermost t = r.innermost t := by
  induction t using typeInduction hr with
  | single t he => rw [innermost_single he, innermost_single ((h.element? ht).trans he)]
  | list t e he ih =>
    rw [innermost_list hr he, innermost_list hr' ((h.element? ht).trans he), ih (element_slot_lt hr he).1]

/-- What is below the layers of a type is only there if the type is. -/
lemma has_of_innermost (h : r.shape? (r.innermost t) = some s) : r.Has t := by
  cases he : r.element? t with
  | none =>
    rw [innermost_single he] at h
    exact has_of_shape? h
  | some e => exact has_of_element? he

end TypeRegistry

namespace Schema

/-- A schema to which lists of its types were added. -/
inductive WithLists (s : Schema) : Schema → Prop where
  | refl : WithLists s s
  | listOf {s' : Schema} {e : TypeId} (before : WithLists s s') (element : s'.registry.Has e) :
      WithLists s (s'.listOf e).2

variable {s s' : Schema} {t e : TypeId} {n : NamedType} {text : String} {v : Value}

lemma has_of_named? (h : s.named? t = some n) : s.registry.Has t := by
  unfold named? at h
  split at h
  · rename_i hshape
    exact TypeRegistry.has_of_innermost hshape
  · cases h

namespace WithLists

/-- Nothing but the registry grows. -/
lemma eq (h : s.WithLists s') : s' = { s with registry := s'.registry } := by
  induction h with
  | refl => rfl
  | listOf before element ih => rw [Schema.listOf, ih]

lemma types (h : s.WithLists s') : s'.types = s.types := by rw [h.eq]

lemma inputs (h : s.WithLists s') : s'.inputs = s.inputs := by
  rw [h.eq]
  rfl

lemma trans {s'' : Schema} (h : s.WithLists s') (h' : s'.WithLists s'') : s.WithLists s'' := by
  induction h' with
  | refl => exact h
  | listOf _ element ih => exact .listOf ih element

lemma registry (h : s.WithLists s') (hr : s.registry.WellFormed) :
    s'.registry.WellFormed ∧ Extends s.registry s'.registry := by
  induction h with
  | refl => exact ⟨hr, .refl _⟩
  | @listOf s' e before element ih =>
    obtain ⟨hr', hextends⟩ := ih
    obtain ⟨hr'', hextends', -⟩ := TypeRegistry.intern_spec (s := .list e) hr' fun e' he => by
      obtain rfl := TypeShape.list.inj he
      exact element
    exact ⟨hr'', hextends.trans hextends'⟩

lemma element? (h : s.WithLists s') (hr : s.registry.WellFormed) (ht : s.registry.Has t) :
    s'.element? t = s.element? t := (h.registry hr).2.element? ht

lemma named? (h : s.WithLists s') (hr : s.registry.WellFormed) (hn : s.named? t = some n) :
    s'.named? t = some n := by
  have ht := has_of_named? hn
  obtain ⟨hr', hextends⟩ := h.registry hr
  unfold Schema.named? at hn ⊢
  rw [hextends.innermost hr hr' ht]
  split at hn
  · rename_i name hshape
    rw [hextends.shape? (TypeRegistry.has_of_shape? hshape), hshape]
    show s'.types.find? _ = some n
    rw [h.types]
    exact hn
  · cases hn

lemma wellFormed (h : s.WithLists s') (hs : s.WellFormed) : s'.WellFormed := by
  have hregistry := (h.registry hs.registry).1
  rw [h.eq]
  exact ⟨hregistry, hs.types, hs.members, hs.directives, hs.metaFields, fun op t ht => hs.roots op t (by
    cases op <;> exact ht)⟩

/-- Values stay well typed. -/
lemma wellTyped (h : s.WithLists s') (hr : s.registry.WellFormed) (hv : WellTyped s t v) : WellTyped s' t v := by
  induction hv with
  | null nullable => exact .null nullable
  | scalar single legal =>
    obtain ⟨n, hn, hlegal⟩ := legal
    exact .scalar ((h.element? hr (has_of_named? hn)).trans single) ⟨n, h.named? hr hn, hlegal⟩
  | list element _ ih => exact .list ((h.element? hr (TypeRegistry.has_of_element? element)).trans element) ih
  | @object t declared fields single isInput names _ ih =>
    obtain ⟨is, his, hdeclared⟩ := Option.map_eq_some_iff.mp isInput
    obtain ⟨n, hn, hfields⟩ := Option.bind_eq_some_iff.mp his
    have hinput : s'.inputTypes? t = some declared := by
      rw [inputTypes?, h.named? hr hn, Option.bind_some, hfields, Option.map_some, hdeclared]
    exact .object ((h.element? hr (has_of_named? hn)).trans single) hinput names ih

end WithLists

end Schema

end GraphQL
