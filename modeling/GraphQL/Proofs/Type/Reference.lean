import GraphQL.Proofs.Document.Legal
import GraphQL.Proofs.Type.Registry

/-!
The handles of written types.

A registry that has the names and lists of a written type has one handle for it. The handle says all
that is written: it is shown as the type was, it excludes null where that was marked, and below its lists
is the name that was written.
-/

namespace GraphQL

namespace TypeRegistry

variable {r r' : TypeRegistry} {t e : TypeId} {ref : TypeRef}

/-- The handle of a written type, if all its names and lists have slots. -/
def ofRef? (r : TypeRegistry) : TypeRef → Option TypeId
  | .named n => r.named? n.text
  | .list t _ => (r.ofRef? t).bind r.listOf?
  | .nonNull t _ => (r.ofRef? t).map (·.nonNull)

lemma ofRef?_of_extends (hr : r'.WellFormed) (h : Extends r r') (ht : r.ofRef? ref = some t) :
    r'.ofRef? ref = some t := by
  induction ref generalizing t with
  | named n => exact find?_of_extends hr h ht
  | list ref p ih =>
    obtain ⟨e, he, ht⟩ := Option.bind_eq_some_iff.mp ht
    exact Option.bind_eq_some_iff.mpr ⟨e, ih he, find?_of_extends hr h ht⟩
  | nonNull ref p ih =>
    obtain ⟨e, he, rfl⟩ := Option.map_eq_some_iff.mp ht
    exact Option.map_eq_some_iff.mpr ⟨e, ih he, rfl⟩

lemma isNonNull_ofRef? (h : r.ofRef? ref = some t) : t.isNonNull = ref.isNonNull := by
  cases ref with
  | named n => exact (find?_spec h).2.1
  | list ref p =>
    obtain ⟨e, -, ht⟩ := Option.bind_eq_some_iff.mp h
    exact (find?_spec ht).2.1
  | nonNull ref p =>
    obtain ⟨e, -, rfl⟩ := Option.map_eq_some_iff.mp h
    rfl

lemma element?_named {name : String} (h : r.named? name = some t) : r.element? t = none := by
  rw [element?, (find?_spec h).2.2]

lemma element?_listOf? (h : r.listOf? e = some t) : r.element? t = some e := by
  rw [element?, (find?_spec h).2.2]

lemma innermost_nonNull (hr : r.WellFormed) (t : TypeId) : r.innermost t.nonNull = r.innermost t := by
  cases he : r.element? t with
  | none => rw [innermost_single he, innermost_single (by rwa [element?_nonNull]), TypeId.nullable_nonNull]
  | some e => rw [innermost_list hr he, innermost_list hr (by rwa [element?_nonNull])]

/-- Below the lists of a written type is its name. -/
lemma innermost_ofRef? (hr : r.WellFormed) (h : r.ofRef? ref = some t) :
    r.named? ref.innermost.text = some (r.innermost t) := by
  induction ref generalizing t with
  | named n =>
    have hnull := (find?_spec h).2.1
    rw [innermost_single (element?_named h)]
    cases t
    cases hnull
    exact h
  | list ref p ih =>
    obtain ⟨e, he, ht⟩ := Option.bind_eq_some_iff.mp h
    rw [innermost_list hr (element?_listOf? ht)]
    exact ih he
  | nonNull ref p ih =>
    obtain ⟨e, he, rfl⟩ := Option.map_eq_some_iff.mp h
    rw [innermost_nonNull hr]
    exact ih he

/-! ### Names of types -/

lemma nameOf_single (h : r.element? t = none) {name : String} (hs : r.shape? t = some (.named name)) :
    r.nameOf t = name ++ if t.isNonNull then "!" else "" := by
  simp [nameOf, layers_single h, hs]

lemma nameOf_list (hr : r.WellFormed) (h : r.element? t = some e) :
    r.nameOf t = "[" ++ r.nameOf e ++ "]" ++ if t.isNonNull then "!" else "" := by
  simp [nameOf, layers_list hr h]

lemma nameOf_nonNull (hr : r.WellFormed) (ht : t.isNonNull = false) : r.nameOf t.nonNull = r.nameOf t ++ "!" := by
  cases he : r.element? t with
  | none =>
    have hshape : r.shape? t.nonNull = r.shape? t := rfl
    have hlayers : r.layers t.nonNull = ([], t.nonNull) := layers_single (by rwa [element?_nonNull])
    simp [nameOf, layers_single he, hlayers, hshape, ht]
  | some e =>
    rw [nameOf_list hr he, nameOf_list hr (t := t.nonNull) (by rwa [element?_nonNull])]
    simp [ht, String.append_assoc]

/-- A handle is shown as the type is written. -/
lemma nameOf_ofRef? (hr : r.WellFormed) (href : ref.MarksOnce) (h : r.ofRef? ref = some t) :
    r.nameOf t = ref.render := by
  induction href generalizing t with
  | @named n =>
    obtain ⟨-, hnull, hshape⟩ := find?_spec h
    rw [nameOf_single (element?_named h) hshape, hnull]
    exact String.append_empty
  | @list ref p _ ih =>
    obtain ⟨e, he, ht⟩ := Option.bind_eq_some_iff.mp h
    rw [nameOf_list hr (element?_listOf? ht), ih he, (find?_spec ht).2.1]
    exact String.append_empty
  | @nonNull ref p _ once ih =>
    obtain ⟨e, he, rfl⟩ := Option.map_eq_some_iff.mp h
    have hnull : e.isNonNull = false := (isNonNull_ofRef? he).trans once
    rw [nameOf_nonNull hr hnull, ih he]
    rfl

end TypeRegistry

end GraphQL
