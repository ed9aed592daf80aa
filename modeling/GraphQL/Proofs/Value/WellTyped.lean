import GraphQL.Proofs.Lists
import GraphQL.Proofs.Type.Registry
import GraphQL.Proofs.Value.LegalText

/-!
Values that are what their types say, at every depth.

Whether a value is one does not depend on the defaults of a schema: schemas with the same types have
the same well-typed values.
-/

namespace GraphQL

namespace Schema

/-- The fields of the input object below all list layers of a type, by name and type. -/
def inputTypes? (s : Schema) (t : TypeId) : Option (List (String × TypeId)) :=
  ((s.named? t).bind (·.inputFields?)).map fun fields => fields.map fun f => (f.name, f.type)

end Schema

/-- `v` is a value of type `t`, and so is every part of it of the type of its place. -/
inductive WellTyped (s : Schema) : TypeId → Value → Prop where
  | null {t : TypeId} (nullable : t.isNonNull = false) : WellTyped s t (.null t)
  | scalar {t : TypeId} {text : String} (single : s.element? t = none)
      (legal : LegalText s t text) : WellTyped s t (.scalar t text)
  | list {t e : TypeId} {items : List Value} (element : s.element? t = some e)
      (typed : ∀ v ∈ items, WellTyped s e v) : WellTyped s t (.list t items)
  | object {t : TypeId} {declared : List (String × TypeId)} {fields : List (String × Value)}
      (single : s.element? t = none) (isInput : s.inputTypes? t = some declared)
      (names : fields.map (·.1) = declared.map (·.1))
      (typed : ∀ p ∈ declared.zip fields, WellTyped s p.1.2 p.2.2) :
      WellTyped s t (.object t fields)

namespace Schema

variable {s s' : Schema} {t e : TypeId} {v : Value}

/-! ### The parts of well-typed values -/

lemma wellTyped_null_iff : WellTyped s t (.null e) ↔ e = t ∧ t.isNonNull = false := by
  constructor
  · intro h
    cases h with
    | null nullable => exact ⟨rfl, nullable⟩
  · rintro ⟨rfl, h⟩
    exact .null h

lemma wellTyped_list_iff {items : List Value} (he : s.element? t = some e) :
    WellTyped s t (.list t items) ↔ ∀ v ∈ items, WellTyped s e v := by
  constructor
  · intro h
    cases h with
    | list element typed =>
      rw [he] at element
      exact Option.some.inj element ▸ typed
  · exact .list he

lemma names_eq_iff {α β : Type} {as : List (String × α)} {bs : List (String × β)} :
    bs.map (·.1) = as.map (·.1) ↔ List.Forall₂ (fun a b => a.1 = b.1) as bs := by
  rw [eq_comm, ← List.forall₂_eq_eq_eq, List.forall₂_map_left_iff, List.forall₂_map_right_iff]

lemma wellTyped_object_iff {fields : List (String × Value)} {declared : List (String × TypeId)}
    (hs : s.element? t = none) (hd : s.inputTypes? t = some declared) :
    WellTyped s t (.object t fields) ↔
      List.Forall₂ (fun d f => d.1 = f.1 ∧ WellTyped s d.2 f.2) declared fields := by
  constructor
  · intro h
    cases h with
    | object single isInput names typed =>
      obtain rfl : declared = _ := Option.some.inj (hd.symm.trans isInput)
      obtain ⟨hlen, hnames⟩ := List.forall₂_iff_zip.mp (names_eq_iff.mp names)
      exact List.forall₂_iff_zip.mpr ⟨hlen, fun h => ⟨hnames h, typed _ h⟩⟩
  · intro h
    obtain ⟨-, hzip⟩ := List.forall₂_iff_zip.mp h
    exact .object hs hd (names_eq_iff.mpr (h.imp fun _ _ h => h.1)) fun p hp => (hzip hp).2

/-- A value below list layers, with lists of one around it. -/
lemma wellTyped_layers_iff (hr : s.registry.WellFormed) :
    WellTyped s t ((s.registry.layers t).1.foldr (fun l inner => .list l [inner]) v) ↔
      WellTyped s (s.registry.layers t).2 v := by
  induction t using TypeRegistry.typeInduction hr with
  | single t h => rw [TypeRegistry.layers_single h, List.foldr_nil]
  | list t e h ih =>
    rw [TypeRegistry.layers_list hr h, List.foldr_cons, wellTyped_list_iff h]
    simpa using ih

end Schema

/-! ### Nulls -/

namespace Value

mutual

/-- Null only stands where the type takes it. -/
def nullsFit : Value → Bool
  | null t => !t.isNonNull
  | scalar .. => true
  | list _ items => itemsNullsFit items
  | object _ fields => fieldsNullsFit fields

def itemsNullsFit : List Value → Bool
  | [] => true
  | v :: vs => v.nullsFit && itemsNullsFit vs

def fieldsNullsFit : List (String × Value) → Bool
  | [] => true
  | (_, v) :: fs => v.nullsFit && fieldsNullsFit fs

end

lemma itemsNullsFit_iff (items : List Value) :
    itemsNullsFit items = true ↔ ∀ v ∈ items, v.nullsFit = true := by
  induction items with
  | nil => simp [itemsNullsFit]
  | cons v vs ih => simp [itemsNullsFit, ih]

lemma fieldsNullsFit_iff (fields : List (String × Value)) :
    fieldsNullsFit fields = true ↔ ∀ f ∈ fields, f.2.nullsFit = true := by
  induction fields with
  | nil => simp [fieldsNullsFit]
  | cons f fs ih => simp [fieldsNullsFit, ih]

end Value

/-- In a well-typed value there is no null where the type excludes it. -/
lemma WellTyped.nullsFit {s : Schema} {t : TypeId} {v : Value} (h : WellTyped s t v) :
    v.nullsFit = true := by
  induction h with
  | null nullable => simp [Value.nullsFit, nullable]
  | scalar => rfl
  | list _ _ ih => exact (Value.itemsNullsFit_iff _).mpr ih
  | @object t declared fields single isInput names _ ih =>
    refine (Value.fieldsNullsFit_iff fields).mpr fun f hf => ?_
    obtain ⟨d, hmem⟩ := exists_mem_zip (Schema.names_eq_iff.mp names).length_eq hf
    exact ih (d, f) hmem

/-! ### Types without their defaults -/

namespace InputSpec

def bare (i : InputSpec) : InputSpec := { i with default? := none }

@[simp] lemma bare_name (i : InputSpec) : i.bare.name = i.name := rfl
@[simp] lemma bare_type (i : InputSpec) : i.bare.type = i.type := rfl

end InputSpec

namespace FieldSpec

def bare (f : FieldSpec) : FieldSpec := { f with arguments := f.arguments.map (·.bare) }

end FieldSpec

namespace NamedType

/-- A type without the defaults of its members. -/
def bare (t : NamedType) : NamedType :=
  { t with
    body :=
      match t.body with
      | .object fields => .object (fields.map (·.bare))
      | .inputObject fields => .inputObject (fields.map (·.bare))
      | b => b }

@[simp] lemma bare_name (t : NamedType) : t.bare.name = t.name := rfl

lemma bare_isLegalText (t : NamedType) (text : String) :
    t.bare.IsLegalText text ↔ t.IsLegalText text := by
  obtain ⟨name, description, body⟩ := t
  cases body <;> rfl

lemma bare_inputFields? (t : NamedType) :
    t.bare.inputFields? = t.inputFields?.map fun fields => fields.map (·.bare) := by
  obtain ⟨name, description, body⟩ := t
  cases body <;> rfl

end NamedType

namespace Schema

/-- Two schemas have the same types, up to defaults. -/
structure SameTypes (s s' : Schema) : Prop where
  registry : s'.registry = s.registry
  types : s'.types.map (·.bare) = s.types.map (·.bare)

namespace SameTypes

variable {s s' s'' : Schema} {t e : TypeId} {v : Value}

lemma refl (s : Schema) : SameTypes s s := ⟨rfl, rfl⟩

lemma symm (h : SameTypes s s') : SameTypes s' s := ⟨h.registry.symm, h.types.symm⟩

lemma trans (h : SameTypes s s') (h' : SameTypes s' s'') : SameTypes s s'' :=
  ⟨h'.registry.trans h.registry, h'.types.trans h.types⟩

lemma element? (h : SameTypes s s') : s'.element? t = s.element? t := by
  rw [Schema.element?, Schema.element?, h.registry]

lemma type? (h : SameTypes s s') (name : String) :
    (s'.type? name).map (·.bare) = (s.type? name).map (·.bare) := by
  have hfind (l : List NamedType) : (l.find? fun t => t.name == name).map (·.bare)
      = (l.map (·.bare)).find? fun t => t.name == name := by
    rw [List.find?_map]
    rfl
  rw [Schema.type?, Schema.type?, hfind, hfind, h.types]

lemma named? (h : SameTypes s s') : (s'.named? t).map (·.bare) = (s.named? t).map (·.bare) := by
  unfold Schema.named?
  rw [h.registry]
  split
  · exact h.type? _
  · rfl

lemma legalText (h : SameTypes s s') {text : String} (hl : LegalText s t text) :
    LegalText s' t text := by
  obtain ⟨n, hn, hl⟩ := hl
  have hmap := h.named? (t := t)
  rw [hn, Option.map_some, Option.map_eq_some_iff] at hmap
  obtain ⟨n', hn', heq⟩ := hmap
  refine ⟨n', hn', ?_⟩
  rw [← n'.bare_isLegalText, heq, n.bare_isLegalText]
  exact hl

lemma inputTypes? (h : SameTypes s s') : s'.inputTypes? t = s.inputTypes? t := by
  have hbare (s : Schema) : s.inputTypes? t = (((s.named? t).map (·.bare)).bind
      (·.inputFields?)).map fun fields => fields.map fun f => (f.name, f.type) := by
    unfold Schema.inputTypes?
    cases s.named? t with
    | none => rfl
    | some n =>
      simp only [Option.map_some, Option.bind_some, NamedType.bare_inputFields?, Option.map_map]
      congr 1
      funext fields
      simp [InputSpec.bare]
  rw [hbare s', hbare s, h.named?]

lemma wellTyped (h : SameTypes s s') (hv : WellTyped s t v) : WellTyped s' t v := by
  induction hv with
  | null nullable => exact .null nullable
  | scalar single legal => exact .scalar (h.element?.trans single) (h.legalText legal)
  | list element _ ih => exact .list (h.element?.trans element) ih
  | object single isInput names _ ih =>
    exact .object (h.element?.trans single) (h.inputTypes?.trans isInput) names ih

end SameTypes

end Schema

end GraphQL
