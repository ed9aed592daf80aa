import Mathlib.Tactic
import GraphQL.Type.Registry

/-!
Registries in which every list has a slot behind its element.

They are the ones that interning makes, and in them the layers of a type end: what is below them is no
list. `TypeRegistry.typeInduction` is induction along the elements of lists.
-/

namespace GraphQL

namespace TypeRegistry

/-- The handles of the types of a registry. -/
def Has (r : TypeRegistry) (t : TypeId) : Prop := t.registry = r.id ∧ t.slot < r.size

/-- No type stands in two slots, and the element of a list was there before the list. -/
structure WellFormed (r : TypeRegistry) : Prop where
  nodup : r.shapes.Nodup
  element_lt : ∀ (slot : Nat) (e : TypeId),
    r.shapes[slot]? = some (TypeShape.list e) → e.registry = r.id ∧ e.slot < slot

/-- A registry that has all types of another one in the same slots. -/
structure Extends (r r' : TypeRegistry) : Prop where
  id_eq : r'.id = r.id
  isPrefix : r.shapes <+: r'.shapes

variable {r r' r'' : TypeRegistry} {t e : TypeId} {s : TypeShape}

namespace Extends

lemma refl (r : TypeRegistry) : Extends r r := ⟨rfl, List.prefix_refl _⟩

lemma trans (h : Extends r r') (h' : Extends r' r'') : Extends r r'' :=
  ⟨h'.id_eq.trans h.id_eq, h.isPrefix.trans h'.isPrefix⟩

lemma has (h : Extends r r') (ht : r.Has t) : r'.Has t :=
  ⟨ht.1.trans h.id_eq.symm, lt_of_lt_of_le ht.2 h.isPrefix.length_le⟩

lemma shape? (h : Extends r r') (ht : r.Has t) : r'.shape? t = r.shape? t := by
  have ho : r'.owns t = r.owns t := by simp [owns, h.id_eq]
  obtain ⟨more, hm⟩ := h.isPrefix
  unfold TypeRegistry.shape?
  rw [ho, ← hm, List.getElem?_append_left ht.2]

end Extends

lemma Has.nonNull (h : r.Has t) : r.Has t.nonNull := h

lemma has_of_shape? (h : r.shape? t = some s) : r.Has t := by
  unfold shape? at h
  split at h
  · rename_i ho
    obtain ⟨hlt, -⟩ := List.getElem?_eq_some_iff.mp h
    exact ⟨of_decide_eq_true ho, hlt⟩
  · simp at h

lemma mem_of_shape? {s : TypeShape} (h : r.shape? t = some s) : s ∈ r.shapes := by
  unfold shape? at h
  split at h
  · exact List.mem_of_getElem? h
  · cases h

/-- A type is a name or a list. -/
lemma Has.shape? (h : r.Has t) :
    (∃ name, r.shape? t = some (.named name)) ∨ ∃ e, r.shape? t = some (.list e) := by
  have hshape : r.shape? t = r.shapes[t.slot]? := by simp [TypeRegistry.shape?, owns, h.1]
  obtain ⟨s, hs⟩ : ∃ s, r.shapes[t.slot]? = some s := ⟨_, List.getElem?_eq_getElem h.2⟩
  rw [hshape, hs]
  cases s with
  | named name => exact .inl ⟨name, rfl⟩
  | list e => exact .inr ⟨e, rfl⟩

/-- A type that is no list is a name. -/
lemma Has.named_of_single (h : r.Has t) (hsingle : r.element? t = none) :
    ∃ name, r.shape? t = some (.named name) := by
  rcases h.shape? with hname | ⟨e, hlist⟩
  · exact hname
  · simp [element?, hlist] at hsingle

lemma has_of_element? (h : r.element? t = some e) : r.Has t := by
  unfold element? at h
  split at h
  · rename_i hs
    exact has_of_shape? hs
  · simp at h

@[simp] lemma shape?_nullable (t : TypeId) : r.shape? t.nullable = r.shape? t := rfl
@[simp] lemma element?_nullable (t : TypeId) : r.element? t.nullable = r.element? t := rfl
@[simp] lemma element?_nonNull (t : TypeId) : r.element? t.nonNull = r.element? t := rfl

/-! ### Interning -/

lemma find?_spec (h : r.find? s = some t) :
    r.Has t ∧ t.isNonNull = false ∧ r.shape? t = some s := by
  obtain ⟨i, hi, rfl⟩ := Option.map_eq_some_iff.mp h
  obtain ⟨hlt, hs, -⟩ := List.idxOf?_eq_some_iff.mp hi
  refine ⟨⟨rfl, hlt⟩, rfl, ?_⟩
  simp [shape?, owns, handle, List.getElem?_eq_getElem hlt, hs]

lemma find?_isSome_iff : (r.find? s).isSome ↔ s ∈ r.shapes := by
  simp [find?]

lemma intern_spec (hr : r.WellFormed)
    (hs : ∀ e, s = .list e → r.Has e) :
    (r.intern s).2.WellFormed ∧ Extends r (r.intern s).2 ∧ (r.intern s).2.Has (r.intern s).1 ∧
      (r.intern s).1.isNonNull = false ∧
      (r.intern s).2.find? s = some (r.intern s).1 := by
  unfold intern
  split
  · rename_i t ht
    obtain ⟨hhas, hnull, -⟩ := find?_spec ht
    exact ⟨hr, Extends.refl r, hhas, hnull, ht⟩
  · rename_i hnone
    have hmem : s ∉ r.shapes := by
      simpa [find?] using hnone
    refine ⟨⟨?_, ?_⟩, ⟨rfl, List.prefix_append _ _⟩, ⟨rfl, by simp [handle, size]⟩, rfl, ?_⟩
    · rw [List.nodup_append]
      refine ⟨hr.nodup, List.nodup_singleton s, ?_⟩
      intro a ha b hb hab
      rw [List.mem_singleton] at hb
      exact hmem (hb ▸ hab ▸ ha)
    · intro slot e he
      rcases Nat.lt_or_ge slot r.shapes.length with hlt | hge
      · rw [List.getElem?_append_left hlt] at he
        exact hr.element_lt slot e he
      · rw [List.getElem?_append_right hge] at he
        have h0 : slot - r.shapes.length = 0 := by
          by_contra hc
          rw [List.getElem?_eq_none (by simp; omega)] at he
          simp at he
        rw [h0] at he
        have hse : s = .list e := by simpa using he
        obtain ⟨hid, hslot⟩ := hs e hse
        exact ⟨hid, lt_of_lt_of_le hslot hge⟩
    · have hidx : (r.shapes ++ [s]).idxOf? s = some r.size := by
        rw [List.idxOf?_eq_some_iff]
        refine ⟨by simp [size], by simp [size], ?_⟩
        intro j hj hjs
        rw [List.getElem_append_left hj] at hjs
        exact hmem (hjs ▸ List.getElem_mem hj)
      simp [find?, hidx, handle]

lemma find?_of_extends (hr : r'.WellFormed) (h : Extends r r') (hf : r.find? s = some t) :
    r'.find? s = some t := by
  obtain ⟨i, hi, rfl⟩ := Option.map_eq_some_iff.mp hf
  obtain ⟨hlt, hs, -⟩ := List.idxOf?_eq_some_iff.mp hi
  obtain ⟨more, hm⟩ := h.isPrefix
  have hlt' : i < r'.shapes.length := by
    rw [← hm, List.length_append]
    omega
  have hs' : r'.shapes[i] = s := by
    have h1 : r'.shapes[i]? = some s := by
      rw [← hm, List.getElem?_append_left hlt, List.getElem?_eq_getElem hlt, hs]
    rw [List.getElem?_eq_getElem hlt'] at h1
    exact Option.some.inj h1
  refine Option.map_eq_some_iff.mpr ⟨i, ?_, by simp [handle, h.id_eq]⟩
  rw [List.idxOf?_eq_some_iff]
  refine ⟨hlt', hs', ?_⟩
  intro j hj hjs
  have hji := (List.Nodup.getElem_inj_iff hr.nodup).mp (hjs.trans hs'.symm)
  omega

/-! ### Elements and layers -/

lemma element_slot_lt (hr : r.WellFormed) (h : r.element? t = some e) :
    r.Has e ∧ e.slot < t.slot := by
  have ht := has_of_element? h
  unfold element? at h
  split at h
  · rename_i e' hs
    rw [Option.some.inj h] at hs
    unfold shape? at hs
    split at hs
    · obtain ⟨hid, hlt⟩ := hr.element_lt _ _ hs
      exact ⟨⟨hid, hlt.trans ht.2⟩, hlt⟩
    · simp at hs
  · simp at h

/-- **Induction along elements**: what holds of types that are no lists, and of a list if it holds of
its element, holds of every type. -/
theorem typeInduction (hr : r.WellFormed) {P : TypeId → Prop}
    (single : ∀ t, r.element? t = none → P t)
    (list : ∀ t e, r.element? t = some e → P e → P t) (t : TypeId) : P t := by
  generalize hn : t.slot = n
  induction n using Nat.strong_induction_on generalizing t with
  | _ n ih =>
    cases he : r.element? t with
    | none => exact single t he
    | some e => exact list t e he (ih e.slot (hn ▸ (element_slot_lt hr he).2) e rfl)

lemma layersWithin_single (n : Nat) (h : r.element? t = none) : r.layersWithin n t = ([], t) := by
  cases n with
  | zero => rfl
  | succ n => simp [layersWithin, h]

lemma layersWithin_list (n : Nat) (h : r.element? t = some e) :
    r.layersWithin (n + 1) t = (t :: (r.layersWithin n e).1, (r.layersWithin n e).2) := by
  simp [layersWithin, h]

lemma layersWithin_stable (hr : r.WellFormed) (n m : Nat) (t : TypeId) (hn : t.slot < n)
    (hm : t.slot < m) : r.layersWithin n t = r.layersWithin m t := by
  induction n generalizing m t with
  | zero => omega
  | succ n ih =>
    obtain ⟨m, rfl⟩ : ∃ k, m = k + 1 := ⟨m - 1, by omega⟩
    cases he : r.element? t with
    | none => rw [layersWithin_single _ he, layersWithin_single _ he]
    | some e =>
      have hlt := (element_slot_lt hr he).2
      simp only [layersWithin, he]
      rw [ih m e (by omega) (by omega)]

lemma layers_single (h : r.element? t = none) : r.layers t = ([], t) := layersWithin_single _ h

lemma layers_list (hr : r.WellFormed) (h : r.element? t = some e) :
    r.layers t = (t :: (r.layers e).1, (r.layers e).2) := by
  have hlt := (has_of_element? h).2
  have he := element_slot_lt hr h
  unfold layers
  obtain ⟨n, hn⟩ : ∃ n, r.size = n + 1 := ⟨r.size - 1, by omega⟩
  rw [hn] at hlt ⊢
  rw [layersWithin_list n h, layersWithin_stable hr n (n + 1) e (by omega) (by omega)]

/-- Below all layers there is no list. -/
lemma element?_base (hr : r.WellFormed) (t : TypeId) : r.element? (r.layers t).2 = none := by
  induction t using typeInduction hr with
  | single t h => rw [layers_single h, h]
  | list t e h ih => rw [layers_list hr h, ih]

lemma innermost_single (h : r.element? t = none) : r.innermost t = t.nullable := by
  rw [innermost, layers_single h]

lemma innermost_list (hr : r.WellFormed) (h : r.element? t = some e) :
    r.innermost t = r.innermost e := by
  rw [innermost, innermost, layers_list hr h]

lemma element?_innermost (hr : r.WellFormed) (t : TypeId) : r.element? (r.innermost t) = none := by
  rw [innermost, element?_nullable, element?_base hr]

lemma innermost_base (hr : r.WellFormed) (t : TypeId) :
    r.innermost (r.layers t).2 = r.innermost t := by
  rw [innermost_single (element?_base hr t), innermost]

@[simp] lemma isNonNull_innermost (t : TypeId) : (r.innermost t).isNonNull = false := rfl

end TypeRegistry

end GraphQL
