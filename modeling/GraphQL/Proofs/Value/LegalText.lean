import Mathlib.Tactic
import GraphQL.Execution.Leaf

/-!
The texts that stand for leaves.

Whatever a leaf was coerced or completed from, its text is one that its type has values for.
-/

namespace GraphQL

namespace NamedType

/-- The texts of the values of a leaf type. A scalar that the schema declares takes every text. -/
def IsLegalText (n : NamedType) (text : String) : Prop :=
  match n.body with
  | .scalar (some .int) => ∃ k : Int, Reading.inInt32 k = true ∧ text = toString k
  | .scalar (some .float) => ∃ x : Binary64, x.isFinite = true ∧ text = Layout.plain.render x
  | .scalar (some .boolean) => text = "true" ∨ text = "false"
  | .scalar _ => True
  | .enum values => ∃ e ∈ values, e.name = text
  | .object _ | .inputObject _ => False

end NamedType

/-- The texts of the values of the leaf type below all list layers of a type. -/
def LegalText (s : Schema) (t : TypeId) (text : String) : Prop :=
  ∃ n, s.named? t = some n ∧ n.IsLegalText text

namespace HostScalar

variable {v : HostScalar} {text : String}

lemma ofBool_eq (b : Bool) : ofBool b = "true" ∨ ofBool b = "false" := by
  cases b
  · exact Or.inr rfl
  · exact Or.inl rfl

lemma int32Text_legal {n : Int} (h : int32Text n = some text) :
    ∃ k : Int, Reading.inInt32 k = true ∧ text = toString k := by
  unfold int32Text at h
  split at h
  · rename_i hn
    exact ⟨n, hn, (Option.some.inj h).symm⟩
  · simp at h

lemma floatText_legal {x : Binary64} (h : floatText x = some text) :
    ∃ y : Binary64, y.isFinite = true ∧ text = Layout.plain.render y := by
  unfold floatText at h
  split at h
  · rename_i hx
    exact ⟨x, hx, (Option.some.inj h).symm⟩
  · simp at h

lemma toInt_legal (h : v.toInt = some text) :
    ∃ k : Int, Reading.inInt32 k = true ∧ text = toString k := by
  cases v with
  | bool b =>
    have ht := Option.some.inj h
    cases b
    · exact ⟨0, by decide, ht.symm⟩
    · exact ⟨1, by decide, ht.symm⟩
  | int n => exact int32Text_legal h
  | float x =>
    obtain ⟨n, -, hn⟩ := Option.bind_eq_some_iff.mp h
    exact int32Text_legal hn
  | string s =>
    obtain ⟨n, hn, ht⟩ := Option.map_eq_some_iff.mp h
    exact ⟨n, (Option.filter_eq_some_iff.mp hn).2, ht.symm⟩

lemma toFloat_legal (h : v.toFloat = some text) :
    ∃ x : Binary64, x.isFinite = true ∧ text = Layout.plain.render x := by
  cases v with
  | bool b =>
    have h0 : Layout.plain.render (.ofInt 0) = "0" := by decide +kernel
    have h1 : Layout.plain.render (.ofInt 1) = "1" := by decide +kernel
    have ht : (if b then "1" else "0") = text := Option.some.inj h
    cases b
    · refine ⟨.ofInt 0, by decide +kernel, ?_⟩
      exact (ht.symm.trans (if_neg Bool.false_ne_true)).trans h0.symm
    · refine ⟨.ofInt 1, by decide +kernel, ?_⟩
      exact (ht.symm.trans (if_pos rfl)).trans h1.symm
  | int n => exact floatText_legal h
  | float x => exact floatText_legal h
  | string s =>
    rw [toFloat, Option.bind_eq_some_iff] at h
    obtain ⟨x, -, hx⟩ := h
    exact floatText_legal hx

lemma toBoolean_legal (h : v.toBoolean = some text) : text = "true" ∨ text = "false" := by
  cases v with
  | bool b => exact Option.some.inj h ▸ ofBool_eq b
  | int n => exact Option.some.inj h ▸ ofBool_eq _
  | float x => simp [toBoolean] at h
  | string s => simp [toBoolean] at h

lemma toEnum_legal {values : List EnumValueSpec} (h : v.toEnum values = some text) :
    ∃ e ∈ values, e.name = text := by
  cases v with
  | string s =>
    simp only [toEnum] at h
    split at h
    · rename_i hs
      obtain ⟨e, he, hn⟩ := List.any_eq_true.mp hs
      exact ⟨e, he, (beq_iff_eq.mp hn).trans (Option.some.inj h)⟩
    · simp at h
  | bool b => simp [toEnum] at h
  | int n => simp [toEnum] at h
  | float x => simp [toEnum] at h

/-- A leaf of a host becomes a text that its type has a value for. -/
lemma toLeaf_legal {s : Schema} {t : TypeId} (hl : s.isLeaf t = true)
    (h : v.toLeaf s t = some text) : LegalText s t text := by
  unfold Schema.isLeaf Schema.isScalar Schema.isEnum Schema.kind? at hl
  unfold toLeaf Schema.builtin? at h
  cases hn : s.named? t with
  | none => simp [hn] at hl
  | some n =>
    refine ⟨n, hn, ?_⟩
    obtain ⟨name, description, body⟩ := n
    cases body with
    | object fields => simp [hn, NamedType.kind] at hl
    | inputObject fields => simp [hn, NamedType.kind] at hl
    | enum values => exact toEnum_legal (by simpa [hn, NamedType.enumValues?] using h)
    | scalar builtin =>
      have ht : v.toScalar builtin = some text := by
        simpa [hn, NamedType.enumValues?, NamedType.builtin?] using h
      rcases builtin with _ | _ | _ | _ | _ | _
      · trivial
      · exact toInt_legal ht
      · exact toFloat_legal ht
      · trivial
      · exact toBoolean_legal ht
      · trivial

end HostScalar

end GraphQL
