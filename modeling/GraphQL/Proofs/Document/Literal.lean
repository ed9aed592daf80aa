import Mathlib.Tactic
import GraphQL.Json.Literal

/-!
Literals as they come from a text: the boolean ones are `true` and `false`.
-/

namespace GraphQL

namespace Literal

/-- All boolean literals in a literal have one of the two texts. -/
inductive IsProper : Literal → Prop where
  | null (p : Pos) : IsProper (.null p)
  | var (name : String) (p : Pos) : IsProper (.var name p)
  | scalar {kind : LiteralKind} {text : String} (p : Pos)
      (boolean : kind = .boolean → text = "true" ∨ text = "false") :
      IsProper (.scalar kind text p)
  | list {items : List Literal} (p : Pos) (proper : ∀ v ∈ items, IsProper v) :
      IsProper (.list items p)
  | object {fields : List (Name × Literal)} (p : Pos) (proper : ∀ f ∈ fields, IsProper f.2) :
      IsProper (.object fields p)

/-- Induction on literals, through lists and objects alike. -/
theorem induct {P : Literal → Prop} (null : ∀ p, P (.null p)) (var : ∀ name p, P (.var name p))
    (scalar : ∀ kind text p, P (.scalar kind text p))
    (list : ∀ items p, (∀ v ∈ items, P v) → P (.list items p))
    (object : ∀ fields p, (∀ f ∈ fields, P f.2) → P (.object fields p)) : ∀ v, P v
  | .null p => null p
  | .var name p => var name p
  | .scalar kind text p => scalar kind text p
  | .list items p => list items p fun v _ => induct null var scalar list object v
  | .object fields p => object fields p fun f hf =>
    have : sizeOf f.2 < sizeOf fields := by
      have hlt := List.sizeOf_lt_of_mem hf
      obtain ⟨n, v⟩ := f
      rw [Prod.mk.sizeOf_spec] at hlt
      simp only
      omega
    induct null var scalar list object f.2

namespace IsProper

variable {p : Pos} {items : List Literal} {fields : List (Name × Literal)}

lemma item (h : IsProper (.list items p)) {v : Literal} (hv : v ∈ items) : v.IsProper := by
  cases h with
  | list _ proper => exact proper v hv

lemma field (h : IsProper (.object fields p)) {f : Name × Literal} (hf : f ∈ fields) :
    f.2.IsProper := by
  cases h with
  | object _ proper => exact proper f hf

lemma boolean {text : String} (h : IsProper (.scalar .boolean text p)) :
    text = "true" ∨ text = "false" := by
  cases h with
  | scalar _ boolean => exact boolean rfl

end IsProper

mutual

/-- A literal that comes from JSON is proper. -/
lemma ofJson_isProper : ∀ j : Json, (ofJson j).IsProper
  | .null => .null _
  | .bool b => .scalar _ fun _ => by cases b <;> simp
  | .int n => .scalar _ (by simp)
  | .float x => .scalar _ (by simp)
  | .string s => .scalar _ (by simp)
  | .array items => .list _ (ofJsonItems_isProper items)
  | .object members => .object _ (ofJsonMembers_isProper members)

lemma ofJsonItems_isProper : ∀ js : List Json, ∀ v ∈ ofJsonItems js, v.IsProper
  | [], v, h => by simp [ofJsonItems] at h
  | j :: js, v, h => by
    rw [ofJsonItems, List.mem_cons] at h
    rcases h with rfl | h
    · exact ofJson_isProper j
    · exact ofJsonItems_isProper js v h

lemma ofJsonMembers_isProper :
    ∀ ms : List (String × Json), ∀ f ∈ ofJsonMembers ms, f.2.IsProper
  | [], f, h => by simp [ofJsonMembers] at h
  | (n, j) :: ms, f, h => by
    rw [ofJsonMembers, List.mem_cons] at h
    rcases h with rfl | h
    · exact ofJson_isProper j
    · exact ofJsonMembers_isProper ms f h

end

end Literal

end GraphQL
