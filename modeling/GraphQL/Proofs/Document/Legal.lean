import GraphQL.Document.TypeRef
import GraphQL.Proofs.Document.Literal
import GraphQL.Proofs.Number.DecimalText

/-!
Literals and types that can be written.

Names are names, numbers are spelled as numbers, and no mark makes a type required that already is.
Texts of strings are free.
-/

namespace GraphQL

/-- The text of a literal could stand in a document as a token of its own. -/
def LiteralKind.IsLegalText (k : LiteralKind) (text : String) : Prop :=
  match k with
  | .int => Lexeme.IsInt text.toList
  | .float => Lexeme.IsFloat text.toList
  | .string => True
  | .boolean => text = "true" ∨ text = "false"
  | .enum => Lexeme.IsName text.toList ∧ text ≠ "null" ∧ text ≠ "true" ∧ text ≠ "false"

inductive Literal.IsLegal : Literal → Prop where
  | null : IsLegal (.null p)
  | var (name : Lexeme.IsName text.toList) : IsLegal (.var text p)
  | scalar (legal : LiteralKind.IsLegalText k text) : IsLegal (.scalar k text p)
  | list (items : ∀ v ∈ vs, IsLegal v) : IsLegal (.list vs p)
  | object (names : ∀ f ∈ fs, Lexeme.IsName (Name.text f.1).toList) (values : ∀ f ∈ fs, IsLegal f.2) :
      IsLegal (.object fs p)

inductive TypeRef.IsLegal : TypeRef → Prop where
  | named (name : Lexeme.IsName (Name.text n).toList) : IsLegal (.named n)
  | list (element : IsLegal t) : IsLegal (.list t p)
  | nonNull (required : IsLegal t) (once : t.isNonNull = false) : IsLegal (.nonNull t p)

/-- No mark makes a type required that already is, whatever the names are. -/
inductive TypeRef.MarksOnce : TypeRef → Prop where
  | named : MarksOnce (.named n)
  | list (element : MarksOnce t) : MarksOnce (.list t p)
  | nonNull (required : MarksOnce t) (once : t.isNonNull = false) : MarksOnce (.nonNull t p)

lemma TypeRef.IsLegal.marksOnce {t : TypeRef} (h : t.IsLegal) : t.MarksOnce := by
  induction h with
  | named => exact .named
  | list _ ih => exact .list ih
  | nonNull _ once ih => exact .nonNull ih once

/-- A JSON value whose members have names that could stand in a document. Its numbers are finite, as
all numbers of JSON are. -/
inductive Json.HasNames : Json → Prop where
  | null : HasNames .null
  | bool : HasNames (.bool b)
  | int : HasNames (.int n)
  | float (finite : Binary64.isFinite x = true) : HasNames (.float x)
  | string : HasNames (.string text)
  | array (items : ∀ j ∈ js, HasNames j) : HasNames (.array js)
  | object (names : ∀ m ∈ ms, Lexeme.IsName (String.toList m.1)) (values : ∀ m ∈ ms, HasNames m.2) :
      HasNames (.object ms)

namespace Literal

mutual

/-- A literal that comes from JSON can be written. -/
lemma ofJson_isLegal : ∀ j : Json, j.HasNames → (ofJson j).IsLegal
  | .null, _ => .null
  | .bool b, _ => .scalar (by cases b <;> simp [LiteralKind.IsLegalText])
  | .int n, _ => .scalar (isInt_toString n)
  | .float x, .float finite => .scalar (Layout.render_isFloat finite)
  | .string s, _ => .scalar trivial
  | .array items, .array hitems => .list (ofJsonItems_isLegal items hitems)
  | .object members, .object hnames hvalues =>
    have hmembers := ofJsonMembers_isLegal members hnames hvalues
    .object (fun f hf => (hmembers f hf).1) fun f hf => (hmembers f hf).2

lemma ofJsonItems_isLegal :
    ∀ js : List Json, (∀ j ∈ js, j.HasNames) → ∀ v ∈ ofJsonItems js, v.IsLegal
  | [], _, v, h => by simp [ofJsonItems] at h
  | j :: js, hjs, v, h => by
    obtain ⟨hj, hjs⟩ := List.forall_mem_cons.mp hjs
    rw [ofJsonItems, List.mem_cons] at h
    rcases h with rfl | h
    · exact ofJson_isLegal j hj
    · exact ofJsonItems_isLegal js hjs v h

lemma ofJsonMembers_isLegal :
    ∀ ms : List (String × Json), (∀ m ∈ ms, Lexeme.IsName (String.toList m.1)) →
      (∀ m ∈ ms, Json.HasNames m.2) →
      ∀ f ∈ ofJsonMembers ms, Lexeme.IsName (Name.text f.1).toList ∧ IsLegal f.2
  | [], _, _, f, h => by simp [ofJsonMembers] at h
  | (n, j) :: ms, hnames, hvalues, f, h => by
    obtain ⟨hn, hnames⟩ := List.forall_mem_cons.mp hnames
    obtain ⟨hj, hvalues⟩ := List.forall_mem_cons.mp hvalues
    rw [ofJsonMembers, List.mem_cons] at h
    rcases h with rfl | h
    · exact ⟨hn, ofJson_isLegal j hj⟩
    · exact ofJsonMembers_isLegal ms hnames hvalues f h

end

end Literal

end GraphQL
