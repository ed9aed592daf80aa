import GraphQL.Proofs.Document.Legal
import GraphQL.Proofs.Document.Nesting
import GraphQL.Proofs.Number.ReadBack
import GraphQL.Proofs.Value.WellTyped
import GraphQL.Value.Rendering

/-!
Values written as literals.

A value is written with a kind for each of its leaves. Only whether a leaf is a string shows in the text,
so a float without a point can be read back as an integer. What is written for a well-typed value can
stand in a document.
-/

namespace GraphQL

namespace Value

variable {kind kind' : TypeId → String → LiteralKind}

mutual

/-- The literal for a value, with leaves of the kinds that are given. -/
def write (kind : TypeId → String → LiteralKind) : Value → Literal
  | null _ => .null .start
  | scalar t text => .scalar (kind t text) text .start
  | list _ items => .list (writeItems kind items) .start
  | object _ fields => .object (writeFields kind fields) .start

def writeItems (kind : TypeId → String → LiteralKind) : List Value → List Literal
  | [] => []
  | v :: vs => v.write kind :: writeItems kind vs

def writeFields (kind : TypeId → String → LiteralKind) : List (String × Value) → List (Name × Literal)
  | [] => []
  | (n, v) :: fs => (⟨n, .start⟩, v.write kind) :: writeFields kind fs

end

lemma writeItems_eq (items : List Value) : writeItems kind items = items.map (write kind) := by
  induction items with
  | nil => rfl
  | cons v vs ih => rw [writeItems, ih, List.map_cons]

lemma writeFields_eq (fields : List (String × Value)) :
    writeFields kind fields = fields.map fun f => (⟨f.1, .start⟩, f.2.write kind) := by
  induction fields with
  | nil => rfl
  | cons f fs ih => rw [writeFields, ih, List.map_cons]

/-! ### The literal that denotes a value -/

mutual

lemma toLiteral_eq_write (s : Schema) : ∀ v : Value, v.toLiteral s = v.write fun t _ => leafKind s t
  | null _ => rfl
  | scalar .. => rfl
  | list _ items => by rw [toLiteral, write, itemsToLiteral_eq_write s items]
  | object _ fields => by rw [toLiteral, write, fieldsToLiteral_eq_write s fields]

lemma itemsToLiteral_eq_write (s : Schema) : ∀ items : List Value,
    itemsToLiteral s items = writeItems (fun t _ => leafKind s t) items
  | [] => rfl
  | v :: vs => by rw [itemsToLiteral, writeItems, toLiteral_eq_write s v, itemsToLiteral_eq_write s vs]

lemma fieldsToLiteral_eq_write (s : Schema) : ∀ fields : List (String × Value),
    fieldsToLiteral s fields = writeFields (fun t _ => leafKind s t) fields
  | [] => rfl
  | (n, v) :: fs => by rw [fieldsToLiteral, writeFields, toLiteral_eq_write s v, fieldsToLiteral_eq_write s fs]

end

/-! ### The text of a literal -/

mutual

/-- The kinds of leaves only show in the text where one is a string. -/
lemma render_write (h : ∀ t text, kind t text = .string ↔ kind' t text = .string) :
    ∀ v : Value, (v.write kind).render = (v.write kind').render
  | null _ => rfl
  | scalar t text => by
    have := h t text
    rw [write, write]
    generalize kind t text = k at this
    generalize kind' t text = k' at this
    cases k <;> cases k' <;> simp_all [Literal.render]
  | list _ items => by rw [write, write, Literal.render, Literal.render, renderItems_write h items]
  | object _ fields => by rw [write, write, Literal.render, Literal.render, renderFields_write h fields]

lemma renderItems_write (h : ∀ t text, kind t text = .string ↔ kind' t text = .string) :
    ∀ items : List Value, Literal.renderItems (writeItems kind items) = Literal.renderItems (writeItems kind' items)
  | [] => rfl
  | v :: vs => by
    rw [writeItems, writeItems, Literal.renderItems, Literal.renderItems, render_write h v, renderItems_write h vs]

lemma renderFields_write (h : ∀ t text, kind t text = .string ↔ kind' t text = .string) :
    ∀ fields : List (String × Value),
      Literal.renderFields (writeFields kind fields) = Literal.renderFields (writeFields kind' fields)
  | [] => rfl
  | (n, v) :: fs => by
    rw [writeFields, writeFields, Literal.renderFields, Literal.renderFields, render_write h v,
      renderFields_write h fs]

end

mutual

lemma nesting_write : ∀ v : Value, (v.write kind).nesting = (v.write kind').nesting
  | null _ => rfl
  | scalar .. => rfl
  | list _ items => by rw [write, write, Literal.nesting, Literal.nesting, nestingOfItems_write items]
  | object _ fields => by rw [write, write, Literal.nesting, Literal.nesting, nestingOfFields_write fields]

lemma nestingOfItems_write : ∀ items : List Value,
    Literal.nestingOfItems (writeItems kind items) = Literal.nestingOfItems (writeItems kind' items)
  | [] => rfl
  | v :: vs => by
    rw [writeItems, writeItems, Literal.nestingOfItems, Literal.nestingOfItems, nesting_write v,
      nestingOfItems_write vs]

lemma nestingOfFields_write : ∀ fields : List (String × Value),
    Literal.nestingOfFields (writeFields kind fields) = Literal.nestingOfFields (writeFields kind' fields)
  | [] => rfl
  | (n, v) :: fs => by
    rw [writeFields, writeFields, Literal.nestingOfFields, Literal.nestingOfFields, nesting_write v,
      nestingOfFields_write fs]

end

end Value

/-! ### Kinds that show in the text -/

/-- The kind of literal that denotes a leaf of a type. -/
def NamedType.leafKind (n : NamedType) : LiteralKind :=
  match n.body with
  | .enum _ => .enum
  | .scalar (some .int) => .int
  | .scalar (some .float) => .float
  | .scalar (some .boolean) => .boolean
  | _ => .string

/-- A leaf of a kind can be spelled as one of another: floats may look like integers. -/
def LiteralKind.Spells (spelled kind : LiteralKind) : Prop := spelled = kind ∨ kind = .float ∧ spelled = .int

namespace Schema

variable {s : Schema} {t : TypeId} {n : NamedType} {text : String} {v : Value}

/-- Leaves are spelled as their types have it. -/
def Suits (s : Schema) (kind : TypeId → String → LiteralKind) : Prop :=
  ∀ t text, (kind t text).Spells (leafKind s t)

/-- The kind of the token that a leaf is written as. A float without a point looks like an integer. -/
def spelledKind (s : Schema) (t : TypeId) (text : String) : LiteralKind :=
  if leafKind s t = .float ∧ '.' ∉ text.toList then .int else leafKind s t

lemma suits_leafKind (s : Schema) : s.Suits fun t _ => leafKind s t := fun _ _ => .inl rfl

lemma suits_spelledKind (s : Schema) : s.Suits s.spelledKind := by
  intro t text
  unfold spelledKind
  split
  · rename_i h
    exact .inr ⟨h.1, rfl⟩
  · exact .inl rfl

lemma Suits.string_iff {kind : TypeId → String → LiteralKind} (h : s.Suits kind) (t : TypeId) (text : String) :
    kind t text = .string ↔ leafKind s t = .string := by
  rcases h t text with heq | ⟨hfloat, hint⟩
  · rw [heq]
  · simp [hfloat, hint]

/-- What a leaf is written as depends on the type below its layers. -/
lemma leafKind_eq (hn : s.named? t = some n) : leafKind s t = n.leafKind := by
  obtain ⟨name, description, body⟩ := n
  unfold leafKind isEnum kind? builtin?
  rw [hn]
  cases body with
  | scalar builtin => rcases builtin with _ | _ | _ | _ | _ | _ <;> rfl
  | _ => rfl

end Schema

/-! ### Legal literals -/

/-- Enum values and input fields have names that can be written. -/
def NamedTypeBody.HasLegalNames : NamedTypeBody → Prop
  | scalar _ | object _ => True
  | enum values => ∀ v ∈ values, LiteralKind.enum.IsLegalText v.name
  | inputObject fields => ∀ f ∈ fields, Lexeme.IsName f.name.toList

namespace Schema

variable {s : Schema} {t : TypeId} {n : NamedType} {text : String} {v : Value}

def HasLegalNames (s : Schema) : Prop := ∀ n ∈ s.types, n.body.HasLegalNames

lemma HasLegalNames.named? (h : s.HasLegalNames) (hn : s.named? t = some n) : n.body.HasLegalNames := by
  unfold Schema.named? at hn
  split at hn
  · exact h n (List.mem_of_find?_eq_some hn)
  · cases hn

/-- The text of a leaf is a token of the kind that it is spelled as. -/
lemma isLegalText_spelledKind (h : s.HasLegalNames) (htext : LegalText s t text) :
    (s.spelledKind t text).IsLegalText text := by
  obtain ⟨n, hn, hlegal⟩ := htext
  have hnames := h.named? hn
  unfold spelledKind
  rw [leafKind_eq hn]
  obtain ⟨name, description, body⟩ := n
  cases body with
  | object fields => cases hlegal
  | inputObject fields => cases hlegal
  | enum values =>
    obtain ⟨v, hv, rfl⟩ := hlegal
    exact hnames v hv
  | scalar builtin =>
    rcases builtin with _ | _ | _ | _ | _ | _
    · trivial
    · obtain ⟨k, -, rfl⟩ := hlegal
      exact isInt_toString k
    · obtain ⟨x, hx, rfl⟩ := hlegal
      have hspells := Layout.plain_render_spells hx
      by_cases hpoint : '.' ∈ (Layout.plain.render x).toList
      · rw [if_neg fun h => h.2 hpoint]
        rwa [if_pos hpoint] at hspells
      · rw [if_pos ⟨rfl, hpoint⟩]
        rwa [if_neg hpoint] at hspells
    · trivial
    · exact hlegal
    · trivial

end Schema

/-- **A well-typed value can be written.** -/
theorem WellTyped.write_isLegal {s : Schema} {t : TypeId} {v : Value} (hs : s.HasLegalNames)
    (h : WellTyped s t v) : (v.write s.spelledKind).IsLegal := by
  induction h with
  | null => exact .null
  | scalar single legal => exact .scalar (Schema.isLegalText_spelledKind hs legal)
  | list element _ ih =>
    rw [Value.write, Value.writeItems_eq]
    refine .list fun l hl => ?_
    obtain ⟨v, hv, rfl⟩ := List.mem_map.mp hl
    exact ih v hv
  | @object t declared fields single isInput names _ ih =>
    rw [Value.write, Value.writeFields_eq]
    refine .object (fun l hl => ?_) fun l hl => ?_
    · obtain ⟨f, hf, rfl⟩ := List.mem_map.mp hl
      have hmem : f.1 ∈ declared.map (·.1) := names ▸ List.mem_map_of_mem hf
      obtain ⟨is, his, rfl⟩ := Option.map_eq_some_iff.mp isInput
      obtain ⟨n, hn, hfields⟩ := Option.bind_eq_some_iff.mp his
      rw [List.map_map] at hmem
      obtain ⟨i, hi, hname⟩ := List.mem_map.mp hmem
      have hnames := hs.named? hn
      obtain ⟨name, description, body⟩ := n
      cases body <;> cases hfields
      exact hname ▸ hnames i hi
    · obtain ⟨f, hf, rfl⟩ := List.mem_map.mp hl
      obtain ⟨d, hmem⟩ := exists_mem_zip (Schema.names_eq_iff.mp names).length_eq hf
      exact ih (d, f) hmem

end GraphQL
