import GraphQL.Execution
import GraphQL.Parser
import GraphQL.Proofs.Schema.Build
import GraphQL.Schema.Builder

/-!
A small schema with a request, for statements that are tried out on one.
-/

namespace GraphQL

namespace Sample

def schemaText : String :=
  "type Query \x7b pet(id: ID!, depth: Int! = 3): Pet, pets: [Pet!]! \x7d "
    ++ "type Pet \x7b id: ID!, name: String, kind: Kind, owner(filter: Filter): Pet \x7d "
    ++ "enum Kind \x7b CAT DOG \x7d "
    ++ "input Filter \x7b names: [String!], kind: Kind = CAT, inner: Filter \x7d"

def query : List Char :=
  ("query ($id: ID!, $deep: Boolean! = true, $depth: Int = 2, $filter: Filter) "
    ++ "\x7b pet(id: $id, depth: $depth) \x7b ...Parts "
    ++ "owner(filter: \x7bnames: [\"Tom\"], inner: $filter\x7d) @include(if: $deep) "
    ++ "\x7b ...Parts name \x7d \x7d pets \x7b id \x7d \x7d "
    ++ "fragment Parts on Pet \x7b id kind \x7d").toList

/-- Values for the variables of the query that have no default. -/
def supplied : List (String × Literal) := [("id", .scalar .string "7" .start)]

/-- Values with null for a variable that takes it. -/
def suppliedNull : List (String × Literal) := ("filter", .null .start) :: supplied

/-- The query made ready for the schema. -/
def operation? : Option PreparedOperation := do
  let s ← (Schema.ofText schemaText 0).toOption
  let d ← (Document.parse query).document?
  (s.prepare d query none supplied).toOption

/-- Objects are named, and one of them has no owner to speak of. -/
def host : Host String := fun name r =>
  match r.field.call.name with
  | "pet" => .ok (.object "Tom")
  | "pets" => .ok (.list [.object "Tom", .object "Rex"])
  | "kind" => .ok (.scalar (.string "CAT"))
  | "owner" => .error "gone"
  | _ => .ok (.scalar (.string name))

/-! ### Other requests -/

/-- A schema and a document by their texts. -/
def read? (schemaText : String) (source : List Char) : Option (Schema × Document) := do
  let s ← (Schema.ofText schemaText 0).toOption
  let d ← (Document.parse source).document?
  return (s, d)

/-- What is checked of a schema and a document holds of some that have these texts. -/
lemma exists_of_read {schemaText : String} {source : List Char} {check : Schema × Document → Bool}
    (h : (read? schemaText source).any check = true) :
    ∃ s d, Schema.ofText schemaText 0 = .ok s ∧ (Document.parse source).document? = some d ∧
      check (s, d) = true := by
  obtain ⟨⟨s, d⟩, hread, hcheck⟩ := (Option.any_eq_true _ _).mp h
  obtain ⟨s', hs, hread⟩ := Option.bind_eq_some_iff.mp hread
  obtain ⟨d', hd, heq⟩ := Option.bind_eq_some_iff.mp hread
  obtain ⟨rfl, rfl⟩ := Prod.mk.inj (Option.some.inj heq)
  exact ⟨s', d', toOption_eq_some.mp hs, hd, hcheck⟩

/-! ### Texts by their characters

Running a program on a text in the kernel decodes the text over and over. The characters of a literal are
known without that. -/

lemma toList_append {a b : String} {as bs : List Char} (ha : a.toList = as) (hb : b.toList = bs) :
    (a ++ b).toList = as ++ bs := by
  rw [String.toList_append, ha, hb]

def schemaChars : { chars : List Char // schemaText.toList = chars } :=
  ⟨_, toList_append (toList_append (toList_append String.toList_ofList String.toList_ofList)
    String.toList_ofList) String.toList_ofList⟩

def queryChars : { chars : List Char // query = chars } :=
  ⟨_, toList_append (toList_append (toList_append (toList_append String.toList_ofList String.toList_ofList)
    String.toList_ofList) String.toList_ofList) String.toList_ofList⟩

/-- What is read of a schema and a document by the characters of their texts. -/
def readChars? (schema source : List Char) : Option (Schema × Document) := do
  let d ← (Document.parse schema).document?
  let s ← (Schema.build [⟨none, schema, d.types, false⟩] 0).toOption
  let query ← (Document.parse source).document?
  if (Document.parse schema).errors.isEmpty && !d.definitions.any (·.isExecutable) then return (s, query) else none

lemma read?_of_chars {schemaText : String} {schema source : List Char} {s : Schema} {d : Document}
    (hchars : schemaText.toList = schema) (h : readChars? schema source = some (s, d)) :
    read? schemaText source = some (s, d) := by
  unfold readChars? at h
  simp only [Option.bind_eq_bind, Option.bind_eq_some_iff] at h
  obtain ⟨t, ht, s', hs, d', hd, h⟩ := h
  split at h
  · rename_i hcheck
    obtain ⟨rfl, rfl⟩ := Prod.mk.inj (Option.some.inj h)
    obtain ⟨herrors, hexecutable⟩ := Bool.and_eq_true_iff.mp hcheck
    have hnone : t.definitions.find? (·.isExecutable) = none := by simpa using hexecutable
    have hload : SchemaDocument.load none schemaText = .ok ⟨none, schema, t.types, false⟩ := by
      unfold SchemaDocument.load
      simp only [hchars, List.isEmpty_iff.mp herrors, ht, hnone]
    have hschema : (Schema.ofText schemaText 0).toOption = some s' := by rw [Schema.ofText, hload]; exact hs
    rw [read?, hschema, hd]
    rfl
  · cases h

/-- As `operation?`, by the characters of both texts. -/
def operationChars? (schema source : List Char) : Option PreparedOperation := do
  let read ← readChars? schema source
  (read.1.prepare read.2 source none supplied).toOption

lemma operation?_of_chars {schema source : List Char} {p : PreparedOperation}
    (hschema : schemaText.toList = schema) (hquery : query = source)
    (h : operationChars? schema source = some p) : operation? = some p := by
  obtain ⟨⟨s, d⟩, hread, h⟩ := Option.bind_eq_some_iff.mp h
  have hread := read?_of_chars hschema hread
  unfold read? at hread
  simp only [Option.bind_eq_bind, Option.bind_eq_some_iff] at hread
  obtain ⟨s', hs, d', hd, heq⟩ := hread
  obtain ⟨rfl, rfl⟩ := Prod.mk.inj (Option.some.inj heq)
  rw [operation?, hquery, hs, hd]
  exact h

/-- What is checked of the prepared operation holds of it. -/
lemma exists_operation {check : PreparedOperation → Bool}
    (h : (operationChars? schemaChars.1 queryChars.1).any check = true) :
    ∃ p, operation? = some p ∧ check p = true := by
  obtain ⟨p, hp, hcheck⟩ := (Option.any_eq_true _ _).mp h
  exact ⟨p, operation?_of_chars schemaChars.2 queryChars.2 hp, hcheck⟩

lemma exists_of_chars {schemaText : String} {source schemaChars chars : List Char}
    {check : Schema × Document → Bool} (hschema : schemaText.toList = schemaChars) (hsource : source = chars)
    (h : (readChars? schemaChars chars).any check = true) :
    ∃ s d, Schema.ofText schemaText 0 = .ok s ∧ (Document.parse source).document? = some d ∧
      check (s, d) = true := by
  subst hsource
  obtain ⟨⟨s, d⟩, hread, hcheck⟩ := (Option.any_eq_true _ _).mp h
  exact exists_of_read ((Option.any_eq_true _ _).mpr ⟨(s, d), read?_of_chars hschema hread, hcheck⟩)

end Sample

end GraphQL
