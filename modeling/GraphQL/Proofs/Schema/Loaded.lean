import GraphQL.Proofs.Parser.Exact.Document
import GraphQL.Proofs.Parser.Legal
import GraphQL.Proofs.Parser.Local
import GraphQL.Proofs.Schema.Build

/-!
What loaded documents are made of.

Where a document is loaded, its definitions are derived from tokens that are cut off its source. So all
names in it are names, and no mark makes a type required that already is.
-/

namespace GraphQL

/-! ### Definitions that can be written -/

structure InputDefinition.IsLegal (d : InputDefinition) : Prop where
  name : Lexeme.IsName d.name.text.toList
  type : d.type.IsLegal

structure FieldDefinition.IsLegal (d : FieldDefinition) : Prop where
  name : Lexeme.IsName d.name.text.toList
  arguments : ∀ a ∈ d.arguments, a.IsLegal
  type : d.type.IsLegal

def TypeBody.IsLegal : TypeBody → Prop
  | scalar => True
  | object fields => ∀ f ∈ fields, f.IsLegal
  | enum values => ∀ v ∈ values, LiteralKind.enum.IsLegalText v.name.text
  | input fields => ∀ f ∈ fields, f.IsLegal

structure TypeDefinition.IsLegal (d : TypeDefinition) : Prop where
  name : Lexeme.IsName d.name.text.toList
  body : d.body.IsLegal

/-! Whether a definition can be written is decided from its names and types. -/

instance : DecidablePred TypeRef.IsLegal
  | .named n => decidable_of_iff (Lexeme.IsName n.text.toList) ⟨.named, fun | .named h => h⟩
  | .list t _ =>
    have := instDecidablePredTypeRefIsLegal t
    decidable_of_iff t.IsLegal ⟨.list, fun | .list h => h⟩
  | .nonNull t _ =>
    have := instDecidablePredTypeRefIsLegal t
    decidable_of_iff (t.IsLegal ∧ t.isNonNull = false) ⟨fun h => .nonNull h.1 h.2, fun | .nonNull h h' => ⟨h, h'⟩⟩

instance : DecidablePred InputDefinition.IsLegal := fun _ =>
  decidable_of_iff (_ ∧ _) ⟨fun h => ⟨h.1, h.2⟩, fun h => ⟨h.name, h.type⟩⟩

instance : DecidablePred FieldDefinition.IsLegal := fun _ =>
  decidable_of_iff (_ ∧ _ ∧ _) ⟨fun h => ⟨h.1, h.2.1, h.2.2⟩, fun h => ⟨h.name, h.arguments, h.type⟩⟩

instance : DecidablePred TypeBody.IsLegal
  | .scalar => isTrue trivial
  | .object fields => inferInstanceAs (Decidable (∀ f ∈ fields, f.IsLegal))
  | .enum values => inferInstanceAs (Decidable (∀ v ∈ values, Lexeme.IsName v.name.text.toList ∧
      v.name.text ≠ "null" ∧ v.name.text ≠ "true" ∧ v.name.text ≠ "false"))
  | .input fields => inferInstanceAs (Decidable (∀ f ∈ fields, f.IsLegal))

instance : DecidablePred TypeDefinition.IsLegal := fun _ =>
  decidable_of_iff (_ ∧ _) ⟨fun h => ⟨h.1, h.2⟩, fun h => ⟨h.name, h.body⟩⟩

namespace Grammar

open Parse (FromText)

variable {α : Type} {P : Production α} {Q : α → Prop} {c : Construct} {ts rest : List Token}

/-- From tokens as they are cut off a source, only what has the property is derived. -/
def Spells (P : Production α) (Q : α → Prop) : Prop :=
  ∀ ⦃ts a rest⦄, FromText ts → P ts a rest → Q a

lemma FromFront.fromText {R : List Token → List Token → Prop} (h : FromFront R ts rest)
    (hts : FromText ts) : FromText rest :=
  hts.suffix h.suffix

namespace Spells

lemma name : Spells IsName fun n => Lexeme.IsName n.text.toList := by
  rintro _ _ rest hts ⟨hk⟩
  have hspells := hts _ List.mem_cons_self
  rw [Token.IsSpelledOut, hk] at hspells
  exact hspells (by decide)

lemma many (hP : Spells P Q) (hsuffix : ∀ {ts a rest}, P ts a rest → rest <:+ ts) :
    Spells (Many P) fun as => ∀ a ∈ as, Q a := by
  intro ts as rest hts h
  induction h with
  | nil => simp
  | cons head _ ih => exact List.forall_mem_cons.mpr ⟨hP hts head, ih (hts.suffix (hsuffix head))⟩

lemma group (hP : Spells P Q) (hlocal : ∀ a, Local P a) :
    Spells (Group c P) fun out => ∀ a ∈ out.1, Q a := by
  rintro _ _ rest hts ⟨-, members, -, -⟩
  exact hP.many (fun h => (hlocal _ h).suffix) (hts.suffix (List.suffix_cons _ _)) members

lemma optionalGroup (hP : Spells P Q) (hlocal : ∀ a, Local P a) :
    Spells (OptionalGroup c P) fun as => ∀ a ∈ as, Q a := by
  rintro ts as rest hts (_ | here)
  · simp
  · exact hP.group hlocal hts here

lemma body (hP : Spells P Q) (hlocal : ∀ a, Local P a) : Spells (Body c P) fun as => ∀ a ∈ as, Q a := by
  rintro ts as rest hts (_ | here)
  · simp
  · exact hP.group hlocal hts here

lemma type : Spells IsType TypeRef.IsLegal := by
  intro ts t rest hts h
  induction h with
  | named here => exact .named (name hts here)
  | list opens _ _ ih =>
    obtain ⟨-⟩ := opens
    exact .list (ih (hts.suffix (List.suffix_cons _ _)))
  | nonNull _ once _ ih => exact .nonNull (ih hts) once

lemma description {desc : Option String} (hts : FromText ts) (h : Optional IsString ts desc rest) :
    FromText rest := by
  obtain _ | ⟨-, -⟩ := h
  · exact hts
  · exact hts.suffix (List.suffix_cons _ _)

lemma inputDefinition : Spells IsInputDefinition InputDefinition.IsLegal := by
  rintro _ d rest hts ⟨describes, names, separates, types, -, -⟩
  have hname := description hts describes
  have hcolon := (Local.name _ names).fromText hname
  exact ⟨name hname names, type ((Local.token ⟨rfl, rfl⟩ _ separates).fromText hcolon) types⟩

lemma fieldDefinition : Spells IsFieldDefinition FieldDefinition.IsLegal := by
  rintro _ d rest hts ⟨describes, names, declares, separates, types, -⟩
  have hname := description hts describes
  have hargs := (Local.name _ names).fromText hname
  have hcolon := (Local.optionalGroup (fun a _ => Local.inputDefinition a) declares).fromText hargs
  exact ⟨name hname names, inputDefinition.optionalGroup Local.inputDefinition hargs declares,
    type ((Local.token ⟨rfl, rfl⟩ _ separates).fromText hcolon) types⟩

lemma enumValue : Spells IsEnumValue fun v => LiteralKind.enum.IsLegalText v.name.text := by
  rintro _ d rest hts ⟨describes, names, ⟨notTrue, notFalse, notNull⟩, -⟩
  exact ⟨name (description hts describes) names, notNull, notTrue, notFalse⟩

lemma typeBody : Spells IsTypeBody TypeBody.IsLegal := by
  rintro ts b rest hts (_ | here | here | here)
  · trivial
  · exact fieldDefinition.body Local.fieldDefinition hts here
  · exact enumValue.body Local.enumValue hts here
  · exact inputDefinition.body Local.inputDefinition hts here

lemma typeDefinition : Spells IsTypeDefinition TypeDefinition.IsLegal := by
  rintro _ d rest hts ⟨describes, starts, names, directives, holds⟩
  have hname := (Local.keyword _ starts).fromText (description hts describes)
  have hdirectives := (Local.name _ names).fromText hname
  exact ⟨name hname names, typeBody ((Local.directives _ directives).fromText hdirectives) holds⟩

lemma definition : Spells IsDefinition fun d => ∀ t, d.type? = some t → t.IsLegal := by
  rintro ts d rest hts (_ | _ | here) t ht
  · simp [Definition.type?] at ht
  · simp [Definition.type?] at ht
  · obtain rfl := Option.some.inj ht
    exact typeDefinition hts here

end Spells

/-- The types of a document can be written. -/
lemma IsDocument.types_legal {source : List Char} {d : Document} (h : IsDocument (Token.lex source) d) :
    ∀ t ∈ d.types, t.IsLegal := by
  intro t ht
  obtain ⟨e, he, het⟩ := List.mem_filterMap.mp ht
  have hsuffix {ts rest : List Token} {e : Definition} (h : IsDefinition ts e rest) : rest <:+ ts := by
    obtain ⟨front, rfl, -⟩ := (definition_rests h).next
    exact List.suffix_append _ _
  exact Spells.definition.many hsuffix (fun t ht => Token.lex_isSpelledOut ht) h e he t het

end Grammar

namespace SchemaDocument

/-- The types of a loaded document can be written. -/
lemma load_isLegal {file : Option String} {text : String} {d : SchemaDocument}
    (h : load file text = .ok d) : ∀ t ∈ d.types, t.IsLegal := by
  obtain ⟨document, hparse, rfl⟩ := load_eq_ok h
  obtain ⟨document', heq, -, hd, -⟩ := Document.parseWith_sound (congrArg ParseResult.errors hparse)
  obtain rfl := Option.some.inj (ParseResult.mk.inj (heq.symm.trans hparse)).1
  exact hd.types_legal

lemma introspection_isLegal : ∀ t ∈ introspection.types, t.IsLegal := by
  decide +kernel

end SchemaDocument

end GraphQL
