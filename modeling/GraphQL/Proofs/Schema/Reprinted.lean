import GraphQL.Execution.Introspection
import GraphQL.Proofs.Coercion.Unplaced
import GraphQL.Proofs.Parser.Reparse
import GraphQL.Proofs.Schema.Lossless
import GraphQL.Proofs.Schema.StoredDefaults

/-!
Coerced values survive being printed.

The literal that denotes a value comes to that value again, and so does what its text is parsed to. So the
text of a default that introspection shows denotes the default that is stored.
-/

namespace GraphQL

namespace Schema

variable {s s' : Schema} {ds : List SchemaDocument} {id : ℕ} {t : TypeId} {v : Value} {l : Literal}

/-! ### Names -/

lemma IsTypeOf.hasLegalNames {d : TypeDefinition} {n : NamedType} (h : s.IsTypeOf d n) (hd : d.IsLegal) :
    n.body.HasLegalNames := by
  have hbody := hd.body
  obtain ⟨-, -, h⟩ := h
  obtain ⟨description, name, directives, body, pos⟩ := d
  obtain ⟨name', description', body'⟩ := n
  cases h with
  | scalar => trivial
  | object => trivial
  | enum _ members =>
    intro v hv
    obtain ⟨e, he, hname, -⟩ := forall₂_exists_left members hv
    exact hname ▸ hbody e he
  | input _ members =>
    intro f hf
    obtain ⟨i, hi, hinput⟩ := forall₂_exists_left members hf
    exact hinput.name ▸ (hbody i hi).name

/-- All names in a built schema can be written. -/
lemma build_hasLegalNames (hds : ∀ d ∈ ds, ∃ file text, SchemaDocument.load file text = .ok d)
    (h : build ds id = .ok s) : s.HasLegalNames := by
  intro n hn
  rcases build_typeOrigin hds h n hn with ⟨b, rfl⟩ | ⟨d, hd, ht⟩
  · trivial
  · exact ht.hasLegalNames hd

/-! ### Texts -/

/-- The text of a literal denotes a value of a type: within the limits of the parser, it is parsed, and what
it is parsed to comes to the value. -/
def Denotes (s : Schema) (l : Literal) (t : TypeId) (v : Value) : Prop :=
  ∀ o : ParseOptions, byteLength l.asArgument.toList ≤ o.maxSize → l.nesting + 1 ≤ o.maxDepth →
    ∃ w r q p, Document.parseWith o l.asArgument.toList = ⟨some (Literal.argumentDocument w r q p), []⟩ ∧
      s.coerceLiteral t w none = .ok v

lemma Returns.coerceLiteral (h : s.Returns t v) {kind : TypeId → String → LiteralKind} (hkind : s.Suits kind) :
    s.coerceLiteral t (v.write kind) none = .ok v :=
  congrArg Coerced.result (h kind hkind [])

/-- A well-typed value that comes back from what it is written as does so from its text. -/
lemma Returns.denotes (h : s.Returns t v) (hs : s.HasLegalNames) (hv : WellTyped s t v) :
    s.Denotes (v.toLiteral s) t v := by
  have htext : (v.toLiteral s).asArgument = (v.write s.spelledKind).asArgument := by
    rw [Value.toLiteral_eq_write, Literal.asArgument, Literal.asArgument,
      Value.render_write fun t text => ((suits_spelledKind s).string_iff t text).symm]
  have hnesting : (v.toLiteral s).nesting = (v.write s.spelledKind).nesting := by
    rw [Value.toLiteral_eq_write, Value.nesting_write]
  intro o hsize hdepth
  rw [htext] at hsize ⊢
  rw [hnesting] at hdepth
  obtain ⟨w, r, q, p, hparse, hw⟩ := Literal.parseWith_asArgument o (hv.write_isLegal hs) hsize hdepth
  refine ⟨w, r, q, p, hparse, ?_⟩
  rw [← toOption_eq_some, ← coerceLiteral_unplaced ((Literal.isEquivalent_iff _ w).mp hw), toOption_eq_some]
  exact h.coerceLiteral (suits_spelledKind s)

/-! ### Built schemas -/

/-- What the values of a schema need to survive: names that can be written, and defaults that come back,
also where lists were added. -/
structure KeepsValues (s : Schema) : Prop where
  wellFormed : s.WellFormed
  names : s.HasLegalNames
  typed : s.DefaultsWellTyped
  returns : ∀ i ∈ s.inputs, ∀ v, i.default? = some v → ∀ s', s.WithLists s' → s'.Returns i.type v

lemma build_keepsValues (hds : ∀ d ∈ ds, ∃ file text, SchemaDocument.load file text = .ok d)
    (h : build ds id = .ok s) (hrec : s.NoInputRecursion) : s.KeepsValues := by
  have hs := build_wellFormed hds h
  have hstores := build_storesLiterals (SchemaDocument.loaded_isProper hds) h hrec
  exact ⟨hs, build_hasLegalNames hds h,
    hstores.holds hs hrec s.constant.wellTyped_compositional fun _ hl => hl,
    hstores.holds hs hrec (returns_compositional hs) fun _ _ => trivial⟩

namespace KeepsValues

/-- Adding lists changes nothing. -/
lemma withLists (hs : s.KeepsValues) (h : s.WithLists s') : s'.KeepsValues where
  wellFormed := h.wellFormed hs.wellFormed
  names n hn := hs.names n (h.types ▸ hn)
  typed i hi v hv := h.wellTyped hs.wellFormed.registry (hs.typed i (h.inputs ▸ hi) v hv)
  returns i hi v hv s'' h' := hs.returns i (h.inputs ▸ hi) v hv s'' (h.trans h')

lemma returns_of_coerced (hs : s.KeepsValues) (h : s.coerceLiteral t l none = .ok v) : s.Returns t v :=
  coerceLiteral_holds hs.wellFormed.registry (returns_compositional hs.wellFormed) trivial
    (fun _ d hd => hs.returns d (mem_inputs_of_owned hd.owned)) h s .refl

lemma wellTyped_of_coerced (hs : s.KeepsValues) (hl : l.IsProper) (h : s.coerceLiteral t l none = .ok v) :
    WellTyped s t v :=
  coerceLiteral_holds hs.wellFormed.registry s.constant.wellTyped_compositional hl
    (fun _ d hd => hs.typed d (mem_inputs_of_owned hd.owned)) h

end KeepsValues

/-- **Coerced values survive being printed**: where no input object reaches itself through its fields, what a
constant comes to at a type is what the literal for it comes to again. So is what the text of that literal is
parsed to, if the boolean literals of the constant are `true` and `false`, as all are that come from a text. In
particular introspection shows a text for each default that denotes it. The types may be lists that were added
to the schema after it was built. -/
theorem coerceLiteral_reprinted (hds : ∀ d ∈ ds, ∃ file text, SchemaDocument.load file text = .ok d)
    (h : build ds id = .ok s) (hrec : s.NoInputRecursion) (hlists : s.WithLists s') :
    (∀ t l v, s'.coerceLiteral t l none = .ok v →
      s'.coerceLiteral t (v.toLiteral s') none = .ok v ∧ (l.IsProper → s'.Denotes (v.toLiteral s') t v)) ∧
    ∀ i ∈ s'.inputs, ∀ v, i.default? = some v → ∀ call : FieldCall, call.name = "defaultValue" →
      MetaObject.inputField s' i call = some (.ofString (v.toLiteral s').render) ∧
        s'.Denotes (v.toLiteral s') i.type v := by
  have hs := (build_keepsValues hds h hrec).withLists hlists
  refine ⟨fun t l v hv => ⟨?_, fun hl => ?_⟩, fun i hi v hv call hcall => ⟨?_, ?_⟩⟩
  · rw [Value.toLiteral_eq_write]
    exact (hs.returns_of_coerced hv).coerceLiteral (suits_leafKind s')
  · exact (hs.returns_of_coerced hv).denotes hs.names (hs.wellTyped_of_coerced hl hv)
  · simp [MetaObject.inputField, hcall, hv, HostValue.ofString?]
  · exact (hs.returns i hi v hv s' .refl).denotes hs.names (hs.typed i hi v hv)

def visitText : String := "type Query \x7b f(v: Visit = \x7bhours: 15e-1\x7d): Int \x7d scalar Person "
  ++ "input Visit \x7b by: Person, hours: Float!, ids: [ID!], kind: Kind = HOME \x7d enum Kind \x7b WORK HOME \x7d"

/-- A number for a person, and one with a point for hours that have no fraction. -/
def visit : Literal :=
  .object [(⟨"by", .start⟩, .scalar .int "3" .start), (⟨"hours", .start⟩, .scalar .float "2.0" .start),
    (⟨"ids", .start⟩, .scalar .int "7" .start)] .start

/-- A schema by its text, one of its types, and what a literal comes to as a list of that type. -/
def coerceToList? (schemaText typeName : String) (l : Literal) :
    Option (SchemaDocument × Schema × TypeId × Value) := do
  let d ← (SchemaDocument.load none schemaText).toOption
  let s ← (build [d] 0).toOption
  let e ← s.typeId? typeName
  let v ← ((s.listOf e).2.coerceLiteral (s.listOf e).1 l none).toOption
  return (d, s, e, v)

lemma coerceToList?_eq_some {schemaText typeName : String} {d : SchemaDocument} {e : TypeId}
    (h : coerceToList? schemaText typeName l = some (d, s, e, v)) : SchemaDocument.load none schemaText = .ok d ∧
      build [d] 0 = .ok s ∧ s.typeId? typeName = some e ∧
      (s.listOf e).2.coerceLiteral (s.listOf e).1 l none = .ok v := by
  obtain ⟨d', hd, h⟩ := Option.bind_eq_some_iff.mp h
  obtain ⟨s', hs, h⟩ := Option.bind_eq_some_iff.mp h
  obtain ⟨e', he, h⟩ := Option.bind_eq_some_iff.mp h
  obtain ⟨v', hv, heq⟩ := Option.bind_eq_some_iff.mp h
  cases heq
  exact ⟨toOption_eq_some.mp hd, toOption_eq_some.mp hs, he, toOption_eq_some.mp hv⟩

/-- An object stands for a list of one, with the default of what it leaves out. -/
theorem coerceLiteral_reprinted_of_visit : ∃ d s e v, SchemaDocument.load none visitText = .ok d ∧
    build [d] 0 = .ok s ∧ s.NoInputRecursion ∧ s.WithLists (s.listOf e).2 ∧
    (s.listOf e).2.coerceLiteral (s.listOf e).1 visit none = .ok v ∧
    (v.toLiteral (s.listOf e).2).render = "[\x7bby: \"3\", hours: 2, ids: [\"7\"], kind: HOME\x7d]" ∧
    (s.listOf e).2.coerceLiteral (s.listOf e).1 (v.toLiteral (s.listOf e).2) none = .ok v ∧
    ∃ w r q p, Document.parseWith .default (v.toLiteral (s.listOf e).2).asArgument.toList
        = ⟨some (Literal.argumentDocument w r q p), []⟩ ∧
      (s.listOf e).2.coerceLiteral (s.listOf e).1 w none = .ok v := by
  have hrun : (coerceToList? visitText "Visit" visit).any (fun run =>
      let (_, s, e, v) := run
      let l := v.toLiteral (s.listOf e).2
      decide (∀ a ∈ s.inputNames, ∀ b ∈ s.nestedInputs a, s.inputOrder.idxOf b < s.inputOrder.idxOf a) &&
        l.render == "[\x7bby: \"3\", hours: 2, ids: [\"7\"], kind: HOME\x7d]" &&
        decide (byteLength l.asArgument.toList ≤ ParseOptions.default.maxSize ∧
          l.nesting + 1 ≤ ParseOptions.default.maxDepth)) = true := by
    decide +kernel
  obtain ⟨⟨d, s, e, v⟩, hrun, hcheck⟩ := (Option.any_eq_true _ _).mp hrun
  obtain ⟨hd, h, he, hv⟩ := coerceToList?_eq_some hrun
  simp only [Bool.and_eq_true, decide_eq_true_eq, beq_iff_eq] at hcheck
  obtain ⟨⟨hfront, htext⟩, hsize, hdepth⟩ := hcheck
  have hds : ∀ d' ∈ [d], ∃ file text, SchemaDocument.load file text = .ok d' :=
    List.forall_mem_singleton.mpr ⟨_, _, hd⟩
  have hrec : s.NoInputRecursion := (noInputRecursion_iff (build_wellFormed hds h).types).mpr hfront
  have hlists : s.WithLists (s.listOf e).2 := by
    refine .listOf .refl ?_
    unfold typeId? at he
    split at he
    · exact (TypeRegistry.find?_spec he).1
    · cases he
  obtain ⟨hagain, hdenotes⟩ := (coerceLiteral_reprinted hds h hrec hlists).1 _ visit v hv
  have hproper : visit.IsProper := .object _ (by simp [Literal.IsProper.scalar])
  exact ⟨d, s, e, v, hd, h, hrec, hlists, hv, htext, hagain, hdenotes hproper .default hsize hdepth⟩

end Schema

end GraphQL
