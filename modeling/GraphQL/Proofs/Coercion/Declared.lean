import GraphQL.Proofs.Coercion.Variables
import GraphQL.Proofs.Parser.Legal
import GraphQL.Proofs.Sample
import GraphQL.Proofs.Schema.Members
import GraphQL.Proofs.Schema.MoreLists

/-!
Coercing to a type as it is written.

A schema need not have the lists that a written type is made of, so that the type is followed as it is
written. Where the schema has it, what comes out is what its handle gives: the same value, or the same
errors in the same order.
-/

namespace GraphQL

namespace Schema

variable {s : Schema} {ref : TypeRef} {t e : TypeId}

lemma ofRef?_of_typeOfRef? (h : s.typeOfRef? ref = some t) : s.registry.ofRef? ref = some t := by
  induction ref generalizing t with
  | named n =>
    rw [typeOfRef?, typeId?] at h
    split at h
    · exact h
    · cases h
  | list ref p ih =>
    obtain ⟨e, he, ht⟩ := Option.bind_eq_some_iff.mp h
    exact Option.bind_eq_some_iff.mpr ⟨e, ih he, ht⟩
  | nonNull ref p ih =>
    obtain ⟨e, he, ht⟩ := Option.map_eq_some_iff.mp h
    exact Option.map_eq_some_iff.mpr ⟨e, ih he, ht⟩

lemma innermostOfRef?_isSome (h : s.typeOfRef? ref = some t) : (s.innermostOfRef? ref).isSome := by
  induction ref generalizing t with
  | named n => exact Option.isSome_of_eq_some h
  | list ref p ih =>
    obtain ⟨e, he, -⟩ := Option.bind_eq_some_iff.mp h
    exact ih he
  | nonNull ref p ih =>
    obtain ⟨e, he, -⟩ := Option.map_eq_some_iff.mp h
    exact ih he

/-- Of the types that accept a written one, that type itself is the tightest. -/
lemma typesAccepting_head? (h : s.typeOfRef? ref = some t) : (s.typesAccepting ref).head? = some t := by
  induction ref generalizing t with
  | named n => rw [typesAccepting, show s.typeId? n.text = some t from h]; rfl
  | list ref p ih =>
    obtain ⟨e, he, ht⟩ := Option.bind_eq_some_iff.mp h
    obtain ⟨rest, hrest⟩ := List.head?_eq_some_iff.mp (ih he)
    rw [typesAccepting, hrest, List.filterMap_cons_some ht, List.head?_cons]
  | nonNull ref p ih =>
    obtain ⟨e, he, rfl⟩ := Option.map_eq_some_iff.mp h
    obtain ⟨rest, hrest⟩ := List.head?_eq_some_iff.mp (ih he)
    rw [typesAccepting, hrest, List.map_cons, List.cons_append, List.head?_cons]

end Schema

namespace CoercionContext

variable {c : CoercionContext} {ref : TypeRef} {t e : TypeId} {v : Literal} {path : Path}

/-! ### Types that exclude null -/

/-- A value with the mark that its type excludes null. -/
def required (w : Value) : Value := w.withType w.type.nonNull

lemma leaf_nonNull (text : Except CoercionErrorCause String) (p : Pos) :
    leaf text p path t.nonNull = (leaf text p path t).map required := by
  cases text <;> rfl

/-- At an input type that excludes null, the same is wrong and the same is right. -/
lemma atNamed_nonNull (hr : c.schema.registry.WellFormed) (hinput : c.schema.isInput t = true)
    (supplied : List SuppliedField) :
    c.atNamed v supplied path t.nonNull = (c.atNamed v supplied path t).map required := by
  unfold atNamed
  rw [Schema.named?_nonNull hr]
  cases hn : c.schema.named? t with
  | none => simp [Schema.isInput, Schema.isScalar, Schema.isEnum, Schema.isInputObject, Schema.kind?, hn] at hinput
  | some n =>
    dsimp only
    cases hbody : n.body with
    | object fields =>
      simp [Schema.isInput, Schema.isScalar, Schema.isEnum, Schema.isInputObject, Schema.kind?, hn,
        NamedType.kind, hbody] at hinput
    | scalar builtin => cases v <;> first | exact leaf_nonNull _ _ | rfl
    | enum values => exact leaf_nonNull _ _
    | inputObject declared =>
      cases v with
      | object fields p =>
        dsimp only [inputObject, Coerced.map]
        split
        · rw [Option.map_map]
          rfl
        · rfl
      | _ => rfl

lemma lone_nonNull (hr : c.schema.registry.WellFormed) (hinput : c.schema.isInput t = true)
    (supplied : List SuppliedField) :
    c.lone (c.atNamed v supplied) path t.nonNull = (c.lone (c.atNamed v supplied) path t).map required := by
  unfold lone
  cases he : c.schema.element? t with
  | none =>
    rw [TypeRegistry.layers_single he, TypeRegistry.layers_single (t := t.nonNull) he]
    dsimp only [List.foldr_nil]
    rw [atNamed_nonNull hr hinput]
    simp only [Coerced.map, Option.map_map]
    rfl
  | some e =>
    rw [TypeRegistry.layers_list hr he, TypeRegistry.layers_list hr (t := t.nonNull) he]
    simp only [Coerced.map, Option.map_map]
    rfl

/-- A constant that is not null is coerced to a type that excludes null as if it did not. -/
lemma coerce_nonNull (hr : c.schema.registry.WellFormed) (hc : c.scope = .forbidden)
    (hinput : c.schema.isInput t = true) (hv : v.isNull = false) :
    c.coerce v path t.nonNull = (c.coerce v path t).map required := by
  cases v with
  | null p => simp [Literal.isNull] at hv
  | var name p =>
    rw [coerce]
    simp only [coerceVariable, hc]
    rfl
  | scalar kind text p =>
    rw [coerce]
    exact lone_nonNull hr hinput []
  | list items p =>
    rw [coerce]
    dsimp only
    rw [show c.schema.element? t.nonNull = c.schema.element? t from rfl]
    split
    · simp only [Coerced.map, Option.map_map]
      rfl
    · exact atNamed_nonNull hr hinput []
  | object fields p =>
    rw [coerce]
    exact lone_nonNull hr hinput _

/-! ### Lists -/

lemma lone_list (hr : c.schema.registry.WellFormed) (he : c.schema.element? t = some e) (coercer : Coercer) :
    c.lone coercer path t = (c.lone coercer path e).map fun w => .list t [w] := by
  unfold lone
  rw [TypeRegistry.layers_list hr he]
  simp only [Coerced.map, Option.map_map]
  rfl

/-- A constant that is no list is coerced to a list as to the element. -/
lemma coerce_lone (hr : c.schema.registry.WellFormed) (hc : c.scope = .forbidden)
    (he : c.schema.element? t = some e) (hnull : v.isNull = false) (hlist : ∀ items p, v ≠ .list items p) :
    c.coerce v path t = (c.coerce v path e).map fun w => .list t [w] := by
  cases v with
  | null p => simp [Literal.isNull] at hnull
  | var name p =>
    rw [coerce]
    simp only [coerceVariable, hc]
    rfl
  | scalar kind text p =>
    rw [coerce]
    exact lone_list hr he _
  | list items p => exact absurd rfl (hlist items p)
  | object fields p =>
    rw [coerce]
    exact lone_list hr he _

/-! ### Written types -/

/-- **Agreement**: coercing a constant to a type as it is written is coercing it to the handle that the
schema has for that type. -/
theorem coerceDeclared_eq (hr : c.schema.registry.WellFormed) (hc : c.scope = .forbidden)
    (href : ref.IsLegal) (ht : c.schema.typeOfRef? ref = some t) (hinput : c.schema.isInput t = true) :
    c.coerceDeclared ref path v = c.coerce v path t := by
  induction href generalizing t path v with
  | @named n _ => rw [coerceDeclared, show c.schema.typeId? n.text = some t from ht]
  | @list ref p _ ih =>
    have hhead := Schema.typesAccepting_head? ht
    have hnull := TypeRegistry.isNonNull_ofRef? (Schema.ofRef?_of_typeOfRef? ht)
    obtain ⟨e, he, hlist⟩ := Option.bind_eq_some_iff.mp ht
    have helement : c.schema.element? t = some e := TypeRegistry.element?_listOf? hlist
    rw [Schema.isInput_congr (Schema.named?_element hr helement)] at hinput
    rw [coerceDeclared, hhead]
    dsimp only
    cases v with
    | null q =>
      rw [coerce, coerceNull, hnull]
      rfl
    | list items q =>
      rw [coerce]
      simp only [helement]
      rw [coerceItems_eq]
      refine congrArg (fun rs => (Coerced.all rs).map (Value.list t)) (List.map_congr_left fun p _ => ?_)
      rw [coerceItem, isAbsent_of_forbidden hc]
      exact ih he hinput
    | _ =>
      dsimp only
      rw [ih he hinput, coerce_lone hr hc helement rfl (by simp)]
  | @nonNull ref p legal once ih =>
    obtain ⟨e, he, rfl⟩ := Option.map_eq_some_iff.mp ht
    rw [Schema.isInput_congr (Schema.named?_nonNull hr e)] at hinput
    rw [coerceDeclared]
    by_cases hnull : v.isNull = true
    · have hname : c.schema.typeName e.nonNull = (TypeRef.nonNull ref p).render :=
        TypeRegistry.nameOf_ofRef? hr (.nonNull legal.marksOnce once) (Schema.ofRef?_of_typeOfRef? ht)
      cases v with
      | null q =>
        rw [if_pos hnull, coerce, coerceNull, hname]
        rfl
      | _ => simp [Literal.isNull] at hnull
    · rw [if_neg hnull, ih he hinput, coerce_nonNull hr hc hinput (Bool.eq_false_of_not_eq_true hnull)]
      rfl

end CoercionContext

/-! ### Variables -/

namespace Schema

open CoercionContext (coerceDeclared_eq)

variable {s s' : Schema} {ds : List SchemaDocument} {id : ℕ} {t : TypeId} {v : Literal}
  {d : VariableDefinition} {supplied : List (String × Literal)}

lemma coerceGiven_eq (hr : s.registry.WellFormed) (hd : d.type.IsLegal) (ht : s.typeOfRef? d.type = some t)
    (hinput : s.isInput t = true) :
    s.coerceGiven d true v = match s.coerceJson t v with
      | .ok w => .ok (some w)
      | .error es => .error (es.map (inVariable d)) := by
  have hdeclared : CoercionContext.coerceDeclared ⟨s, true, .forbidden⟩ d.type [] v
      = CoercionContext.coerce ⟨s, true, .forbidden⟩ v [] t := coerceDeclared_eq hr rfl hd ht hinput
  rw [coerceGiven, hdeclared]
  rfl

/-- **Agreement of variables**: where the schema has the type of a variable, the variable has the value
that the supplied one comes to at that type, or the errors are those that it comes to there. They are seen from
the operation: the name of the variable leads to each of them, and the place of its definition stands for one
that is at the start of a text. The types of variables are legal wherever they are parsed. -/
theorem coerceVariables_eq_coerceJson
    (hds : ∀ d ∈ ds, ∃ file text, SchemaDocument.load file text = .ok d) (hs : build ds id = .ok s)
    (hlists : s.WithLists s') (hd : d.type.IsLegal) (ht : s'.typeOfRef? d.type = some t)
    (hinput : s'.isInput t = true) (hv : supplied.lookup d.name.text = some v) :
    s'.coerceVariables [d] supplied = match s'.coerceJson t v with
      | .ok w => .ok [(d.name.text, w)]
      | .error es => .error (es.map fun e =>
          ⟨e.cause, if e.pos = .start then d.pos else e.pos, .key ("$" ++ d.name.text) :: e.path⟩) := by
  have hr := (hlists.wellFormed (build_wellFormed hds hs)).registry
  have hone : s'.coerceVariable (supplied.lookup d.name.text) d = s'.coerceGiven d true v := by
    rw [hv, coerceVariable, if_neg (by simp [Option.ne_none_iff_isSome, innermostOfRef?_isSome ht])]
    rfl
  rw [coerceVariables_eq, List.foldl_cons, List.foldl_nil, coerceNext, hone, coerceGiven_eq hr hd ht hinput]
  cases hgiven : s'.coerceJson t v with
  | ok w => rfl
  | error es =>
    have hne : es ≠ [] := (CoercionContext.coerce_isDecided v [] t).error_ne_nil hgiven
    exact if_neg (by simpa using hne)

def namedPet : List Char := "query ($names: [String!]!) \x7b pet(id: 1) \x7b id \x7d \x7d".toList

def namedPetChars : { chars : List Char // namedPet = chars } := ⟨_, String.toList_ofList⟩

/-- A null among strings. -/
def names : Literal := .list [.scalar .string "Tom" .start, .null .start] .start

/-- The names that are supplied for the variable are wrong at its type. -/
def refusesNames (run : Schema × Document) : Bool :=
  run.2.operations.any fun op => op.variableDefinitions.any fun d => (run.1.typeOfRef? d.type).any fun t =>
    run.1.isInput t && d.name.text == "names" && match run.1.coerceJson t names with
      | .ok _ => false
      | .error es => es.map (fun e => (e.cause.message, e.path))
          == [("Expected a value of type `String!`, found null", [.index 1])]

/-- One of the names is null, which is seen in the value and, from the operation, below the variable. -/
theorem coerceVariables_eq_coerceJson_of_names : ∃ doc s request op d t es,
    SchemaDocument.load none Sample.schemaText = .ok doc ∧ build [doc] 0 = .ok s ∧
    (Document.parse namedPet).document? = some request ∧ op ∈ request.operations ∧
    d ∈ op.variableDefinitions ∧ d.type.IsLegal ∧ s.typeOfRef? d.type = some t ∧ s.isInput t = true ∧
    s.coerceJson t names = .error es ∧ es.map (fun e => (e.cause.message, e.path))
      = [("Expected a value of type `String!`, found null", [.index 1])] ∧
    s.coerceVariables [d] [("names", names)] = .error (es.map fun e =>
      ⟨e.cause, if e.pos = .start then d.pos else e.pos, .key ("$" ++ d.name.text) :: e.path⟩) := by
  have hrun : (Sample.readChars? Sample.schemaChars.1 namedPetChars.1).any refusesNames = true := by
    decide +kernel
  obtain ⟨s, request, hs, hrequest, hcheck⟩ := Sample.exists_of_chars Sample.schemaChars.2 namedPetChars.2 hrun
  simp only [refusesNames, List.any_eq_true, Option.any_eq_true, Bool.and_eq_true, beq_iff_eq] at hcheck
  obtain ⟨op, hop, d, hd, t, ht, ⟨hinput, hname⟩, hcheck⟩ := hcheck
  split at hcheck
  · cases hcheck
  · rename_i es hes
    obtain ⟨doc, hload, hbuild⟩ := ofText_eq_ok.mp hs
    have hparse : Document.parse namedPet = ⟨some request, (Document.parse namedPet).errors⟩ := by rw [← hrequest]
    have hlegal := Document.parse_variables_isLegal hparse op hop d hd
    have hsupplied : [("names", names)].lookup d.name.text = some names := by rw [hname]; rfl
    have hagree := coerceVariables_eq_coerceJson (List.forall_mem_singleton.mpr ⟨_, _, hload⟩) hbuild .refl hlegal
      ht hinput hsupplied
    rw [hes] at hagree
    exact ⟨doc, s, request, op, d, t, es, hload, hbuild, hrequest, hop, hd, hlegal, ht, hinput, hes,
      beq_iff_eq.mp hcheck, hagree⟩

end Schema

end GraphQL
