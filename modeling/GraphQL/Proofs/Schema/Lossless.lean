import GraphQL.Proofs.Schema.Loaded
import GraphQL.Proofs.Schema.Outline
import GraphQL.Proofs.Schema.Written

/-!
Schemas hold all that documents say.

Behind the builtin scalars and the types of introspection, a schema has the types that its documents
define, in the order in which they are written, and each of them has the members that are written.
-/

namespace GraphQL

/-! ### Names that are written -/

def TypeBody.names : TypeBody → List Name
  | scalar => []
  | object fields => fields.flatMap fun f => f.name :: f.arguments.map (·.name)
  | enum values => values.map (·.name)
  | input fields => fields.map (·.name)

/-- The names that a type definition gives: its own, and those of its members at every level. -/
def TypeDefinition.names (d : TypeDefinition) : List Name := d.name :: d.body.names

/-- Neither a builtin scalar nor a type of introspection. -/
def NamedType.isUserDefined (t : NamedType) : Bool :=
  !Name.isReservedText t.name && (BuiltinScalar.ofName? t.name).isNone

namespace Schema

variable {s : Schema}

/-! ### What a schema says of a definition -/

/-- An argument or input field is the one that was written. -/
structure IsInputOf (s : Schema) (d : InputDefinition) (i : InputSpec) : Prop where
  name : i.name = d.name.text
  description : i.description = d.description
  type : s.typeName i.type = d.type.render
  isInput : s.isInput i.type = true
  nonNull : i.type.isNonNull = d.type.isNonNull
  hasDefault : i.default?.isSome = d.default?.isSome
  required : i.isRequired = (i.type.isNonNull && d.default?.isNone)

structure IsFieldOf (s : Schema) (d : FieldDefinition) (f : FieldSpec) : Prop where
  name : f.name = d.name.text
  description : f.description = d.description
  arguments : List.Forall₂ s.IsInputOf d.arguments f.arguments
  type : s.typeName f.type = d.type.render
  isOutput : s.isOutput f.type = true
  nonNull : f.type.isNonNull = d.type.isNonNull

structure IsEnumValueOf (d : EnumValueDefinition) (v : EnumValueSpec) : Prop where
  name : v.name = d.name.text
  description : v.description = d.description

/-- A type has the members that were written, in their order, and if it is of a kind that has members
then it has one. -/
inductive IsBodyOf (s : Schema) : TypeBody → NamedTypeBody → Prop where
  | scalar : IsBodyOf s .scalar (.scalar none)
  | object {ds : List FieldDefinition} {fs : List FieldSpec} (nonempty : fs ≠ [])
      (members : List.Forall₂ s.IsFieldOf ds fs) : IsBodyOf s (.object ds) (.object fs)
  | enum {ds : List EnumValueDefinition} {vs : List EnumValueSpec} (nonempty : vs ≠ [])
      (members : List.Forall₂ IsEnumValueOf ds vs) : IsBodyOf s (.enum ds) (.enum vs)
  | input {ds : List InputDefinition} {is : List InputSpec} (nonempty : is ≠ [])
      (members : List.Forall₂ s.IsInputOf ds is) : IsBodyOf s (.input ds) (.inputObject is)

structure IsTypeOf (s : Schema) (d : TypeDefinition) (t : NamedType) : Prop where
  name : t.name = d.name.text
  description : t.description = d.description
  body : s.IsBodyOf d.body t.body

/-! ### Lists side by side -/

lemma forall₂_of_map {α β γ : Type} {R : α → γ → Prop} {S : α → β → Prop} {f : β → γ} {P : α → Prop}
    {as : List α} {bs : List β} (h : List.Forall₂ R as (bs.map f)) (has : ∀ a ∈ as, P a)
    (hS : ∀ {a b}, P a → R a (f b) → S a b) : List.Forall₂ S as bs := by
  rw [List.forall₂_map_right_iff] at h
  induction h with
  | nil => exact .nil
  | cons hR _ ih =>
    obtain ⟨ha, has⟩ := List.forall_mem_cons.mp has
    exact .cons (hS ha hR) (ih has)

/-- Lists that stand side by side in parts. -/
lemma forall₂_flatMap {α β γ : Type} {f : α → List γ} {R : α → γ → β → Prop} {as : List α}
    {bss : List (List β)} (h : List.Forall₂ (fun a bs => List.Forall₂ (R a) (f a) bs) as bss) :
    List.Forall₂ (fun c b => ∃ a ∈ as, c ∈ f a ∧ R a c b) (as.flatMap f) bss.flatten := by
  induction h with
  | nil => exact .nil
  | @cons a bs as bss ha _ ih =>
    refine List.rel_append ?_ (ih.imp fun c b ⟨a', ha', hc, hR⟩ => ⟨a', List.mem_cons_of_mem a ha', hc, hR⟩)
    refine ((List.forall₂_and_left _ _).mpr ⟨fun c hc => hc, ha⟩).imp fun c b hR => ?_
    exact ⟨a, List.mem_cons_self, hR⟩

/-! ### Kinds -/

variable {ctx : ResolutionContext} {waiting : List PendingDefault} {typeName : String} {ref : TypeRef}
  {t : TypeId}

/-- A schema has the types that were resolved in a context. -/
structure Realizes (s : Schema) (ctx : ResolutionContext) : Prop where
  registry : s.registry.WellFormed
  kinds : (s.types.map fun t => (t.name, t.kind)) = ctx.kinds

namespace Realizes

/-- The kind of a written type is that of the name in it. -/
lemma kind? (h : s.Realizes ctx) (ht : s.registry.ofRef? ref = some t) :
    s.kind? t = ctx.kinds.lookup ref.innermost.text := by
  obtain ⟨-, -, hshape⟩ := TypeRegistry.find?_spec (TypeRegistry.innermost_ofRef? h.registry ht)
  have hnamed : s.named? t = s.type? ref.innermost.text := by
    rw [named?, hshape]
  rw [Schema.kind?, hnamed, ← h.kinds]
  exact find?_map_eq_lookup s.types _

lemma isInput (h : s.Realizes ctx) (ht : s.registry.ofRef? ref = some t) {k : NamedTypeKind}
    (hk : ctx.kinds.lookup ref.innermost.text = some k) (hne : k ≠ .object) : s.isInput t = true := by
  have hkind := (h.kind? ht).trans hk
  cases k <;> simp_all [Schema.isInput, isScalar, isEnum, isInputObject]

lemma isOutput (h : s.Realizes ctx) (ht : s.registry.ofRef? ref = some t) {k : NamedTypeKind}
    (hk : ctx.kinds.lookup ref.innermost.text = some k) (hne : k ≠ .inputObject) : s.isOutput t = true := by
  have hkind := (h.kind? ht).trans hk
  cases k <;> simp_all [Schema.isOutput, isScalar, isEnum, isObject]

/-! ### From outlines to types -/

lemma isInputOf (h : s.Realizes ctx) {owner : InputOwner} {d : InputDefinition} {i : InputSpec}
    (hd : d.IsLegal) (hi : Resolution.InputOf ctx s.registry waiting owner d i.outline) :
    s.IsInputOf d i := by
  obtain ⟨-, name, description, type, ⟨k, hk, hne⟩, default, -⟩ := hi
  have hdefault : i.default?.isSome = d.default?.isSome := by
    simpa [InputSpec.outline] using congrArg Option.isSome default
  refine ⟨name, description, TypeRegistry.nameOf_ofRef? h.registry hd.type.marksOnce type, h.isInput type hk hne,
    TypeRegistry.isNonNull_ofRef? type, hdefault, ?_⟩
  rw [InputSpec.isRequired, ← Option.not_isSome, ← Option.not_isSome, hdefault]

lemma isFieldOf (h : s.Realizes ctx) {d : FieldDefinition} {f : FieldSpec} (hd : d.IsLegal)
    (hf : Resolution.FieldOf ctx s.registry waiting typeName d f.outline) : s.IsFieldOf d f := by
  obtain ⟨-, name, description, arguments, type, k, hk, hne⟩ := hf
  exact ⟨name, description, forall₂_of_map arguments hd.arguments h.isInputOf,
    TypeRegistry.nameOf_ofRef? h.registry hd.type.marksOnce type, h.isOutput type hk hne,
    TypeRegistry.isNonNull_ofRef? type⟩

lemma isBodyOf (h : s.Realizes ctx) {d : TypeBody} {t : NamedType} (hd : d.IsLegal)
    (ht : Resolution.BodyOf ctx s.registry waiting typeName d t.outline.body) : s.IsBodyOf d t.body := by
  obtain ⟨name, description, body⟩ := t
  have hne {α β : Type} {R : α → β → Prop} {as : List α} {bs : List β} (h : List.Forall₂ R as bs)
      (has : as ≠ []) : bs ≠ [] := by
    rintro rfl
    exact has (List.forall₂_nil_right_iff.mp h)
  cases body with
  | scalar builtin =>
    cases ht
    exact .scalar
  | enum values =>
    obtain _ | _ | ⟨nonempty, members⟩ := ht
    have hmembers := members.imp fun d v hv => (⟨hv.name, hv.description⟩ : IsEnumValueOf d v)
    exact .enum (hne hmembers nonempty) hmembers
  | object fields =>
    obtain _ | ⟨nonempty, members⟩ := ht
    have hmembers := forall₂_of_map members hd h.isFieldOf
    exact .object (hne hmembers nonempty) hmembers
  | inputObject fields =>
    obtain _ | _ | _ | ⟨nonempty, members⟩ := ht
    have hmembers := forall₂_of_map members hd h.isInputOf
    exact .input (hne hmembers nonempty) hmembers

lemma isTypeOf (h : s.Realizes ctx) {d : TypeDefinition} {t : NamedType} (hd : d.IsLegal)
    (ht : Resolution.TypeOf ctx s.registry waiting d t.outline) : s.IsTypeOf d t :=
  ⟨ht.name, ht.description, h.isBodyOf hd.body ht.body⟩

end Realizes

/-! ### Built schemas -/

variable {s₀ : Schema} {st : ResolutionState} {ds : List SchemaDocument} {id : Nat}

lemma eq_of_outline_scalar {t : NamedType} {b : BuiltinScalar} (h : t.outline = b.namedType) :
    t = b.namedType := by
  obtain ⟨name, description, body⟩ := t
  cases body <;> simp_all [NamedType.outline, BuiltinScalar.namedType]

/-- The names of members that are worked out may stand where they do. -/
lemma names_permitted {r : TypeRegistry} {b : TypeBody} {nb : NamedTypeBody}
    (h : Resolution.BodyOf ctx r waiting typeName b nb) : ∀ n ∈ b.names, ctx.Permits n := by
  have hinputs {owner : InputDefinition → InputOwner} {ds : List InputDefinition} {is : List InputSpec}
      (h : List.Forall₂ (fun d => Resolution.InputOf ctx r waiting (owner d) d) ds is) :
      ∀ n ∈ ds.map (·.name), ctx.Permits n := by
    intro n hn
    obtain ⟨d, hd, rfl⟩ := List.mem_map.mp hn
    obtain ⟨i, -, hi⟩ := forall₂_exists_right h hd
    exact hi.permitted
  intro n hn
  cases h with
  | scalar => simp [TypeBody.names] at hn
  | object _ members =>
    obtain ⟨d, hd, hn⟩ := List.mem_flatMap.mp hn
    obtain ⟨f, -, hf⟩ := forall₂_exists_right members hd
    rcases List.mem_cons.mp hn with rfl | hn
    · exact hf.permitted
    · exact hinputs hf.arguments n hn
  | enum _ members =>
    obtain ⟨d, hd, rfl⟩ := List.mem_map.mp hn
    obtain ⟨v, -, hv⟩ := forall₂_exists_right members hd
    exact hv.permitted
  | input _ members => exact hinputs members n hn

lemma kind_of_typeOf {r : TypeRegistry} {d : TypeDefinition} {t : NamedType}
    (h : Resolution.TypeOf ctx r waiting d t) : t.kind = d.body.kind := by
  obtain ⟨name, description, body⟩ := t
  obtain ⟨desc, dname, directives, dbody, pos⟩ := d
  obtain ⟨-, -, hbody⟩ := h
  cases hbody <;> rfl

lemma kind_outline (t : NamedType) : t.outline.kind = t.kind := by
  obtain ⟨name, description, body⟩ := t
  cases body <;> rfl

/-- What documents resolve to, type by type. -/
lemma resolve_types (hd : ∀ d ∈ ds, d.IsProper) (hr : resolve ds id = .ok (s, st)) (hst : st.errors = []) :
    ∃ names, (TypeNames.builtin id).registerAll (.introspection :: ds) = .ok names ∧
      (∀ d, s.Realizes ⟨d, Builtin.directives names.registry, names.kinds⟩) ∧
      ∃ internal users, s.types = BuiltinScalar.all.map (·.namedType) ++ internal ++ users ∧
        List.Forall₂ (Resolution.TypeOf ⟨.introspection, Builtin.directives names.registry, names.kinds⟩
          s.registry st.pending) SchemaDocument.introspection.types internal ∧
        List.Forall₂ (fun d t => ∃ e ∈ ds, d ∈ e.types ∧
          Resolution.TypeOf ⟨e, Builtin.directives names.registry, names.kinds⟩ s.registry st.pending d t)
          (ds.flatMap (·.types)) users := by
  have hwf := (resolve_resolved hd hr hst).wellFormed.registry
  obtain ⟨names, query, types, hnames, -, hrun, rfl⟩ := resolve_eq_ok hr
  obtain ⟨hnames', -, hkinds⟩ :=
    TypeNames.registerAll_wellFormed (TypeNames.builtin_wellFormed id) hnames
  have hd' := List.forall_mem_cons.mpr ⟨SchemaDocument.introspection_isProper, hd⟩
  have hall := resolveDocuments_gives _ hd' (ready_of_wellFormed hnames') hrun hst hwf
  refine ⟨names, hnames, fun d => ⟨hwf, ?_⟩, ?_⟩
  · have hdefined := forall₂_map_eq (forall₂_flatMap hall)
      (f := fun d : TypeDefinition => (d.name.text, d.body.kind)) (g := fun t => (t.name, t.kind))
      fun d t ⟨_, _, _, ht⟩ => Prod.ext ht.name.symm (kind_of_typeOf ht).symm
    rw [List.map_append, ← hdefined, hkinds]
    rfl
  · obtain ⟨ts, tss, hinternal, husers, rfl⟩ := List.forall₂_cons_left_iff.mp hall
    exact ⟨ts, tss.flatten, by rw [List.flatten_cons, List.append_assoc], hinternal, forall₂_flatMap husers⟩

lemma Realizes.of_outline (h : s₀.Realizes ctx) (hregistry : s.registry = s₀.registry)
    (htypes : s.types.map (·.outline) = s₀.types) : s.Realizes ctx := by
  refine ⟨hregistry ▸ h.registry, ?_⟩
  rw [← h.kinds, ← htypes, List.map_map]
  exact List.map_congr_left fun t _ => Prod.ext rfl (kind_outline t).symm

/-- What a schema is built from, type by type. -/
lemma build_types (hd : ∀ d ∈ ds, d.IsProper) (h : build ds id = .ok s) : ∃ names waiting,
    (TypeNames.builtin id).registerAll (.introspection :: ds) = .ok names ∧
    (∀ d, s.Realizes ⟨d, Builtin.directives names.registry, names.kinds⟩) ∧
    ∃ internal users, s.types = BuiltinScalar.all.map (·.namedType) ++ internal ++ users ∧
      List.Forall₂ (Resolution.TypeOf ⟨.introspection, Builtin.directives names.registry, names.kinds⟩
        s.registry waiting) SchemaDocument.introspection.types (internal.map (·.outline)) ∧
      List.Forall₂ (fun d t => ∃ e ∈ ds, d ∈ e.types ∧
        Resolution.TypeOf ⟨e, Builtin.directives names.registry, names.kinds⟩ s.registry waiting d t)
        (ds.flatMap (·.types)) (users.map (·.outline)) := by
  obtain ⟨s₀, st, hr, hst, happlies⟩ := build_applies h
  have houtline := build_outline hd hr h
  have hregistry : s.registry = s₀.registry := happlies.sameTypes.registry
  obtain ⟨names, hnames, hs, internal, users, htypes, hinternal, husers⟩ := resolve_types hd hr hst
  rw [htypes] at houtline
  obtain ⟨front, users, hfull, hfront, rfl⟩ := List.map_eq_append_iff.mp houtline
  obtain ⟨scalars, internal, rfl, hscalars, rfl⟩ := List.map_eq_append_iff.mp hfront
  have hsame : scalars = scalars.map (·.outline) := by
    refine (List.map_id' scalars).symm.trans (List.map_congr_left fun t ht => ?_)
    obtain ⟨b, -, hb⟩ := List.mem_map.mp (hscalars ▸ List.mem_map.mpr ⟨t, ht, rfl⟩)
    exact (eq_of_outline_scalar hb.symm).trans hb
  rw [hscalars] at hsame
  refine ⟨names, st.pending, hnames, fun d => (hs d).of_outline hregistry (houtline.trans htypes.symm), ?_⟩
  exact ⟨internal, users, hsame ▸ hfull, hregistry ▸ hinternal, hregistry ▸ husers⟩

/-- Every type of a schema is a builtin scalar or what a definition says that can be written. -/
lemma build_typeOrigin (hds : ∀ d ∈ ds, ∃ file text, SchemaDocument.load file text = .ok d)
    (h : build ds id = .ok s) :
    ∀ n ∈ s.types, (∃ b : BuiltinScalar, n = b.namedType) ∨ ∃ d : TypeDefinition, d.IsLegal ∧ s.IsTypeOf d n := by
  obtain ⟨names, waiting, -, hs, internal, users, htypes, hinternal, husers⟩ :=
    build_types (SchemaDocument.loaded_isProper hds) h
  intro n hn
  rw [htypes, List.mem_append, List.mem_append] at hn
  rcases hn with (hn | hn) | hn
  · obtain ⟨b, -, rfl⟩ := List.mem_map.mp hn
    exact .inl ⟨b, rfl⟩
  · obtain ⟨d, hd, ht⟩ := forall₂_exists_left hinternal (List.mem_map_of_mem hn)
    have hlegal := SchemaDocument.introspection_isLegal d hd
    exact .inr ⟨d, hlegal, (hs _).isTypeOf hlegal ht⟩
  · obtain ⟨d, -, e, he, hd, ht⟩ := forall₂_exists_left husers (List.mem_map_of_mem hn)
    obtain ⟨file, text, hload⟩ := hds e he
    have hlegal := SchemaDocument.load_isLegal hload d hd
    exact .inr ⟨d, hlegal, (hs e).isTypeOf hlegal ht⟩

lemma introspection_reserved :
    ∀ d ∈ SchemaDocument.introspection.types, Name.isReservedText d.name.text = true := by
  decide

/-- A type is user-defined exactly if it is neither a scalar that every schema has nor internal. -/
lemma filter_isUserDefined {internal users : List NamedType}
    (hinternal : ∀ t ∈ internal, Name.isReservedText t.name = true)
    (husers : ∀ t ∈ users, Name.isReservedText t.name = false ∧ BuiltinScalar.ofName? t.name = none) :
    (BuiltinScalar.all.map (·.namedType) ++ internal ++ users).filter (·.isUserDefined) = users := by
  have hscalars : ∀ t ∈ BuiltinScalar.all.map (·.namedType), ¬ t.isUserDefined = true := by
    decide
  rw [List.filter_append, List.filter_append, List.filter_eq_nil_iff.mpr hscalars,
    List.filter_eq_nil_iff.mpr, List.filter_eq_self.mpr]
  · rfl
  · intro t ht
    obtain ⟨hname, hscalar⟩ := husers t ht
    simp [NamedType.isUserDefined, hname, hscalar]
  · intro t ht
    simp [NamedType.isUserDefined, hinternal t ht]

/-- **Building loses nothing**: behind the builtin scalars and the types of introspection, a schema has
the types that its documents define, in their order, each with the members that are written, and all
with the types that are written. No name in the documents is a reserved one. -/
theorem build_lossless (hds : ∀ d ∈ ds, ∃ file text, SchemaDocument.load file text = .ok d)
    (h : build ds id = .ok s) :
    (∃ internal, s.types = BuiltinScalar.all.map (·.namedType) ++ internal
        ++ s.types.filter (·.isUserDefined) ∧
      List.Forall₂ s.IsTypeOf SchemaDocument.introspection.types internal) ∧
    List.Forall₂ s.IsTypeOf (ds.flatMap (·.types)) (s.types.filter (·.isUserDefined)) ∧
    ∀ d ∈ ds.flatMap (·.types), ∀ n ∈ d.names, n.isReserved = false := by
  have hlegal : ∀ d ∈ ds.flatMap (·.types), d.IsLegal := by
    intro t ht
    obtain ⟨d, hd, ht⟩ := List.mem_flatMap.mp ht
    obtain ⟨file, text, hload⟩ := hds d hd
    exact SchemaDocument.load_isLegal hload t ht
  have huser := SchemaDocument.loaded_isUser hds
  obtain ⟨names, waiting, hnames, hs, internal, users, htypes, hinternal, husers⟩ :=
    build_types (SchemaDocument.loaded_isProper hds) h
  have hadmits : ∀ d ∈ ds, ∀ t ∈ d.types, TypeNames.Admits d t := fun d hd =>
    TypeNames.registerAll_admits hnames d (List.mem_cons_of_mem _ hd)
  have hfilter : s.types.filter (·.isUserDefined) = users := by
    rw [htypes]
    refine filter_isUserDefined (fun t ht => ?_) fun t ht => ?_
    · obtain ⟨d, hd, ht⟩ := forall₂_exists_left hinternal (List.mem_map_of_mem ht)
      have hname : t.name = d.name.text := ht.name
      exact hname ▸ introspection_reserved d hd
    · obtain ⟨d, -, e, he, hd, ht⟩ := forall₂_exists_left husers (List.mem_map_of_mem ht)
      have hname : t.name = d.name.text := ht.name
      obtain ⟨hpermitted, hscalar⟩ := hadmits e he d hd
      exact hname ▸ ⟨hpermitted.resolve_left (by simp [huser e he]), hscalar⟩
  rw [hfilter]
  refine ⟨⟨internal, htypes, ?_⟩, ?_, ?_⟩
  · exact forall₂_of_map hinternal SchemaDocument.introspection_isLegal (hs _).isTypeOf
  · refine forall₂_of_map husers hlegal ?_
    rintro d t hd ⟨e, -, -, ht⟩
    exact (hs e).isTypeOf hd ht
  · intro d hd n hn
    obtain ⟨t, -, e, he, hde, ht⟩ := forall₂_exists_right husers hd
    have hnot : ¬ e.isBuiltin = true := by simp [huser e he]
    rcases List.mem_cons.mp hn with rfl | hn
    · exact (hadmits e he d hde).1.resolve_left hnot
    · exact (names_permitted ht.body n hn).resolve_left hnot

def queryText : String := "type Query \x7b f(a: [A!]! = [\x7b\x7d], e: E): [Date!]! \x7d"

def inputText : String :=
  "input A \x7b n: Int! = 3, more: [[A]!] \x7d enum E \x7b X Y \x7d scalar Date"

theorem build_lossless_of_two : ∃ d₁ d₂ s, SchemaDocument.load none queryText = .ok d₁ ∧
    SchemaDocument.load (some "input") inputText = .ok d₂ ∧ build [d₁, d₂] 0 = .ok s ∧
    (∃ internal, s.types = BuiltinScalar.all.map (·.namedType) ++ internal
        ++ s.types.filter (·.isUserDefined) ∧
      List.Forall₂ s.IsTypeOf SchemaDocument.introspection.types internal) ∧
    List.Forall₂ s.IsTypeOf ([d₁, d₂].flatMap (·.types)) (s.types.filter (·.isUserDefined)) ∧
    ∀ d ∈ [d₁, d₂].flatMap (·.types), ∀ n ∈ d.names, n.isReserved = false := by
  have hrun : (do
      let d₁ ← SchemaDocument.load none queryText
      let d₂ ← SchemaDocument.load (some "input") inputText
      build [d₁, d₂] 0).toOption.isSome = true := by
    decide +kernel
  obtain ⟨s, hrun⟩ := exists_ok hrun
  obtain ⟨d₁, hd₁, hrun⟩ := bind_eq_ok.mp hrun
  obtain ⟨d₂, hd₂, h⟩ := bind_eq_ok.mp hrun
  have hds : ∀ d ∈ [d₁, d₂], ∃ file text, SchemaDocument.load file text = .ok d :=
    List.forall_mem_cons.mpr ⟨⟨_, _, hd₁⟩, List.forall_mem_singleton.mpr ⟨_, _, hd₂⟩⟩
  exact ⟨d₁, d₂, s, hd₁, hd₂, h, build_lossless hds h⟩

end Schema

end GraphQL
