import GraphQL.Proofs.Coercion.Declared
import GraphQL.Proofs.Parser.Written
import GraphQL.Proofs.Schema.Introspective
import GraphQL.Proofs.Type.Interning

/-!
Written types and their handles.

A place can be asked whether it takes a type by its handle, or by how it is written. Both ways give the same
answer where the schema has the type. A handle and the text that it is shown as stand for one another: what
is written as a type of the schema is shown is looked up as that type.
-/

namespace GraphQL

lemma Lexeme.IsName.isNamePart {cs : List Char} (h : Lexeme.IsName cs) : ∀ c ∈ cs, isNamePart c = true := by
  obtain ⟨start, more⟩ := h
  refine List.forall_mem_cons.mpr ⟨?_, more⟩
  simp_all [GraphQL.isNamePart, isNameStart, Char.isAlphanum]
  tauto

namespace TypeRef

variable {t u : TypeRef}

lemma toList_render_list (t : TypeRef) (p : Pos) :
    (list t p).render.toList = '[' :: (t.render.toList ++ [']']) := by
  simp [render]

lemma toList_render_nonNull (t : TypeRef) (p : Pos) : (nonNull t p).render.toList = t.render.toList ++ ['!'] := by
  simp [render]

/-- No name is written like a list or with a mark. -/
lemma render_ne_name {n : Name} (name : Lexeme.IsName n.text.toList) (h : ∀ m : Name, u ≠ .named m) :
    n.text ≠ u.render := by
  intro heq
  have hpart : ∀ c ∈ u.render.toList, isNamePart c = true := fun c hc => name.isNamePart c (heq ▸ hc)
  cases u with
  | named m => exact h m rfl
  | list u p => exact absurd (hpart '[' (by simp [toList_render_list])) (by decide)
  | nonNull u p => exact absurd (hpart '!' (by simp [toList_render_nonNull])) (by decide)

lemma render_list_ne_nonNull {p q : Pos} : (list t p).render ≠ (nonNull u q).render := by
  intro h
  have hlast := congrArg (fun text : String => text.toList.getLast?) h
  rw [toList_render_list, toList_render_nonNull, ← List.cons_append, List.getLast?_concat,
    List.getLast?_concat] at hlast
  exact absurd (Option.some.inj hlast) (by decide)

/-- **Types that are written alike are the same**, up to places. -/
lemma isEquivalent_of_render (ht : t.IsLegal) (hu : u.IsLegal) (h : t.render = u.render) :
    t.isEquivalent u = true := by
  induction ht generalizing u with
  | @named n name =>
    cases hu with
    | @named m name' => exact beq_iff_eq.mpr h
    | _ => exact absurd h (render_ne_name name nofun)
  | @list t p element ih =>
    cases hu with
    | named name => exact absurd h.symm (render_ne_name name nofun)
    | list element' =>
      refine ih element' (String.toList_inj.mp ?_)
      simpa [toList_render_list] using congrArg String.toList h
    | nonNull => exact absurd h render_list_ne_nonNull
  | @nonNull t p required once ih =>
    cases hu with
    | named name => exact absurd h.symm (render_ne_name name nofun)
    | list => exact absurd h.symm render_list_ne_nonNull
    | nonNull required' =>
      refine ih required' (String.toList_inj.mp ?_)
      simpa [toList_render_nonNull] using congrArg String.toList h

end TypeRef

namespace TypeRegistry

variable {r : TypeRegistry} {t : TypeId} {shape : TypeShape}

/-- What stands in a slot is found there. -/
lemma find?_of_shape? (hr : r.WellFormed) (h : r.shape? t = some shape) : r.find? shape = some t.nullable := by
  obtain ⟨u, hu⟩ := Option.isSome_iff_exists.mp (find?_isSome_iff.mpr (mem_of_shape? h))
  obtain ⟨-, hnull, hshape⟩ := find?_spec hu
  rw [hu, hr.eq_of_shape? (t := t.nullable) h hshape hnull]

lemma has_ofRef? {ref : TypeRef} (h : r.ofRef? ref = some t) : r.Has t := by
  induction ref generalizing t with
  | named n => exact (find?_spec h).1
  | list ref p _ =>
    obtain ⟨e, -, hlist⟩ := Option.bind_eq_some_iff.mp h
    exact (find?_spec hlist).1
  | nonNull ref p ih =>
    obtain ⟨e, he, rfl⟩ := Option.map_eq_some_iff.mp h
    exact (ih he).nonNull

end TypeRegistry

namespace Schema

variable {s s' : Schema} {ds : List SchemaDocument} {id : Nat} {t e location candidate : TypeId}
  {ref : TypeRef}

/-! ### Places by handle and as written -/

/-- One layer of compatibility; `inner` decides about elements. -/
def acceptsLayer (s : Schema) (inner : TypeId → TypeId → Bool) (location candidate : TypeId) : Bool :=
  (!location.isNonNull || candidate.isNonNull)
    && match s.element? location, s.element? candidate with
       | some e, some f => inner e f
       | none, none => location.nullable == candidate.nullable
       | _, _ => false

lemma acceptsLayer_congr {inner inner' : TypeId → TypeId → Bool}
    (h : ∀ e, s.element? location = some e → inner e = inner' e) :
    s.acceptsLayer inner location candidate = s.acceptsLayer inner' location candidate := by
  unfold acceptsLayer
  cases he : s.element? location with
  | none => cases s.element? candidate <;> rfl
  | some e => cases s.element? candidate <;> simp [h e he]

/-- Steps that are not needed do not matter, as an element stands in front of its list. -/
lemma acceptsWithin_stable (hr : s.registry.WellFormed) {n m : Nat} (hn : location.slot < n) (hm : location.slot < m) :
    s.acceptsWithin n location = s.acceptsWithin m location := by
  induction n generalizing m location with
  | zero => omega
  | succ n ih =>
    obtain ⟨m, rfl⟩ : ∃ k, m = k + 1 := ⟨m - 1, by omega⟩
    funext candidate
    refine acceptsLayer_congr fun e he => ?_
    have hlt := (TypeRegistry.element_slot_lt hr he).2
    exact ih (by omega) (by omega)

/-- Compatibility without its count of steps. -/
lemma accepts_eq (hr : s.registry.WellFormed) (location candidate : TypeId) :
    s.accepts location candidate = s.acceptsLayer s.accepts location candidate := by
  refine acceptsLayer_congr fun e he => ?_
  have hlt : e.slot < s.registry.size := (TypeRegistry.element_slot_lt hr he).1.2
  exact acceptsWithin_stable hr hlt (Nat.lt_succ_of_lt hlt)

/-- A mark of the candidate does as if the place took null. -/
lemma accepts_nonNull (hr : s.registry.WellFormed) (location candidate : TypeId) :
    s.accepts location candidate.nonNull = s.accepts location.nullable candidate := by
  have hcandidate : s.element? candidate.nonNull = s.element? candidate := rfl
  have hlocation : s.element? location.nullable = s.element? location := rfl
  rw [accepts_eq hr, accepts_eq hr location.nullable, acceptsLayer, acceptsLayer, hcandidate, hlocation]
  cases s.element? location <;> cases s.element? candidate <;> simp [TypeId.nullable, TypeId.nonNull]

/-- Where the place and a single type both take null, they have to be the same. -/
lemma accepts_single (hr : s.registry.WellFormed) (location : TypeId) {c : TypeId} (hsingle : s.element? c = none)
    (hnull : c.isNonNull = false) :
    s.accepts location c = (!location.isNonNull && !s.isList location && some c == some location) := by
  rw [accepts_eq hr, acceptsLayer, hsingle, hnull, Bool.or_false, isList]
  obtain ⟨registry, slot, nonNull⟩ := location
  obtain ⟨registry', slot', nonNull'⟩ := c
  cases hnull
  cases nonNull
  · cases s.element? ⟨registry, slot, false⟩
    · simp [TypeId.nullable, eq_comm]
    · rfl
  · rfl

/-- **Compatibility by shape is compatibility by handle**, where there is a handle. -/
lemma acceptsRef_eq (hr : s.registry.WellFormed) (location : TypeId) {c : TypeId} (h : s.typeOfRef? ref = some c) :
    s.acceptsRef location ref = s.accepts location c := by
  induction ref generalizing location c with
  | named n =>
    have hnamed : s.registry.named? n.text = some c := ofRef?_of_typeOfRef? h
    have hfound : s.typeId? n.text = some c := h
    rw [acceptsRef, hfound, accepts_single hr location (TypeRegistry.element?_named hnamed)
      (TypeRegistry.find?_spec hnamed).2.1]
  | list ref p ih =>
    obtain ⟨e, he, hlist⟩ := Option.bind_eq_some_iff.mp h
    obtain ⟨-, hnull, -⟩ := TypeRegistry.find?_spec hlist
    have helement : s.element? c = some e := TypeRegistry.element?_listOf? hlist
    rw [acceptsRef, accepts_eq hr, acceptsLayer, helement, hnull, Bool.or_false]
    congr 1
    cases s.element? location with
    | none => rfl
    | some l => exact ih l he
  | nonNull ref p ih =>
    obtain ⟨e, he, rfl⟩ := Option.map_eq_some_iff.mp h
    rw [acceptsRef, ih _ he, accepts_nonNull hr]

/-! ### Types and their texts -/

/-- Every named type of a schema has a name that can be written. -/
def HasTypeNames (s : Schema) : Prop := ∀ n ∈ s.types, Lexeme.IsName n.name.toList

lemma build_hasTypeNames (hds : ∀ d ∈ ds, ∃ file text, SchemaDocument.load file text = .ok d)
    (h : build ds id = .ok s) : s.HasTypeNames := by
  intro n hn
  rcases build_typeOrigin hds h n hn with ⟨b, rfl⟩ | ⟨d, hd, ht⟩
  · cases b <;> decide
  · exact ht.name ▸ hd.name

/-- A name with a slot is that of a type, and is looked up as what stands in the slot. -/
lemma typeId?_of_shape? (hr : s.registry.WellFormed) (hslots : s.SlotsDefined) {name : String}
    (hshape : s.registry.shape? t = some (.named name)) : s.typeId? name = some t.nullable := by
  have hdefined : (s.type? name).isSome := hslots name (TypeRegistry.mem_of_shape? hshape)
  rw [typeId?, if_pos hdefined]
  exact TypeRegistry.find?_of_shape? hr hshape

/-- Places of written types do not matter. -/
lemma typeOfRef?_congr {ref ref' : TypeRef} (h : ref.isEquivalent ref' = true) :
    s.typeOfRef? ref' = s.typeOfRef? ref := by
  induction ref generalizing ref' with
  | named n => cases ref' <;> simp_all [TypeRef.isEquivalent, typeOfRef?]
  | list ref p ih =>
    cases ref' with
    | list ref' q => rw [typeOfRef?, typeOfRef?, ih h]
    | _ => cases h
  | nonNull ref p ih =>
    cases ref' with
    | nonNull ref' q => rw [typeOfRef?, typeOfRef?, ih h]
    | _ => cases h

/-- The mark of a type is written behind what is written for the type that takes null. -/
lemma exists_ref_of_nullable (h : ∃ ref, TypeRef.IsLegal ref ∧ s.typeOfRef? ref = some t.nullable) :
    ∃ ref, TypeRef.IsLegal ref ∧ s.typeOfRef? ref = some t := by
  obtain ⟨ref, hlegal, href⟩ := h
  obtain ⟨registry, slot, nonNull⟩ := t
  cases nonNull with
  | false => exact ⟨ref, hlegal, href⟩
  | true =>
    have honce : ref.isNonNull = false := (TypeRegistry.isNonNull_ofRef? (ofRef?_of_typeOfRef? href)).symm
    exact ⟨.nonNull ref .start, .nonNull hlegal honce, Option.map_eq_some_iff.mpr ⟨_, href, rfl⟩⟩

/-- Every type that has a slot can be written. -/
lemma exists_ref (hr : s.registry.WellFormed) (hslots : s.SlotsDefined) (hnames : s.HasTypeNames)
    (ht : s.registry.Has t) : ∃ ref, TypeRef.IsLegal ref ∧ s.typeOfRef? ref = some t := by
  refine exists_ref_of_nullable ?_
  induction t using TypeRegistry.typeInduction hr with
  | single t hsingle =>
    obtain ⟨name, hshape⟩ := ht.named_of_single hsingle
    obtain ⟨n, hn⟩ := Option.isSome_iff_exists.mp (hslots name (TypeRegistry.mem_of_shape? hshape))
    have hname : n.name = name := by simpa using List.find?_some hn
    exact ⟨.named ⟨name, .start⟩, .named (hname ▸ hnames n (List.mem_of_find?_eq_some hn)),
      typeId?_of_shape? hr hslots hshape⟩
  | list t e he ih =>
    obtain ⟨ref, hlegal, href⟩ := exists_ref_of_nullable (ih (TypeRegistry.element_slot_lt hr he).1)
    have hlist : s.registry.listOf? e = some t.nullable :=
      TypeRegistry.find?_of_shape? hr (TypeRegistry.shape?_of_element? he)
    exact ⟨.list ref .start, .list hlegal, Option.bind_eq_some_iff.mpr ⟨e, href, hlist⟩⟩

/-- A handle is shown as the type is written that it was looked up for. -/
lemma typeName_of_typeOfRef? (hr : s.registry.WellFormed) (hmarks : ref.MarksOnce) (h : s.typeOfRef? ref = some t) :
    s.typeName t = ref.render :=
  TypeRegistry.nameOf_ofRef? hr hmarks (ofRef?_of_typeOfRef? h)

/-- What is derived from the text of a type, and whatever is written alike, is looked up as that type. -/
lemma resolves_typeName (hr : s.registry.WellFormed) (hslots : s.SlotsDefined) (hnames : s.HasTypeNames)
    (ht : s.registry.Has t) :
    (∃ ref, Grammar.IsType (Token.lex (s.typeName t).toList) ref [] ∧ s.typeOfRef? ref = some t) ∧
      ∀ ref, TypeRef.IsLegal ref → ref.render = s.typeName t → s.typeOfRef? ref = some t := by
  obtain ⟨ref, hlegal, href⟩ := exists_ref hr hslots hnames ht
  have hname : s.typeName t = ref.render := typeName_of_typeOfRef? hr hlegal.marksOnce href
  refine ⟨?_, fun ref' hlegal' hrender => ?_⟩
  · obtain ⟨ref', there, hderives, hequiv⟩ := ref.derives_render hlegal 0 [] nofun
    have hnil : Token.lexFrom there [] = [] := Token.lexFrom_of_nil rfl
    rw [List.append_nil, ← hname, hnil] at hderives
    exact ⟨ref', hderives, (typeOfRef?_congr hequiv).trans href⟩
  · exact (typeOfRef?_congr (TypeRef.isEquivalent_of_render hlegal hlegal' (hname.symm.trans hrender.symm))).trans href

/-! ### The types that a schema leads to -/

/-- The types of fields, arguments and input fields, and what they are made of. -/
inductive Reaches (s : Schema) : TypeId → Prop where
  | field {n : NamedType} {fields : List FieldSpec} {f : FieldSpec} (type : n ∈ s.types)
      (object : n.objectFields? = some fields) (mem : f ∈ fields) : Reaches s f.type
  | metaField {f : FieldSpec} (mem : f ∈ s.metaFields.all) : Reaches s f.type
  | input {i : InputSpec} (mem : i ∈ s.inputs) : Reaches s i.type
  | nullable {t : TypeId} (reached : Reaches s t) : Reaches s t.nullable
  | element {t e : TypeId} (reached : Reaches s t) (list : s.element? t = some e) : Reaches s e

lemma has_of_kind? {k : NamedTypeKind} (h : s.kind? t = some k) : s.registry.Has t := by
  obtain ⟨n, hn, -⟩ := Option.map_eq_some_iff.mp h
  exact has_of_named? hn

lemma has_of_isOutput (h : s.isOutput t = true) : s.registry.Has t := by
  simp only [isOutput, isScalar, isEnum, isObject, Bool.or_eq_true, decide_eq_true_eq] at h
  rcases h with (h | h) | h <;> exact has_of_kind? h

lemma has_of_isInput (h : s.isInput t = true) : s.registry.Has t := by
  simp only [isInput, isScalar, isEnum, isInputObject, Bool.or_eq_true, decide_eq_true_eq] at h
  rcases h with (h | h) | h <;> exact has_of_kind? h

/-- The types that a definition leads to have slots. -/
lemma IsTypeOf.has {d : TypeDefinition} {n : NamedType} (h : s.IsTypeOf d n) :
    (∀ fields, n.objectFields? = some fields → ∀ f ∈ fields, s.registry.Has f.type) ∧
      ∀ q ∈ n.ownedInputs, s.registry.Has q.2.type := by
  have hinput {ds : List InputDefinition} {is : List InputSpec} (members : List.Forall₂ s.IsInputOf ds is) :
      ∀ i ∈ is, s.registry.Has i.type := fun i hi => by
    obtain ⟨d, -, hd⟩ := forall₂_exists_left members hi
    exact has_of_isInput hd.isInput
  obtain ⟨-, -, hbody⟩ := h
  obtain ⟨name, description, body⟩ := n
  unfold NamedType.ownedInputs
  generalize d.body = written at hbody
  cases hbody with
  | scalar => exact ⟨nofun, nofun⟩
  | enum _ _ => exact ⟨nofun, nofun⟩
  | @object ds fs _ members =>
    have hfield : ∀ f ∈ fs, s.registry.Has f.type ∧ ∀ a ∈ f.arguments, s.registry.Has a.type := fun f hf => by
      obtain ⟨d, -, hd⟩ := forall₂_exists_left members hf
      exact ⟨has_of_isOutput hd.isOutput, hinput hd.arguments⟩
    refine ⟨fun fields heq f hf => ?_, fun q hq => ?_⟩
    · obtain rfl := Option.some.inj heq
      exact (hfield f hf).1
    · obtain ⟨f, hf, hq⟩ := List.mem_flatMap.mp hq
      obtain ⟨a, ha, rfl⟩ := List.mem_map.mp hq
      exact (hfield f hf).2 a ha
  | input _ members =>
    refine ⟨nofun, fun q hq => ?_⟩
    obtain ⟨i, hi, rfl⟩ := List.mem_map.mp hq
    exact hinput members i hi

/-- The types that need no definition have slots. -/
lemma RestsOn.has {names : TypeNames} (h : s.RestsOn names)
    (hnames : (TypeNames.builtin id).registerAll (.introspection :: ds) = .ok names) (hs : s.Introspective) :
    (∀ f ∈ s.metaFields.all, s.registry.Has f.type) ∧
      (∀ i ∈ s.directives.flatMap (·.arguments), s.registry.Has i.type) ∧
      ∀ i ∈ s.metaFields.all.flatMap (·.arguments), s.registry.Has i.type := by
  have hscalar (b : BuiltinScalar) : s.registry.Has (Builtin.handle names.registry b.name) :=
    (TypeRegistry.find?_spec (h.named _ (builtin_mem_kinds b hnames))).1
  have hmeta : ∀ f ∈ s.metaFields.all, s.registry.Has f.type := by
    simp only [MetaFields.all, List.forall_mem_cons]
    exact ⟨TypeRegistry.has_ofRef? hs.typename, TypeRegistry.has_ofRef? hs.schema,
      TypeRegistry.has_ofRef? hs.type, List.forall_mem_nil _⟩
  have hboolean := (hscalar .boolean).nonNull
  have hdirectives : ∀ i ∈ s.directives.flatMap (·.arguments), s.registry.Has i.type := by
    rw [h.directives]
    exact List.forall_mem_cons.mpr ⟨hboolean, List.forall_mem_cons.mpr ⟨hboolean,
      List.forall_mem_singleton.mpr (hscalar .string)⟩⟩
  have harguments : ∀ i ∈ s.metaFields.all.flatMap (·.arguments), s.registry.Has i.type := by
    rw [h.metaFields]
    exact List.forall_mem_singleton.mpr (hscalar .string).nonNull
  exact ⟨hmeta, hdirectives, harguments⟩

lemma build_has (hds : ∀ d ∈ ds, ∃ file text, SchemaDocument.load file text = .ok d) (h : build ds id = .ok s) :
    (∀ n ∈ s.types, ∀ fields, n.objectFields? = some fields → ∀ f ∈ fields, s.registry.Has f.type) ∧
      (∀ f ∈ s.metaFields.all, s.registry.Has f.type) ∧ ∀ i ∈ s.inputs, s.registry.Has i.type := by
  have hproper := SchemaDocument.loaded_isProper hds
  obtain ⟨names, hnames, hrests⟩ := build_restsOn hproper h
  obtain ⟨hmeta, hdirectives, harguments⟩ := hrests.has hnames (build_introspective hproper h)
  have htypes : ∀ n ∈ s.types, (∀ fields, n.objectFields? = some fields → ∀ f ∈ fields, s.registry.Has f.type) ∧
      ∀ q ∈ n.ownedInputs, s.registry.Has q.2.type := fun n hn => by
    rcases build_typeOrigin hds h n hn with ⟨b, rfl⟩ | ⟨d, -, ht⟩
    · exact ⟨nofun, nofun⟩
    · exact ht.has
  refine ⟨fun n hn => (htypes n hn).1, hmeta, fun i hi => ?_⟩
  rcases List.mem_append.mp hi with hi | hi
  · rcases List.mem_append.mp hi with hi | hi
    · obtain ⟨q, hq, rfl⟩ := List.mem_map.mp hi
      obtain ⟨n, hn, hq⟩ := List.mem_flatMap.mp hq
      exact (htypes n hn).2 q hq
    · exact hdirectives i hi
  · exact harguments i hi

/-- All types that a schema leads to have slots, also behind lists that were added later. -/
lemma Reaches.has (hds : ∀ d ∈ ds, ∃ file text, SchemaDocument.load file text = .ok d) (h : build ds id = .ok s)
    (hlists : s.WithLists s') (ht : s'.Reaches t) : s'.registry.Has t := by
  obtain ⟨hfields, hmeta, hinputs⟩ := build_has hds h
  obtain ⟨hr', hextends⟩ := hlists.registry (build_wellFormed hds h).registry
  have hmeta' : s'.metaFields = s.metaFields := by rw [hlists.eq]
  induction ht with
  | field type object mem => exact hextends.has (hfields _ (hlists.types ▸ type) _ object _ mem)
  | metaField mem => exact hextends.has (hmeta _ (hmeta' ▸ mem))
  | input mem => exact hextends.has (hinputs _ (hlists.inputs ▸ mem))
  | nullable _ ih => exact ih
  | element _ list _ => exact (TypeRegistry.element_slot_lt hr' list).1

/-- **Written types and handles agree.** Where the schema has a written type, a place takes the one if and only
if it takes the other, and the handle is shown as the type is written. Every type that a schema leads to is looked
up by what is derived from the text that it is shown as, and by whatever else is written in that way. -/
theorem typeOfRef?_faithful (hds : ∀ d ∈ ds, ∃ file text, SchemaDocument.load file text = .ok d)
    (h : build ds id = .ok s) (hlists : s.WithLists s') :
    (∀ location ref c, TypeRef.MarksOnce ref → s'.typeOfRef? ref = some c →
      s'.acceptsRef location ref = s'.accepts location c ∧ s'.typeName c = ref.render) ∧
    ∀ t, s'.Reaches t →
      (∃ ref, Grammar.IsType (Token.lex (s'.typeName t).toList) ref [] ∧ s'.typeOfRef? ref = some t) ∧
      ∀ ref, TypeRef.IsLegal ref → ref.render = s'.typeName t → s'.typeOfRef? ref = some t := by
  have hr' := (hlists.registry (build_wellFormed hds h).registry).1
  have hslots := hlists.slotsDefined (build_slotsDefined (SchemaDocument.loaded_isProper hds) h)
  have hnames : s'.HasTypeNames := fun n hn => build_hasTypeNames hds h n (hlists.types ▸ hn)
  exact ⟨fun location ref c hmarks href => ⟨acceptsRef_eq hr' location href, typeName_of_typeOfRef? hr' hmarks href⟩,
    fun t ht => resolves_typeName hr' hslots hnames (ht.has hds h hlists)⟩

/-- The type of a list without nulls. -/
def petsType : TypeRef := .nonNull (.list (.nonNull (.named ⟨"Pet", .start⟩) .start) .start) .start

theorem typeOfRef?_faithful_of_pets : ∃ d s pets, SchemaDocument.load none Sample.schemaText = .ok d ∧
    build [d] 0 = .ok s ∧ petsType.MarksOnce ∧ s.typeOfRef? petsType = some pets ∧ s.Reaches pets ∧
    (∀ location, s.acceptsRef location petsType = s.accepts location pets ∧ s.typeName pets = petsType.render) ∧
    (∃ ref, Grammar.IsType (Token.lex (s.typeName pets).toList) ref [] ∧ s.typeOfRef? ref = some pets) ∧
    ∀ ref, TypeRef.IsLegal ref → ref.render = s.typeName pets → s.typeOfRef? ref = some pets := by
  have hrun : (Sample.readChars? Sample.schemaChars.1 Sample.queryChars.1).any (fun (s, _) =>
      s.types.any fun n => n.objectFields?.any fun fields => fields.any fun f =>
        s.typeOfRef? petsType == some f.type) = true := by
    decide +kernel
  obtain ⟨s, _, hs, -, hcheck⟩ := Sample.exists_of_chars Sample.schemaChars.2 Sample.queryChars.2 hrun
  obtain ⟨d, hload, hbuild⟩ := ofText_eq_ok.mp hs
  have hds : ∀ e ∈ [d], ∃ file text, SchemaDocument.load file text = .ok e :=
    List.forall_mem_singleton.mpr ⟨none, _, hload⟩
  simp only [List.any_eq_true, Option.any_eq_true, beq_iff_eq] at hcheck
  obtain ⟨n, hn, fields, hfields, f, hf, href⟩ := hcheck
  have hmarks : petsType.MarksOnce := .nonNull (.list (.nonNull .named rfl)) rfl
  have hreaches : s.Reaches f.type := .field hn hfields hf
  obtain ⟨hagrees, hresolves⟩ := typeOfRef?_faithful hds hbuild .refl
  exact ⟨d, s, f.type, hload, hbuild, hmarks, href, hreaches, fun location => hagrees location _ _ hmarks href,
    hresolves _ hreaches⟩

end Schema

end GraphQL
