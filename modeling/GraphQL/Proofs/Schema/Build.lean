import GraphQL.Proofs.Schema.Resolution
import GraphQL.Schema.Builder

/-!
The schemas that documents resolve to.

All types of a schema have names of their own, and so have the members of each type. Its defaults wait
in the order in which the arguments and input fields stand.
-/

namespace GraphQL

lemma bind_eq_ok {ε α β : Type} {x : Except ε α} {f : α → Except ε β} {b : β} :
    (x >>= f) = .ok b ↔ ∃ a, x = .ok a ∧ f a = .ok b := by
  cases x with
  | error e => exact ⟨(nomatch ·), fun ⟨a, h, _⟩ => (nomatch h)⟩
  | ok a => exact ⟨fun h => ⟨a, rfl, h⟩, fun ⟨a', h, h'⟩ => Except.ok.inj h ▸ h'⟩

lemma toOption_eq_some {ε α : Type} {x : Except ε α} {a : α} : x.toOption = some a ↔ x = .ok a := by
  cases x <;> simp [Except.toOption]

lemma exists_ok {ε α : Type} {x : Except ε α} (h : x.toOption.isSome = true) : ∃ a, x = .ok a := by
  obtain ⟨a, ha⟩ := Option.isSome_iff_exists.mp h
  exact ⟨a, toOption_eq_some.mp ha⟩

/-! ### Names of types -/

namespace TypeNames

/-- Names with kinds and slots, each there once. -/
structure WellFormed (names : TypeNames) : Prop where
  registry : names.registry.WellFormed
  origins : names.origins.map (·.1) = names.kinds.map (·.1)
  nodup : (names.kinds.map (·.1)).Nodup
  known : ∀ name ∈ names.kinds.map (·.1), (names.registry.named? name).isSome

variable {names names' : TypeNames} {d : SchemaDocument}

lemma builtin_wellFormed (id : Nat) : (builtin id).WellFormed := by
  have hshapes : (Builtin.registry id).shapes = BuiltinScalar.all.map fun b => .named b.name := by
    rfl
  have hkinds : (builtin id).kinds.map (·.1) = BuiltinScalar.all.map (·.name) := by
    simp [builtin]
  refine ⟨⟨?_, ?_⟩, by simp [builtin], ?_, ?_⟩
  · show (Builtin.registry id).shapes.Nodup
    rw [hshapes]
    decide
  · intro slot e he
    have hmem := List.mem_of_getElem? he
    rw [show (builtin id).registry.shapes = _ from hshapes] at hmem
    simp at hmem
  · rw [hkinds]
    decide
  · intro name hn
    rw [hkinds] at hn
    obtain ⟨b, hb, rfl⟩ := List.mem_map.mp hn
    refine TypeRegistry.find?_isSome_iff.mpr ?_
    show _ ∈ (Builtin.registry id).shapes
    rw [hshapes]
    exact List.mem_map.mpr ⟨b, hb, rfl⟩

lemma register_wellFormed {t : TypeDefinition} (hn : names.WellFormed)
    (h : names.register d t = .ok names') :
    names'.WellFormed ∧ TypeRegistry.Extends names.registry names'.registry
      ∧ names'.kinds = names.kinds ++ [(t.name.text, t.body.kind)] := by
  unfold register at h
  dsimp only at h
  split at h
  · simp at h
  split at h
  · simp at h
  split at h
  · simp at h
  rename_i hnew
  obtain rfl := Except.ok.inj h
  have hspec := TypeRegistry.intern_spec (s := .named t.name.text) hn.registry (by simp)
  have hfresh : t.name.text ∉ names.kinds.map (·.1) := by
    rw [← hn.origins]
    intro hmem
    obtain ⟨o, ho, hname⟩ := List.mem_map.mp hmem
    have := List.lookup_eq_none_iff.mp hnew o ho
    simp [hname] at this
  refine ⟨⟨hspec.1, ?_, ?_, ?_⟩, hspec.2.1, rfl⟩
  · simp [hn.origins]
  · rw [List.map_append, List.nodup_append]
    refine ⟨hn.nodup, List.nodup_singleton _, ?_⟩
    intro a ha b hb hab
    rw [List.map_singleton, List.mem_singleton] at hb
    rw [hab, hb] at ha
    exact hfresh ha
  · intro name hname
    rw [List.map_append, List.mem_append] at hname
    rcases hname with hname | hname
    · obtain ⟨u, hu⟩ := Option.isSome_iff_exists.mp (hn.known name hname)
      have := TypeRegistry.find?_of_extends hspec.1 hspec.2.1 hu
      exact Option.isSome_iff_exists.mpr ⟨u, this⟩
    · rw [List.map_singleton, List.mem_singleton] at hname
      subst hname
      exact Option.isSome_iff_exists.mpr ⟨_, hspec.2.2.2.2⟩

lemma registerTypes_wellFormed {ts : List TypeDefinition} (hn : names.WellFormed)
    (h : ts.foldlM (fun names t => names.register d t) names = .ok names') :
    names'.WellFormed ∧ TypeRegistry.Extends names.registry names'.registry
      ∧ names'.kinds = names.kinds ++ ts.map fun t => (t.name.text, t.body.kind) := by
  induction ts generalizing names with
  | nil =>
    obtain rfl := Except.ok.inj h
    exact ⟨hn, .refl _, by simp⟩
  | cons t ts ih =>
    rw [List.foldlM_cons] at h
    obtain ⟨names₁, h₁, h₂⟩ := bind_eq_ok.mp h
    obtain ⟨hn₁, hext₁, hk₁⟩ := register_wellFormed hn h₁
    obtain ⟨hn₂, hext₂, hk₂⟩ := ih hn₁ h₂
    exact ⟨hn₂, hext₁.trans hext₂, by simp [hk₂, hk₁]⟩

lemma registerAll_wellFormed {ds : List SchemaDocument} (hn : names.WellFormed)
    (h : names.registerAll ds = .ok names') :
    names'.WellFormed ∧ TypeRegistry.Extends names.registry names'.registry
      ∧ names'.kinds
        = names.kinds ++ (ds.flatMap (·.types)).map fun t => (t.name.text, t.body.kind) := by
  unfold registerAll at h
  induction ds generalizing names with
  | nil =>
    obtain rfl := Except.ok.inj h
    exact ⟨hn, .refl _, by simp⟩
  | cons d ds ih =>
    rw [List.foldlM_cons] at h
    obtain ⟨names₁, h₁, h₂⟩ := bind_eq_ok.mp h
    obtain ⟨hn₁, hext₁, hk₁⟩ := registerTypes_wellFormed hn h₁
    obtain ⟨hn₂, hext₂, hk₂⟩ := ih hn₁ h₂
    exact ⟨hn₂, hext₁.trans hext₂, by simp [hk₂, hk₁]⟩

end TypeNames

/-! ### Documents -/

lemma ParseResult.eq_mk {r : ParseResult} {d : Document} (hd : r.document? = some d)
    (herrors : r.errors = []) : r = ⟨some d, []⟩ := by
  obtain ⟨document, errors⟩ := r
  obtain rfl : document = some d := hd
  obtain rfl : errors = [] := herrors
  rfl

namespace SchemaDocument

/-- A document is loaded from what is read without errors. -/
lemma load_eq_ok {file : Option String} {text : String} {d : SchemaDocument}
    (h : load file text = .ok d) : ∃ document, Document.parse text.toList = ⟨some document, []⟩ ∧
      d = ⟨file, text.toList, document.types, false⟩ := by
  unfold load at h
  extract_lets source result at h
  split at h
  · rename_i document herrors hdocument
    split at h
    · simp at h
    · exact ⟨document, ParseResult.eq_mk hdocument herrors, (Except.ok.inj h).symm⟩
  · simp at h

/-- The default values of a document come from a text. -/
def IsProper (d : SchemaDocument) : Prop := ∀ t ∈ d.types, ∀ v ∈ t.body.defaults, v.IsProper

lemma introspection_isProper : introspection.IsProper := by
  intro t ht v hv
  have hmem : v ∈ Builtin.introspectionTypes.flatMap fun t => t.body.defaults :=
    List.mem_flatMap.mpr ⟨t, ht, hv⟩
  have hdefaults : Builtin.introspectionTypes.flatMap (fun t => t.body.defaults)
      = List.replicate 2 (.scalar .boolean "false" .start) := rfl
  rw [hdefaults] at hmem
  obtain ⟨-, rfl⟩ := List.mem_replicate.mp hmem
  exact .scalar _ (by simp)

end SchemaDocument

namespace Schema

open Resolution

variable {names : TypeNames} {directives : List DirectiveSpec}

/-- Before the first document, all names are known. -/
lemma ready_of_wellFormed (h : names.WellFormed) (d : SchemaDocument) :
    Ready ⟨d, directives, names.kinds⟩ ⟨names.registry, [], []⟩ := by
  refine ⟨h.registry, fun name hname => h.known name ?_⟩
  obtain ⟨p, hp, hpn⟩ := List.lookup_isSome_iff.mp hname
  exact List.mem_map.mpr ⟨p, hp, (beq_iff_eq.mp hpn).symm⟩

/-- One document is worked out, and then the others. -/
lemma resolveDocuments_cons {d : SchemaDocument} {ds : List SchemaDocument}
    {st st₁ st₂ : ResolutionState} {ts : List NamedType} {tss : List (List NamedType)}
    (hd : (d.types.mapM type) ⟨d, directives, names.kinds⟩ st = (ts, st₁))
    (hds : (ds.mapM (resolveDocument names directives)).run st₁ = (tss, st₂)) :
    ((d :: ds).mapM (resolveDocument names directives)).run st = (ts :: tss, st₂) := by
  rw [List.mapM_cons]
  show ((resolveDocument names directives d st).1
      :: ((ds.mapM (resolveDocument names directives)).run
        (resolveDocument names directives d st).2).1,
    ((ds.mapM (resolveDocument names directives)).run
      (resolveDocument names directives d st).2).2) = _
  rw [show resolveDocument names directives d st = (ts, st₁) from hd, hds]

lemma resolveDocuments_spec (ds : List SchemaDocument) (hd : ∀ d ∈ ds, d.IsProper)
    {st : ResolutionState} (hst : ∀ d, Ready ⟨d, directives, names.kinds⟩ st)
    {types : List (List NamedType)} {st' : ResolutionState}
    (h : (ds.mapM (resolveDocument names directives)).run st = (types, st')) :
    Grows st st' ∧ (st'.errors = [] →
      (types.flatten.map (·.name) = (ds.flatMap (·.types)).map (·.name.text)
        ∧ ∀ t ∈ types.flatten, t.body.HasDistinctNames)
        ∧ Adds (types.flatten.flatMap (·.ownedInputs)) st st') := by
  induction ds generalizing st types st' with
  | nil =>
    cases h
    exact ⟨.refl _, fun _ => ⟨⟨rfl, by simp⟩, .nil rfl⟩⟩
  | cons d ds ih =>
    obtain ⟨hg, hQ⟩ := types_yields d.types (hd d List.mem_cons_self) st (hst d)
    generalize hrun : (d.types.mapM type) ⟨d, directives, names.kinds⟩ st = run at hg hQ
    obtain ⟨ts, st₁⟩ := run
    generalize hrest : (ds.mapM (resolveDocument names directives)).run st₁ = rest
    obtain ⟨tss, st₂⟩ := rest
    obtain ⟨hg', hQ'⟩ := ih (fun d h => hd d (List.mem_cons_of_mem _ h))
      (fun d' => hg.ready (hst d')) hrest
    obtain ⟨rfl, rfl⟩ := Prod.mk.inj ((resolveDocuments_cons hrun hrest).symm.trans h)
    refine ⟨hg.trans hg', fun he => ?_⟩
    obtain ⟨⟨hnames, hdistinct⟩, hadds⟩ := hQ (hg'.errors he)
    obtain ⟨⟨hnames', hdistinct'⟩, hadds'⟩ := hQ' he
    refine ⟨⟨by simp [hnames, hnames'], ?_⟩, ?_⟩
    · intro t ht
      rcases List.mem_append.mp ht with ht | ht
      · exact hdistinct t ht
      · exact hdistinct' t ht
    · rw [List.flatten_cons, List.flatMap_append]
      exact hadds.append hadds'

/-! ### Schemas -/

/-- The arguments and input fields of all types, each with the owner of its default. -/
def ownedInputs (s : Schema) : List (InputOwner × InputSpec) := s.types.flatMap (·.ownedInputs)

end Schema

namespace MetaFields

def all (m : MetaFields) : List FieldSpec := [m.typename, m.schema, m.type]

end MetaFields

namespace Schema

/-- Names are told apart by what they belong to, and roots take null. -/
structure WellFormed (s : Schema) : Prop where
  registry : s.registry.WellFormed
  types : (s.types.map (·.name)).Nodup
  members : ∀ t ∈ s.types, t.body.HasDistinctNames
  directives : ∀ d ∈ s.directives, (d.arguments.map (·.name)).Nodup
  metaFields : ∀ f ∈ s.metaFields.all, (f.arguments.map (·.name)).Nodup
  roots : ∀ op t, s.root? op = some t → t.isNonNull = false

/-- The directives and meta fields are the builtin ones, and so is the type of strings. -/
structure HasBuiltins (s : Schema) (r : TypeRegistry) : Prop where
  registry : TypeRegistry.Extends r s.registry
  string : (r.named? "String").isSome
  stringType : s.type? "String" = some BuiltinScalar.string.namedType
  directives : s.directives = Builtin.directives r
  metaFields : s.metaFields = Builtin.metaFields r

/-- What resolution without errors leaves behind. -/
structure Resolved (s : Schema) (st : ResolutionState) : Prop where
  wellFormed : s.WellFormed
  builtins : ∃ r, s.HasBuiltins r
  pending : st.pending.reverse.map PendingDefault.key = defaulted s.ownedInputs
  placeholder : ∀ p ∈ s.ownedInputs, ∀ v, p.2.default? = some v → v = .null p.2.type
  proper : ∀ p ∈ st.pending, p.literal.IsProper

lemma objectRoot?_nullable {name : String} {t : TypeId} (h : objectRoot? names name = some t) :
    t.isNonNull = false := by
  unfold objectRoot? at h
  split at h
  · exact (TypeRegistry.find?_spec h).2.1
  · simp at h

lemma builtinDirectives_nodup (r : TypeRegistry) :
    ∀ d ∈ Builtin.directives r, (d.arguments.map (·.name)).Nodup := by
  intro d hd
  simp only [Builtin.directives, List.mem_cons, List.not_mem_nil, or_false] at hd
  rcases hd with rfl | rfl | rfl <;> simp [Builtin.conditional]

lemma builtinMetaFields_nodup (r : TypeRegistry) :
    ∀ f ∈ (Builtin.metaFields r).all, (f.arguments.map (·.name)).Nodup := by
  intro f hf
  simp only [MetaFields.all, List.mem_cons, List.not_mem_nil, or_false] at hf
  rcases hf with rfl | rfl | rfl <;> simp [Builtin.metaFields]

/-- What documents resolve to, from the names of all types on. -/
lemma resolve_eq_ok {ds : List SchemaDocument} {id : Nat} {s : Schema} {st : ResolutionState}
    (h : resolve ds id = .ok (s, st)) : ∃ names query types,
      (TypeNames.builtin id).registerAll (.introspection :: ds) = .ok names ∧
      objectRoot? names "Query" = some query ∧
      ((SchemaDocument.introspection :: ds).mapM
        (resolveDocument names (Builtin.directives names.registry))).run ⟨names.registry, [], []⟩
          = (types, st) ∧
      s = { registry := st.registry
            types := BuiltinScalar.all.map (·.namedType) ++ types.flatten
            directives := Builtin.directives names.registry
            query := query
            mutation := objectRoot? names "Mutation"
            subscription := objectRoot? names "Subscription"
            metaFields := Builtin.metaFields names.registry } := by
  unfold resolve at h
  split at h
  · simp [throw, throwThe, MonadExceptOf.throw, bind, Except.bind] at h
  obtain ⟨names, hnames, h⟩ := bind_eq_ok.mp h
  dsimp only at h
  split at h
  · simp [throw, throwThe, MonadExceptOf.throw] at h
  rename_i query hquery
  generalize hrun : StateT.run _ _ = run at h
  obtain ⟨types, st'⟩ := run
  obtain ⟨rfl, rfl⟩ := Prod.mk.inj (Except.ok.inj h)
  exact ⟨names, query, types, hnames, hquery, hrun, rfl⟩

/-- The builtin types own no inputs. -/
lemma ownedInputs_of_builtins {r : TypeRegistry} {types : List NamedType} {directives : List DirectiveSpec}
    {query : TypeId} {mutation subscription : Option TypeId} {metaFields : MetaFields} :
    Schema.ownedInputs ⟨r, BuiltinScalar.all.map (·.namedType) ++ types, directives, query, mutation,
      subscription, metaFields⟩ = types.flatMap (·.ownedInputs) := by
  simp [ownedInputs, BuiltinScalar.all, BuiltinScalar.namedType, NamedType.ownedInputs,
    NamedTypeBody.ownedInputs]

lemma hasDistinctNames_of_builtins {types : List NamedType} (h : ∀ t ∈ types, t.body.HasDistinctNames) :
    ∀ t ∈ BuiltinScalar.all.map (·.namedType) ++ types, t.body.HasDistinctNames := by
  intro t ht
  rcases List.mem_append.mp ht with ht | ht
  · obtain ⟨b, -, rfl⟩ := List.mem_map.mp ht
    trivial
  · exact h t ht

theorem resolve_resolved {ds : List SchemaDocument} {id : Nat} {s : Schema} {st : ResolutionState}
    (hd : ∀ d ∈ ds, d.IsProper) (h : resolve ds id = .ok (s, st)) (he : st.errors = []) :
    s.Resolved st := by
  obtain ⟨names, query, types, hnames, hquery, hrun, rfl⟩ := resolve_eq_ok h
  obtain ⟨hwf, -, hkinds⟩ :=
    TypeNames.registerAll_wellFormed (TypeNames.builtin_wellFormed id) hnames
  have hd' := List.forall_mem_cons.mpr ⟨SchemaDocument.introspection_isProper, hd⟩
  obtain ⟨hg, hQ⟩ := resolveDocuments_spec _ hd' (ready_of_wellFormed hwf) hrun
  obtain ⟨⟨htypes, hdistinct⟩, hadds⟩ := hQ he
  have hnodup : ((BuiltinScalar.all.map (·.namedType) ++ types.flatten).map (·.name)).Nodup := by
    have hall : (BuiltinScalar.all.map (·.namedType) ++ types.flatten).map (·.name)
        = names.kinds.map (·.1) := by
      rw [List.map_append, htypes, hkinds]
      simp [TypeNames.builtin, BuiltinScalar.namedType, Function.comp_def]
    rw [hall]
    exact hwf.nodup
  have hstring : (names.registry.named? "String").isSome := by
    refine hwf.known "String" ?_
    rw [hkinds]
    simp [TypeNames.builtin, BuiltinScalar.all, BuiltinScalar.name]
  have hregistry : st.registry.WellFormed := hg.wellFormed hwf.registry
  refine ⟨⟨hregistry, hnodup, hasDistinctNames_of_builtins hdistinct,
    builtinDirectives_nodup names.registry, builtinMetaFields_nodup names.registry, ?roots⟩,
    ⟨names.registry, hg.registry, hstring, rfl, rfl, rfl⟩, ?pending, ?placeholder, ?proper⟩
  case roots =>
    intro op t ht
    cases op with
    | query =>
      cases ht
      exact objectRoot?_nullable hquery
    | mutation => exact objectRoot?_nullable ht
    | subscription => exact objectRoot?_nullable ht
  case pending =>
    rw [ownedInputs_of_builtins, List.map_reverse, hadds.pending]
    simp
  case placeholder =>
    rw [ownedInputs_of_builtins]
    exact hadds.placeholder
  case proper =>
    intro p hp
    rcases hg.pending p hp with hp | hp
    · simp at hp
    · exact hp

end Schema

end GraphQL
