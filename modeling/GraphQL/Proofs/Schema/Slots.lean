import GraphQL.Proofs.Schema.Lossless
import GraphQL.Proofs.Schema.MoreLists

/-!
The names that have slots.

A name gets a slot when its type is registered. Whatever is worked out behind that, no more than lists are
added. So every slot of a built schema is that of a list or of a type that the schema defines, and stays so
while lists are added to it.
-/

namespace GraphQL

namespace TypeRegistry

variable {r : TypeRegistry} {P : String → Prop}

/-- All names that have a slot are of a kind. -/
def NamesOnly (r : TypeRegistry) (P : String → Prop) : Prop := ∀ name, .named name ∈ r.shapes → P name

namespace NamesOnly

lemma intern {s : TypeShape} (h : r.NamesOnly P) (hs : ∀ name, s = .named name → P name) :
    (r.intern s).2.NamesOnly P := by
  unfold TypeRegistry.intern
  split
  · exact h
  · intro name hname
    rcases List.mem_append.mp hname with hname | hname
    · exact h name hname
    · exact hs name (List.mem_singleton.mp hname).symm

lemma listOf (h : r.NamesOnly P) (e : TypeId) : (r.listOf e).2.NamesOnly P :=
  h.intern fun _ heq => nomatch heq

lemma mono {Q : String → Prop} (h : r.NamesOnly P) (hPQ : ∀ name, P name → Q name) : r.NamesOnly Q :=
  fun name hname => hPQ name (h name hname)

end NamesOnly

end TypeRegistry

namespace Resolution

open TypeRegistry (NamesOnly)

variable {α β : Type} {m n : Resolution α}

/-- No name gets a slot. -/
def AddsLists (m : Resolution α) : Prop :=
  ∀ ctx st P, NamesOnly st.registry P → NamesOnly (m ctx st).2.registry P

namespace AddsLists

lemma leaves (h : ∀ ctx st, (m ctx st).2.registry = st.registry) : AddsLists m :=
  fun ctx st _ hst => h ctx st ▸ hst

lemma pure (a : α) : AddsLists (Pure.pure a : Resolution α) := leaves fun _ _ => rfl

lemma bind {f : α → Resolution β} (hm : AddsLists m) (hf : ∀ a, AddsLists (f a)) : AddsLists (m >>= f) :=
  fun ctx st P hst => hf _ ctx _ P (hm ctx st P hst)

lemma ite {p : Prop} [Decidable p] (hm : AddsLists m) (hn : AddsLists n) : AddsLists (if p then m else n) := by
  by_cases h : p
  · rwa [if_pos h]
  · rwa [if_neg h]

lemma discard (hm : AddsLists m) : AddsLists (Functor.discard m) := hm

lemma report (e : DefinitionError) : AddsLists (report e) := leaves fun _ _ => rfl

lemma place (p : Pos) : AddsLists (place p) := leaves fun _ _ => rfl

lemma kind? (name : String) : AddsLists (kind? name) := leaves fun _ _ => rfl

lemma read : AddsLists (MonadReaderOf.read : Resolution ResolutionContext) := leaves fun _ _ => rfl

lemma reportAt {e : SchemaPlace → DefinitionError} (p : Pos) (hm : AddsLists m) :
    AddsLists (Resolution.place p >>= fun q => Resolution.report (e q) >>= fun _ => m) :=
  (place p).bind fun _ => (report _).bind fun _ => hm

lemma mapM {f : β → Resolution α} {bs : List β} (hf : ∀ b, AddsLists (f b)) : AddsLists (bs.mapM f) := by
  induction bs with
  | nil => exact pure _
  | cons b bs ih =>
    rw [List.mapM_cons]
    exact (hf b).bind fun _ => ih.bind fun _ => pure _

lemma typeOfRef (t : TypeRef) : AddsLists (typeOfRef t) := by
  induction t with
  | named n =>
    refine (kind? _).bind fun k => ?_
    cases k with
    | none => exact reportAt _ (pure _)
    | some k => exact leaves fun _ _ => rfl
  | list t p ih =>
    refine ih.bind fun e => ?_
    cases e with
    | none => exact pure _
    | some e => exact fun ctx st P hst => hst.listOf e
  | nonNull t p ih => exact ih.bind fun _ => pure _

lemma deprecationReason (d : Directive) (reason : Option String) (as : List Argument) :
    AddsLists (deprecationReason d reason as) := by
  induction as generalizing reason with
  | nil => exact pure _
  | cons a as ih =>
    rw [Resolution.deprecationReason]
    refine ite ?_ (reportAt _ (ih _))
    split
    · exact ih _
    · exact ih _
    · exact reportAt _ (ih _)

lemma directivesFrom (location : DirectiveLocation) (seen : List String) (state : Deprecation)
    (ds : List Directive) : AddsLists (directivesFrom location seen state ds) := by
  induction ds generalizing seen state with
  | nil => exact pure _
  | cons d ds ih =>
    rw [Resolution.directivesFrom]
    refine read.bind fun ctx => ?_
    split
    · exact reportAt _ (ih _ _)
    · refine ite (reportAt _ (ih _ _)) (ite (reportAt _ (ih _ _)) (ite ?_ (ih _ _)))
      exact (deprecationReason _ _ _).bind fun _ => ih _ _

lemma directives (location : DirectiveLocation) (ds : List Directive) : AddsLists (directives location ds) :=
  directivesFrom location [] .current ds

lemma members {typeName : String} {nameOf : α → Name}
    {duplicate : String → SchemaPlace → SchemaPlace → DefinitionError} {member : α → Resolution (Option β)}
    (hm : ∀ a, AddsLists (member a)) (seen : List Name) (as : List α) :
    AddsLists (members typeName nameOf duplicate member seen as) := by
  induction as generalizing seen with
  | nil => exact pure _
  | cons a as ih =>
    rw [Resolution.members]
    refine read.bind fun ctx => ite (reportAt _ (ih _)) ?_
    split
    · exact (place _).bind fun _ => reportAt _ (ih _)
    · exact (hm a).bind fun _ => (ih _).bind fun _ => pure _

lemma input (owner : InputOwner) (d : InputDefinition) : AddsLists (input owner d) := by
  refine (directives _ _).discard.bind fun _ => (typeOfRef _).bind fun t => ?_
  cases t with
  | none => exact pure _
  | some t =>
    refine (kind? _).bind fun k => ite (reportAt _ (pure _)) ?_
    split
    · exact pure _
    · exact (place _).bind fun _ => leaves fun _ _ => rfl

lemma inputs (typeName : String) (duplicate : String → SchemaPlace → SchemaPlace → DefinitionError)
    (owner : String → InputOwner) (ds : List InputDefinition) :
    AddsLists (Resolution.members typeName (·.name) duplicate
      (fun d => Resolution.input (owner d.name.text) d) [] ds) := by
  have hinput : ∀ d : InputDefinition, AddsLists (Resolution.input (owner d.name.text) d) := fun d => input _ d
  exact members hinput [] ds

lemma field (typeName : String) (d : FieldDefinition) : AddsLists (field typeName d) := by
  refine (directives _ _).bind fun _ => (inputs typeName _ (.argument typeName d.name.text) d.arguments).bind fun _ =>
    (typeOfRef _).bind fun t => ?_
  cases t with
  | none => exact pure _
  | some t => exact (kind? _).bind fun k => ite (reportAt _ (pure _)) (pure _)

lemma enumValue (d : EnumValueDefinition) : AddsLists (enumValue d) := (directives _ _).bind fun _ => pure _

lemma requireMember (name : Name) (kind : MemberKind) (ds : List α) : AddsLists (requireMember name kind ds) :=
  ite (reportAt _ (pure _)) (pure _)

lemma body (name : Name) (ds : List Directive) (b : TypeBody) : AddsLists (body name ds b) := by
  cases b with
  | scalar => exact (directives _ _).discard.bind fun _ => pure _
  | object fields =>
    exact (directives _ _).discard.bind fun _ => (requireMember _ _ _).bind fun _ =>
      (members (field name.text) [] fields).bind fun _ => pure _
  | enum values =>
    exact (directives _ _).discard.bind fun _ => (requireMember _ _ _).bind fun _ =>
      (members enumValue [] values).bind fun _ => pure _
  | input fields =>
    exact (directives _ _).discard.bind fun _ => (requireMember _ _ _).bind fun _ =>
      (inputs name.text _ (.inputField name.text) fields).bind fun _ => pure _

lemma type (d : TypeDefinition) : AddsLists (type d) := (body _ _ _).bind fun _ => pure _

end AddsLists

end Resolution

namespace TypeNames

open TypeRegistry (NamesOnly)

variable {names names' : TypeNames} {d : SchemaDocument}

/-- The names that have a slot are those that have a kind. -/
def SlotsKnown (names : TypeNames) : Prop := names.registry.NamesOnly (· ∈ names.kinds.map (·.1))

lemma builtin_slotsKnown (id : Nat) : (builtin id).SlotsKnown := by
  intro name hname
  have hshapes : (builtin id).registry.shapes = BuiltinScalar.all.map fun b => .named b.name := by rfl
  rw [hshapes] at hname
  obtain ⟨b, hb, heq⟩ := List.mem_map.mp hname
  exact TypeShape.named.inj heq ▸ List.mem_map.mpr ⟨_, List.mem_map.mpr ⟨b, hb, rfl⟩, rfl⟩

lemma register_slotsKnown {t : TypeDefinition} (hn : names.SlotsKnown) (h : names.register d t = .ok names') :
    names'.SlotsKnown := by
  unfold register at h
  dsimp only at h
  split at h
  · cases h
  split at h
  · cases h
  split at h
  · cases h
  obtain rfl := Except.ok.inj h
  unfold SlotsKnown
  rw [List.map_append]
  refine NamesOnly.intern (hn.mono fun _ => List.mem_append_left _) fun name heq => List.mem_append_right _ ?_
  exact TypeShape.named.inj heq ▸ List.mem_singleton_self _

lemma foldlM_slotsKnown {α : Type} {f : TypeNames → α → Except SchemaError TypeNames} {as : List α}
    (hf : ∀ names a names', names.SlotsKnown → f names a = .ok names' → names'.SlotsKnown)
    (hn : names.SlotsKnown) (h : as.foldlM f names = .ok names') : names'.SlotsKnown := by
  induction as generalizing names with
  | nil => exact Except.ok.inj h ▸ hn
  | cons a as ih =>
    rw [List.foldlM_cons] at h
    obtain ⟨names₁, ha, has⟩ := bind_eq_ok.mp h
    exact ih (hf _ _ _ hn ha) has

lemma registerAll_slotsKnown {ds : List SchemaDocument} (hn : names.SlotsKnown)
    (h : names.registerAll ds = .ok names') : names'.SlotsKnown :=
  foldlM_slotsKnown (fun _ _ _ hn hd => foldlM_slotsKnown (fun _ _ _ hn ht => register_slotsKnown hn ht) hn hd) hn h

end TypeNames

namespace Schema

open TypeRegistry (NamesOnly)

variable {s s' : Schema} {ds : List SchemaDocument} {id : Nat}

lemma resolveDocuments_names (names : TypeNames) (directives : List DirectiveSpec) (ds : List SchemaDocument)
    (st : ResolutionState) {P : String → Prop} (hst : st.registry.NamesOnly P) :
    ((ds.mapM (resolveDocument names directives)).run st).2.registry.NamesOnly P := by
  induction ds generalizing st with
  | nil => exact hst
  | cons d ds ih =>
    rw [List.mapM_cons]
    exact ih _ (Resolution.AddsLists.mapM Resolution.AddsLists.type _ st P hst)

/-- Every name that has a slot is that of a type. -/
def SlotsDefined (s : Schema) : Prop := s.registry.NamesOnly fun name => (s.type? name).isSome

/-- **Slots of a built schema**: they are those of lists and of types that are defined. -/
lemma build_slotsDefined (hd : ∀ d ∈ ds, d.IsProper) (h : build ds id = .ok s) : s.SlotsDefined := by
  obtain ⟨s₀, st, hr, -, happlies⟩ := build_applies h
  obtain ⟨names, query, types, hnames, -, hrun, rfl⟩ := resolve_eq_ok hr
  obtain ⟨names', -, hnames', hrealizes, -⟩ := build_types hd h
  obtain rfl := Except.ok.inj (hnames.symm.trans hnames')
  have hkinds : s.types.map (fun t => (t.name, t.kind)) = names.kinds := (hrealizes .introspection).kinds
  have hregistered := TypeNames.registerAll_slotsKnown (TypeNames.builtin_slotsKnown id) hnames
  have hslots : st.registry.NamesOnly (· ∈ names.kinds.map (·.1)) := by
    have hresolved := resolveDocuments_names names (Builtin.directives names.registry)
      (SchemaDocument.introspection :: ds) ⟨names.registry, [], []⟩ hregistered
    rwa [hrun] at hresolved
  have hregistry : s.registry = st.registry := happlies.sameTypes.registry
  unfold SlotsDefined
  rw [hregistry]
  refine hslots.mono fun name hname => ?_
  rw [← hkinds, List.map_map] at hname
  obtain ⟨t, ht, rfl⟩ := List.mem_map.mp hname
  exact List.find?_isSome.mpr ⟨t, ht, beq_self_eq_true _⟩

lemma WithLists.slotsDefined (h : s.WithLists s') (hs : s.SlotsDefined) : s'.SlotsDefined := by
  induction h with
  | refl => exact hs
  | listOf before element ih => exact ih.listOf _

end Schema

end GraphQL
