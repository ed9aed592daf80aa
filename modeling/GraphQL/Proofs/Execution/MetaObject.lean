import GraphQL.Execution
import GraphQL.Proofs.Schema.Introspective
import GraphQL.Proofs.Schema.Members

/-!
The answers of introspection, against the types that are written for them.

The objects of introspection answer each field that is written for their type, and what they answer is of
the type that is written for the field: null only where no mark excludes it, lists at lists, values of
an enum that it has, and objects of the type that is named.
-/

namespace GraphQL

/-- What can be completed at a type. -/
inductive Fits (s : Schema) : TypeId → HostValue MetaObject → Prop where
  | null {t : TypeId} (nullable : t.isNonNull = false) : Fits s t .null
  | leaf {t : TypeId} {x : HostScalar} (single : s.element? t = none) (isLeaf : s.isLeaf t = true)
      (text : (x.toLeaf s t).isSome = true) : Fits s t (.scalar x)
  | list {t e : TypeId} {vs : List (HostValue MetaObject)} (element : s.element? t = some e)
      (items : ∀ v ∈ vs, Fits s e v) : Fits s t (.list vs)
  | object {t : TypeId} {o : MetaObject} (single : s.element? t = none) (notLeaf : s.isLeaf t = false)
      (named : s.registry.named? o.typeName = some t.nullable) : Fits s t (.object o)

/-- What can be completed at a written type. -/
def FitsWritten (s : Schema) (ref : TypeRef) (v : HostValue MetaObject) : Prop :=
  ∀ t, s.registry.ofRef? ref = some t → Fits s t v

namespace Fits

variable {s : Schema} {t : TypeId} {v : HostValue MetaObject}

lemma nonNull (hr : s.registry.WellFormed) (h : Fits s t v) (hv : v.isNull = false) : Fits s t.nonNull v := by
  have hnamed := s.named?_nonNull hr t
  have hleaf := Schema.isLeaf_congr hnamed
  cases h with
  | null _ => cases hv
  | leaf single isLeaf text =>
    refine .leaf single (hleaf.trans isLeaf) ?_
    unfold HostScalar.toLeaf Schema.builtin? at text ⊢
    rwa [hnamed]
  | list element items => exact .list element items
  | object single notLeaf named => exact .object single (hleaf.trans notLeaf) named

end Fits

namespace MetaObject

/-- The fields that are written for the type of an object. -/
def writtenFields (o : MetaObject) : List FieldDefinition :=
  match (Builtin.introspectionTypes.find? fun d => d.name.text == o.typeName).map (·.body) with
  | some (TypeBody.object fields) => fields
  | _ => []

lemma written (o : MetaObject) : Builtin.object o.typeName o.writtenFields ∈ Builtin.introspectionTypes := by
  have hfind : Builtin.introspectionTypes.find? (fun d => d.name.text == o.typeName) =
      some (Builtin.object o.typeName o.writtenFields) := by
    cases o <;> rfl
  exact List.mem_of_find?_eq_some hfind

end MetaObject

namespace FitsWritten

variable {s : Schema} {ref : TypeRef} {v : HostValue MetaObject} {name text : String}

lemma null (h : ref.isNonNull = false) : FitsWritten s ref .null :=
  fun _ ht => .null ((TypeRegistry.isNonNull_ofRef? ht).trans h)

section

variable (hs : s.Introspective)

include hs

lemma required (h : FitsWritten s ref v) (hv : v.isNull = false) : FitsWritten s (Builtin.required ref) v := by
  intro t ht
  obtain ⟨e, he, rfl⟩ := Option.map_eq_some_iff.mp ht
  exact (h e he).nonNull hs.registry hv

lemma scalar {b : BuiltinScalar} {x : HostScalar} (h : (x.toScalar (some b)).isSome = true) :
    FitsWritten s (Builtin.ref b.name) (.scalar x) := by
  intro t ht
  have hnamed : s.named? t = some b.namedType := (Schema.named?_of_name ht).trans (hs.scalars b)
  refine .leaf (TypeRegistry.element?_named ht) ?_ ?_
  · simp [Schema.isLeaf, Schema.isScalar, Schema.kind?, hnamed, BuiltinScalar.namedType, NamedType.kind]
  · unfold HostScalar.toLeaf Schema.builtin?
    rw [hnamed]
    exact h

lemma string (text : String) : FitsWritten s Builtin.string (.ofString text) :=
  scalar hs (b := .string) rfl

lemma string? (text? : Option String) : FitsWritten s Builtin.string (.ofString? text?) := by
  cases text? with
  | none => exact null rfl
  | some text => exact string hs text

lemma boolean (b : Bool) : FitsWritten s (Builtin.ref "Boolean") (.ofBool b) := scalar hs (b := .boolean) rfl

lemma enum {values : List String}
    (hd : Builtin.introspectionTypes.find? (fun d => d.name.text == name) = some (Builtin.enum name values))
    (htext : text ∈ values) : FitsWritten s (Builtin.ref name) (.ofString text) := by
  intro t ht
  obtain ⟨n, hn, hdeclares⟩ := hs.types _ (List.mem_of_find?_eq_some hd)
  have hnamed : s.named? t = some n := (Schema.named?_of_name ht).trans hn
  obtain ⟨name, description, body⟩ := n
  obtain _ | @⟨_, vs, hvalues⟩ := hdeclares
  refine .leaf (TypeRegistry.element?_named ht) ?_ ?_
  · simp [Schema.isLeaf, Schema.isEnum, Schema.kind?, hnamed, NamedType.kind]
  · unfold HostScalar.toLeaf
    rw [hnamed]
    have hmem : text ∈ vs.map (·.name) := by
      rw [hvalues, List.map_map]
      exact List.mem_map.mpr ⟨text, htext, rfl⟩
    obtain ⟨v, hv, rfl⟩ := List.mem_map.mp hmem
    have hany : (vs.any fun e => e.name == v.name) = true := List.any_eq_true.mpr ⟨v, hv, beq_self_eq_true _⟩
    simp [NamedType.enumValues?, HostScalar.toEnum, hany]

lemma object (o : MetaObject) (hname : o.typeName = name := by rfl) :
    FitsWritten s (Builtin.ref name) (.object o) := by
  intro t ht
  rw [← hname] at ht
  obtain ⟨n, hn, hdeclares⟩ := hs.types _ o.written
  have hnamed : s.named? t = some n := (Schema.named?_of_name ht).trans hn
  obtain ⟨name, description, body⟩ := n
  obtain @⟨_, fs, -⟩ := hdeclares
  refine .object (TypeRegistry.element?_named ht) ?_ ((Schema.nullable_of_name ht).symm ▸ ht)
  simp [Schema.isLeaf, Schema.isScalar, Schema.isEnum, Schema.kind?, hnamed, NamedType.kind]

lemma object? {α : Type} {make : α → MetaObject} (a? : Option α)
    (hmake : ∀ a, (make a).typeName = name := by intro; rfl) :
    FitsWritten s (Builtin.ref name) (.ofObject? (a?.map make)) := by
  cases a? with
  | none => exact null rfl
  | some a => exact object hs (make a) (hmake a)

lemma items {vs : List (HostValue MetaObject)}
    (hitems : ∀ v ∈ vs, FitsWritten s ref v ∧ v.isNull = false) (p : Pos) :
    FitsWritten s (.list (Builtin.required ref) p) (.list vs) := by
  intro t ht
  obtain ⟨e, he, ht⟩ := Option.bind_eq_some_iff.mp ht
  refine .list (TypeRegistry.element?_listOf? ht) fun v hv => ?_
  obtain ⟨hfits, hnull⟩ := hitems v hv
  exact hfits.required hs hnull e he

lemma locations (ls : List DirectiveLocation) :
    FitsWritten s (Builtin.listOf "__DirectiveLocation") (.list (ls.map fun l => .ofString l.name)) := by
  refine items hs (fun v hv => ?_) _
  obtain ⟨l, -, rfl⟩ := List.mem_map.mp hv
  exact ⟨enum hs rfl (by cases l <;> decide), rfl⟩

lemma objects {α : Type} {make : α → MetaObject} (as : List α)
    (hmake : ∀ a, (make a).typeName = name := by intro; rfl) :
    FitsWritten s (Builtin.listOf name) (.ofObjects (as.map make)) := by
  refine items hs (fun v hv => ?_) _
  rw [List.map_map] at hv
  obtain ⟨a, -, rfl⟩ := List.mem_map.mp hv
  exact ⟨object hs (make a) (hmake a), rfl⟩

lemma objects? {α : Type} {make : α → MetaObject} (as? : Option (List α))
    (hmake : ∀ a, (make a).typeName = name := by intro; rfl) :
    FitsWritten s (Builtin.listOf name) (MetaObject.objects? make as?) := by
  cases as? with
  | none => exact null rfl
  | some as => exact objects hs as hmake

end

end FitsWritten

namespace MetaObject

variable {s : Schema} {o : MetaObject} {d : FieldDefinition}

/-- An object answers a field that is written for its type with what fits the type of the field. -/
def Answers (s : Schema) (o : MetaObject) (d : FieldDefinition) : Prop :=
  ∀ call : FieldCall, call.name = d.name.text → ∃ v, o.field? s call = some v ∧ FitsWritten s d.type v

lemma kindName_mem (s : Schema) (t : TypeId) :
    kindName s t ∈ ["SCALAR", "OBJECT", "INTERFACE", "UNION", "ENUM", "INPUT_OBJECT", "LIST", "NON_NULL"] := by
  unfold kindName
  split
  · simp
  split
  · simp
  · cases definition? s t with
    | none => simp
    | some d => cases h : d.kind <;> simp [h, NamedTypeKind.name]

section

variable (hs : s.Introspective)

include hs

lemma schema_answers : schema.writtenFields.Forall (schema.Answers s) := by
  refine And.intro ?description <| And.intro ?types <| And.intro ?queryType <| And.intro ?mutationType <|
    And.intro ?subscriptionType ?directives
  all_goals
    intro call h
    refine ⟨_, by rw [field?, schemaField, h]; rfl, ?_⟩
  case description => exact .null rfl
  case types => exact .required hs (.objects hs _) rfl
  case queryType => exact .required hs (.object hs _) rfl
  case mutationType => exact .object? hs _
  case subscriptionType => exact .object? hs _
  case directives => exact .required hs (.objects hs _) rfl

lemma type_answers (t : TypeId) : (type t).writtenFields.Forall ((type t).Answers s) := by
  refine And.intro ?kind <| And.intro ?name <| And.intro ?description <| And.intro ?specifiedByURL <|
    And.intro ?fields <| And.intro ?interfaces <| And.intro ?possibleTypes <| And.intro ?enumValues <|
    And.intro ?inputFields ?ofType
  all_goals
    intro call h
    refine ⟨_, by rw [field?, typeField, h]; rfl, ?_⟩
  case kind => exact .required hs (.enum hs rfl (kindName_mem s t)) rfl
  case name => exact .string? hs _
  case description => exact .string? hs _
  case specifiedByURL => exact .null rfl
  case fields => exact .objects? hs _
  case interfaces => exact .objects? hs _
  case possibleTypes => exact .null rfl
  case enumValues => exact .objects? hs _
  case inputFields => exact .objects? hs _
  case ofType => exact .object? hs _

lemma field_answers (f : FieldSpec) : (field f).writtenFields.Forall ((field f).Answers s) := by
  refine And.intro ?name <| And.intro ?description <| And.intro ?args <| And.intro ?type <|
    And.intro ?isDeprecated ?deprecationReason
  all_goals
    intro call h
    refine ⟨_, by rw [field?, fieldField, h]; rfl, ?_⟩
  case name => exact .required hs (.string hs _) rfl
  case description => exact .string? hs _
  case args => exact .required hs (.objects hs _) rfl
  case type => exact .required hs (.object hs _) rfl
  case isDeprecated => exact .required hs (.boolean hs _) rfl
  case deprecationReason => exact .string? hs _

lemma input_answers (i : InputSpec) : (input i).writtenFields.Forall ((input i).Answers s) := by
  refine And.intro ?name <| And.intro ?description <| And.intro ?type ?defaultValue
  all_goals
    intro call h
    refine ⟨_, by rw [field?, inputField, h]; rfl, ?_⟩
  case name => exact .required hs (.string hs _) rfl
  case description => exact .string? hs _
  case type => exact .required hs (.object hs _) rfl
  case defaultValue => exact .string? hs _

lemma enumValue_answers (v : EnumValueSpec) : (enumValue v).writtenFields.Forall ((enumValue v).Answers s) := by
  refine And.intro ?name <| And.intro ?description <| And.intro ?isDeprecated ?deprecationReason
  all_goals
    intro call h
    refine ⟨_, by rw [field?, enumValueField, h]; rfl, ?_⟩
  case name => exact .required hs (.string hs _) rfl
  case description => exact .string? hs _
  case isDeprecated => exact .required hs (.boolean hs _) rfl
  case deprecationReason => exact .string? hs _

lemma directive_answers (d : DirectiveSpec) : (directive d).writtenFields.Forall ((directive d).Answers s) := by
  refine And.intro ?name <| And.intro ?description <| And.intro ?locations <| And.intro ?args ?isRepeatable
  all_goals
    intro call h
    refine ⟨_, by rw [field?, directiveField, h]; rfl, ?_⟩
  case name => exact .required hs (.string hs _) rfl
  case description => exact .string? hs _
  case locations => exact .required hs (.locations hs _) rfl
  case args => exact .required hs (.objects hs _) rfl
  case isRepeatable => exact .required hs (.boolean hs _) rfl

/-- **The fields of introspection**: whatever is written for the type of an object, the object answers. -/
theorem answers (o : MetaObject) : ∀ d ∈ o.writtenFields, o.Answers s d := by
  refine List.forall_iff_forall_mem.mp ?_
  cases o with
  | schema => exact schema_answers hs
  | type t => exact type_answers hs t
  | field f => exact field_answers hs f
  | input i => exact input_answers hs i
  | enumValue v => exact enumValue_answers hs v
  | directive d => exact directive_answers hs d

end

end MetaObject

/-! ### The host of introspection -/

namespace Host

variable {ρ : Type} {host : Host ρ} {r : FieldRequest}

lemma metaField?_typename (h : r.field.call.name = "__typename") :
    metaField? r = some (.ofString (r.schema.typeName r.parent.nullable)) := by
  unfold metaField?
  simp [h]

lemma metaField?_other (h : r.field.call.name ≠ "__typename") (hparent : r.parent.nullable ≠ r.schema.query) :
    metaField? r = none := by
  unfold metaField?
  simp [h, hparent]

lemma withIntrospection_meta {v : HostValue MetaObject} (h : metaField? r = some v) (o : ExecutionObject ρ) :
    host.withIntrospection o r = .ok (v.map .introspection) := by
  unfold withIntrospection
  rw [h]

lemma withIntrospection_object {o : MetaObject} {v : HostValue MetaObject} (h : metaField? r = none)
    (hv : o.field? r.schema r.field.call = some v) :
    host.withIntrospection (.introspection o) r = .ok (v.map .introspection) := by
  rw [withIntrospection, h]
  simp [MetaObject.host, hv, Except.map]

end Host

end GraphQL
