import GraphQL.Proofs.Execution.Selection
import GraphQL.Proofs.Execution.TypeChain

/-!
Asking a schema about itself.

Every field below the meta fields is declared by a type of introspection, and an object of that type
answers it. What it answers fits the type of the field, so it is completed, and the objects in it are again
asked for declared fields of their type.
-/

namespace GraphQL

/-! ### Selected fields and their declarations -/

/-- All fields are those of their parent, with the type that is declared there, and there are selections
below them exactly where there are objects. -/
inductive Declared (s : Schema) : TypeId → List SelectedField → Prop where
  | mk {parent : TypeId} {fs : List SelectedField}
      (known : ∀ f ∈ fs, ∃ spec, s.field? parent f.call.name = some spec ∧ f.call.type = spec.type)
      (composite : ∀ f ∈ fs, f.below?.isSome = s.isComposite f.call.type)
      (below : ∀ f ∈ fs, ∀ gs, f.below? = some gs → Declared s (s.registry.innermost f.call.type) gs) :
      Declared s parent fs

namespace SelectionContext

variable {c : SelectionContext}

/-- What a selection is worked out to are declared fields, whether it has been validated or not. -/
lemma build_declared (levels : Nat) (parent : TypeId) (sets : List SelectionSet) :
    Declared c.schema parent (c.build levels parent sets).1 := by
  induction levels generalizing parent sets with
  | zero => exact .mk (by simp [build]) (by simp [build]) (by simp [build])
  | succ levels ih =>
    have hmerged : ∀ g ∈ (c.build (levels + 1) parent sets).1, ∃ first spec sets' es,
        c.schema.field? parent first.name.text = some spec ∧ c.Merged (c.build levels) first spec sets' g es := by
      intro g hg
      rw [build_succ] at hg
      obtain ⟨⟨g, es⟩, hmem, rfl⟩ := List.mem_map.mp hg
      obtain ⟨⟨key, group⟩, hgroup, hmerge⟩ := List.mem_filterMap.mp hmem
      obtain ⟨⟨first, under⟩, rest, rfl⟩ := List.exists_cons_of_ne_nil (mem_groupByKey.mp hgroup).2
      cases hspec : c.schema.field? parent first.name.text with
      | none => simp [mergeFields, hspec] at hmerge
      | some spec =>
        obtain ⟨g', es', hmerge', -, hmerged⟩ := c.mergeFields_merged (c.build levels) key under rest hspec
        obtain ⟨rfl, rfl⟩ := Prod.mk.inj (Option.some.inj (hmerge.symm.trans hmerge'))
        exact ⟨first, spec, _, es, hspec, hmerged⟩
    refine .mk (fun g hg => ?_) (fun g hg => ?_) fun g hg gs hgs => ?_
    · obtain ⟨first, spec, _, _, hspec, hg⟩ := hmerged g hg
      exact ⟨spec, hg.name ▸ hspec, hg.type⟩
    · obtain ⟨first, spec, _, _, -, hg⟩ := hmerged g hg
      rw [hg.below, hg.type]
      cases c.schema.isComposite spec.type <;> rfl
    · obtain ⟨first, spec, sets', _, -, hg⟩ := hmerged g hg
      rw [hg.below] at hgs
      split at hgs
      · rw [hg.type, ← Option.some.inj hgs]
        exact ih _ sets'
      · cases hgs

end SelectionContext

/-! ### Completion without errors -/

namespace Outcome

variable {α β : Type} {o : Outcome α}

/-- There is a value, and there are no errors. -/
def Succeeds (o : Outcome α) : Prop := ∃ v, o = ⟨some v, []⟩

lemma Succeeds.map (h : o.Succeeds) (f : α → β) : (o.map f).Succeeds := by
  obtain ⟨v, rfl⟩ := h
  exact ⟨f v, rfl⟩

end Outcome

namespace ExecutionContext

open Outcome (Succeeds)

variable {ρ σ : Type} {c : ExecutionContext σ} {call : FieldCall} {execute : Option (ObjectExecution σ)}
  {t e : TypeId} {o : Outcome Value} {inner : MetaObject → σ}

lemma orNull_succeeds (h : o.Succeeds) : (orNull t o).Succeeds := by
  obtain ⟨v, rfl⟩ := h
  exact ⟨v, rfl⟩

lemma completeItems_succeeds {vs : List (HostValue σ)}
    (h : ∀ v ∈ vs, ∀ path, (complete c call execute v e path).Succeeds) (path : Path) (n : Nat) :
    (completeItems c call execute e path n vs).Succeeds := by
  induction vs generalizing n with
  | nil => exact ⟨[], rfl⟩
  | cons v vs ih =>
    obtain ⟨hv, hvs⟩ := List.forall_mem_cons.mp h
    obtain ⟨w, hw⟩ := hv (path ++ [.index n])
    obtain ⟨ws, hws⟩ := ih hvs (n + 1)
    exact ⟨w :: ws, by simp [completeItems, hw, hws]⟩

lemma mem_mapItems {ρ : Type} {f : ρ → σ} {vs : List (HostValue ρ)} {w : HostValue σ}
    (h : w ∈ HostValue.mapItems f vs) : ∃ v ∈ vs, w = v.map f := by
  induction vs with
  | nil => simp [HostValue.mapItems] at h
  | cons v vs ih =>
    rw [HostValue.mapItems] at h
    rcases List.mem_cons.mp h with rfl | h
    · exact ⟨v, List.mem_cons_self, rfl⟩
    · obtain ⟨v', hv', rfl⟩ := ih h
      exact ⟨v', List.mem_cons_of_mem _ hv', rfl⟩

/-- The objects of introspection that can stand at a type can be executed. -/
def ExecutesMeta (c : ExecutionContext σ) (inner : MetaObject → σ) (execute : Option (ObjectExecution σ))
    (t : TypeId) : Prop :=
  ∀ o : MetaObject, c.schema.registry.named? o.typeName = some (c.schema.registry.innermost t) →
    ∃ run, execute = some run ∧
      ∀ path u, u.nullable = c.schema.registry.innermost t → (run path u (inner o)).Succeeds

/-- What fits a type is completed there. -/
lemma complete_fits (hr : c.schema.registry.WellFormed) {v : HostValue MetaObject} (h : Fits c.schema t v)
    (hexecute : c.ExecutesMeta inner execute t) (path : Path) :
    (complete c call execute (v.map inner) t path).Succeeds := by
  induction h generalizing path with
  | @null t nullable => exact ⟨.null t, by simp [HostValue.map, complete, nullable]⟩
  | @leaf t x single isLeaf text =>
    obtain ⟨text, htext⟩ := Option.isSome_iff_exists.mp text
    exact ⟨.scalar t text, by
      simp [HostValue.map, complete, completeSingle, completeAtNamed, completeLeaf, Schema.isList, single, isLeaf,
        htext]⟩
  | @list t e vs element items ih =>
    have hsame : c.ExecutesMeta inner execute e := by
      unfold ExecutesMeta at hexecute ⊢
      rwa [TypeRegistry.innermost_list hr element] at hexecute
    have hitems : (completeItems c call execute e path 0 (HostValue.mapItems inner vs)).Succeeds := by
      refine completeItems_succeeds (fun w hw path => ?_) path 0
      obtain ⟨v, hv, rfl⟩ := mem_mapItems hw
      exact ih v hv hsame path
    rw [HostValue.map, complete]
    dsimp only
    rw [element]
    exact orNull_succeeds (hitems.map _)
  | @object t o single notLeaf named =>
    have hinner : c.schema.registry.innermost t = t.nullable := TypeRegistry.innermost_single single
    obtain ⟨run, rfl, hrun⟩ := hexecute o (hinner ▸ named)
    have hlist : c.schema.isList t = false := by rw [Schema.isList, single, Option.isSome_none]
    have hcomplete :
        complete c call (some run) (.object (inner o)) t path = orNull t (run path t (inner o)) := by
      simp [complete, completeSingle, completeAtNamed, hlist, notLeaf]
    rw [HostValue.map, hcomplete]
    exact orNull_succeeds (hrun path t hinner.symm)

end ExecutionContext

/-! ### Answers to declared fields -/

namespace Schema

variable {ρ : Type} {s : Schema} {t : TypeId} {r : FieldRequest} {spec : FieldSpec}

/-- Some answer is given whatever the host, and fits. -/
def AnswersWith (s : Schema) (host : Host ρ) (o : ExecutionObject ρ) (r : FieldRequest) (t : TypeId) : Prop :=
  ∃ v : HostValue MetaObject, host.withIntrospection o r = .ok (v.map .introspection) ∧ Fits s t v

namespace Introspective

variable (hs : s.Introspective)

include hs

/-- The type of an object has the fields that are written for it. -/
lemma declares (o : MetaObject) (ht : s.registry.named? o.typeName = some t) :
    ∃ n fs, s.named? t = some n ∧ n.body = .object fs ∧
      List.Forall₂ (DeclaresField s.registry) o.writtenFields fs := by
  obtain ⟨n, hn, hdeclares⟩ := hs.types _ o.written
  have hnamed : s.named? t = some n := (named?_of_name ht).trans hn
  generalize hbody : n.body = body at hdeclares
  obtain @⟨_, fs, hfields⟩ := hdeclares
  exact ⟨n, fs, hnamed, hbody, hfields⟩

lemma isComposite (o : MetaObject) (ht : s.registry.named? o.typeName = some t) : s.isComposite t = true := by
  obtain ⟨n, fs, hn, hbody, -⟩ := hs.declares o ht
  simp [Schema.isComposite, isObject, kind?, hn, NamedType.kind, hbody]

lemma ne_query (o : MetaObject) (ht : s.registry.named? o.typeName = some t) : t ≠ s.query := by
  rintro rfl
  obtain ⟨-, -, hshape⟩ := TypeRegistry.find?_spec ht
  obtain ⟨-, -, hquery⟩ := TypeRegistry.find?_spec hs.query
  have hname := TypeShape.named.inj (Option.some.inj (hshape.symm.trans hquery))
  cases o <;> simp [MetaObject.typeName] at hname

lemma answers_typename (host : Host ρ) (o : ExecutionObject ρ) (h : r.field.call.name = "__typename") :
    s.AnswersWith host o r s.metaFields.typename.type :=
  ⟨_, Host.withIntrospection_meta (Host.metaField?_typename h) o,
    FitsWritten.required hs (FitsWritten.string hs _) rfl _ hs.typename⟩

/-- An object of introspection answers all fields that its type declares. -/
lemma answers_object (host : Host ρ) (o : MetaObject) (hschema : r.schema = s)
    (hparent : s.registry.named? o.typeName = some r.parent)
    (hspec : s.field? r.parent r.field.call.name = some spec) :
    s.AnswersWith host (.introspection o) r spec.type := by
  obtain ⟨n, fs, hn, hbody, hfields⟩ := hs.declares o hparent
  have hne := hs.ne_query o hparent
  have hnull := nullable_of_name hparent
  have hroot : s.registry.innermost r.parent ≠ s.query := by rwa [innermost_of_name hparent]
  simp only [field?, hn, Option.bind_some, NamedType.objectFields?, hbody, hroot, decide_false, Bool.and_false,
    Bool.false_eq_true, if_false, beq_iff_eq] at hspec
  split at hspec
  · rename_i hname
    rw [← Option.some.inj hspec]
    exact hs.answers_typename host _ hname
  · rename_i hname
    have hmeta : Host.metaField? r = none := Host.metaField?_other hname (by rwa [hnull, hschema])
    have hspecname : spec.name = r.field.call.name := by simpa using List.find?_some hspec
    obtain ⟨d, hd, hdname, hdtype⟩ := forall₂_exists_left hfields (List.mem_of_find?_eq_some hspec)
    obtain ⟨v, hv, hfits⟩ := MetaObject.answers hs o d hd r.field.call (hspecname.symm.trans hdname)
    exact ⟨v, Host.withIntrospection_object hmeta (by rwa [hschema]), hfits _ hdtype⟩

/-- The root of queries answers the meta fields without the host. -/
lemma answers_root (host : Host ρ) (o : ExecutionObject ρ) (hschema : r.schema = s) (hparent : r.parent = s.query)
    (hname : r.field.call.name ∈ ["__schema", "__type", "__typename"])
    (hspec : s.field? s.query r.field.call.name = some spec) : s.AnswersWith host o r spec.type := by
  have hnull := nullable_of_name hs.query
  have hroot := innermost_of_name hs.query
  unfold field? at hspec
  split at hspec
  · cases hspec
  simp only [List.mem_cons, List.not_mem_nil, or_false] at hname
  rcases hname with hname | hname | hname
  · obtain rfl : s.metaFields.schema = spec := by simpa [hname, hroot] using hspec
    have hmeta : Host.metaField? r = some (.object .schema) := by
      simp [Host.metaField?, hname, hparent, hnull, hschema]
    exact ⟨_, Host.withIntrospection_meta hmeta o,
      FitsWritten.required hs (FitsWritten.object hs _) rfl _ hs.schema⟩
  · obtain rfl : s.metaFields.type = spec := by simpa [hname, hroot] using hspec
    have hmeta : Host.metaField? r = some (.ofObject?
        ((((r.field.call.argument? "name").bind (·.text?)).bind s.typeId?).map MetaObject.type)) := by
      simp [Host.metaField?, hname, hparent, hnull, hschema]
    exact ⟨_, Host.withIntrospection_meta hmeta o, (FitsWritten.object? hs _) _ hs.type⟩
  · obtain rfl : s.metaFields.typename = spec := by simpa [hname] using hspec
    exact hs.answers_typename host o hname

end Introspective

end Schema

/-! ### Execution without errors -/

namespace ExecutionContext

open Outcome (Succeeds)

variable {ρ : Type} {c : ExecutionContext (ExecutionObject ρ)} {host : Host ρ} {f : SelectedField}
  {fs : List SelectedField} {parent : TypeId}

/-- A field with an answer that fits is executed if the selections below it are. -/
lemma executeField_succeeds {execute : Option (ObjectExecution (ExecutionObject ρ))} {path : Path}
    {r : ExecutionObject ρ} (hhost : c.host = host.withIntrospection) (hr : c.schema.registry.WellFormed)
    (hanswer : c.schema.AnswersWith host r
      ⟨c.schema, parent, path ++ [.key f.call.key], f, c.isCancelled⟩ f.call.type)
    (hexecute : c.ExecutesMeta .introspection execute f.call.type) :
    (c.executeField execute parent path r f).Succeeds := by
  obtain ⟨v, hv, hfits⟩ := hanswer
  unfold executeField
  dsimp only
  rw [hhost, hv]
  exact complete_fits hr hfits hexecute _

lemma consField_succeeds {key : String} {o : Outcome Value} {rest : Outcome (List (String × Value))}
    (h : o.Succeeds) (hrest : rest.Succeeds) : (consField key o rest).Succeeds := by
  obtain ⟨v, rfl⟩ := h
  obtain ⟨fields, rfl⟩ := hrest
  exact ⟨(key, v) :: fields, rfl⟩

lemma executeFields_succeeds {path : Path} {r : ExecutionObject ρ}
    (h : ∀ f ∈ fs, (executeSelected c parent path r f).Succeeds) :
    (executeFields c parent path r fs).Succeeds := by
  induction fs with
  | nil => exact ⟨[], by rw [executeFields]⟩
  | cons f fs ih =>
    obtain ⟨hf, hfs⟩ := List.forall_mem_cons.mp h
    rw [executeFields]
    exact consField_succeeds hf (ih hfs)

section

variable (hs : c.schema.Introspective) (hhost : c.host = host.withIntrospection)

include hs hhost

/-- A field is executed if its answer fits and all objects of introspection that can be in it are executed. -/
lemma executeSelected_succeeds {path : Path} {r : ExecutionObject ρ}
    (hanswer : c.schema.AnswersWith host r
      ⟨c.schema, parent, path ++ [.key f.call.key], f, c.isCancelled⟩ f.call.type)
    (hcomposite : f.below?.isSome = c.schema.isComposite f.call.type)
    (hbelow : ∀ gs, f.below? = some gs → ∀ path (o : MetaObject),
      c.schema.registry.named? o.typeName = some (c.schema.registry.innermost f.call.type) →
        (executeFields c (c.schema.registry.innermost f.call.type) path (.introspection o) gs).Succeeds) :
    (executeSelected c parent path r f).Succeeds := by
  cases f with
  | leaf call =>
    rw [executeSelected]
    refine executeField_succeeds hhost hs.registry hanswer fun o ho => ?_
    have hobject := hs.isComposite o ho
    rw [Schema.isComposite_congr (Schema.named?_innermost hs.registry _)] at hobject
    exact absurd (hcomposite.trans hobject) (by simp [SelectedField.below?])
  | object call below =>
    rw [executeSelected]
    refine executeField_succeeds hhost hs.registry hanswer fun o ho => ⟨_, rfl, fun path u hu => ?_⟩
    rw [hu]
    exact (hbelow below rfl path o ho).map _

/-- Declared fields of an object of introspection are executed, by induction on what is selected below them. -/
theorem executeFields_object (h : Declared c.schema parent fs) (path : Path) (o : MetaObject)
    (ho : c.schema.registry.named? o.typeName = some parent) :
    (executeFields c parent path (.introspection o) fs).Succeeds := by
  induction h generalizing path o with
  | mk known composite below ih =>
    refine executeFields_succeeds fun f hf => ?_
    obtain ⟨spec, hspec, htype⟩ := known f hf
    refine executeSelected_succeeds hs hhost ?_ (composite f hf) fun gs hgs path o ho => ih f hf gs hgs path o ho
    rw [htype]
    exact hs.answers_object host o rfl ho hspec

/-- The meta fields of the root are executed. -/
theorem executeFields_root (h : Declared c.schema c.schema.query fs)
    (hnames : ∀ f ∈ fs, f.call.name ∈ ["__schema", "__type", "__typename"]) (path : Path)
    (r : ExecutionObject ρ) :
    (executeFields c c.schema.query path r fs).Succeeds := by
  obtain ⟨known, composite, below⟩ := h
  refine executeFields_succeeds fun f hf => ?_
  obtain ⟨spec, hspec, htype⟩ := known f hf
  refine executeSelected_succeeds hs hhost ?_ (composite f hf) fun gs hgs path o ho =>
    executeFields_object hs hhost (below f hf gs hgs) path o ho
  rw [htype]
  exact hs.answers_root host r rfl rfl (hnames f hf) hspec

end

end ExecutionContext

/-! ### Prepared queries -/

namespace Schema

variable {s : Schema}

/-- What is prepared for a query are declared fields of its root. -/
lemma prepare_declared {d : Document} {source : List Char} {operation : Option String}
    {supplied : List (String × Literal)} {p : PreparedOperation}
    (h : s.prepare d source operation supplied = .ok p) (hquery : p.type = .query) :
    p.schema = s ∧ p.root = s.query ∧ Declared s s.query p.fields := by
  unfold prepare at h
  obtain ⟨op, -, h⟩ := bind_eq_ok.mp h
  obtain ⟨root, hroot, h⟩ := bind_eq_ok.mp h
  obtain ⟨values, -, h⟩ := bind_eq_ok.mp h
  dsimp only at h
  split at h
  · obtain rfl := Except.ok.inj h
    rw [show op.type = .query from hquery] at hroot
    obtain rfl : s.query = root := Except.ok.inj hroot
    exact ⟨rfl, rfl, SelectionContext.build_declared (c := ⟨s, d, source, values⟩) _ _ _⟩
  · cases h

/-- **Introspection answers**: a query for meta fields has data and no errors, whatever the host would say, and
the chain of kinds and inner types that starts at a type ends and is written like the type, in no other way. -/
structure AnswersIntrospection (s : Schema) : Prop where
  executes : ∀ {d source operation supplied p}, s.prepare d source operation supplied = .ok p →
    p.type = .query → (∀ f ∈ p.fields, f.call.name ∈ ["__schema", "__type", "__typename"]) →
      ∀ {ρ : Type} (host : Host ρ) (root : ρ) (isCancelled : Bool),
        ∃ v, p.execute host root isCancelled = ⟨some v, []⟩
  spells : ∀ t, s.registry.Has t → ∀ text, s.SpelledBack t text ↔ text = s.typeName t

lemma Introspective.answers (hs : s.Introspective) : s.AnswersIntrospection where
  executes := by
    intro d source operation supplied p hp hquery hnames ρ host root isCancelled
    obtain ⟨rfl, hroot, hdeclared⟩ := prepare_declared hp hquery
    let c : ExecutionContext (ExecutionObject ρ) := ⟨p.schema, host.withIntrospection, isCancelled⟩
    have hhost : c.host = host.withIntrospection := rfl
    unfold PreparedOperation.execute
    rw [hroot]
    exact (ExecutionContext.executeFields_root hs hhost hdeclared hnames [] (.host root)).map _
  spells t ht text := by
    have htext := SpelledBack.typeName hs.registry hs.slots t ht
    exact ⟨fun h => h.unique htext, fun h => h ▸ htext⟩

variable {s' : Schema} {ds : List SchemaDocument} {id : Nat}

/-- Every built schema answers questions about itself, and goes on to do so when lists are added to it. -/
theorem build_answersIntrospection (hds : ∀ d ∈ ds, ∃ file text, SchemaDocument.load file text = .ok d)
    (h : build ds id = .ok s) (hlists : s.WithLists s') : s'.AnswersIntrospection :=
  (hlists.introspective (build_introspective (SchemaDocument.loaded_isProper hds) h)).answers

end Schema

namespace Sample

/-- A query for the shape of all types, through a fragment that is also used for one of them. -/
def introspectionText : String :=
  "\x7b __typename __schema \x7b types \x7b ...Shape \x7d directives \x7b args \x7b defaultValue \x7d \x7d \x7d "
    ++ "pet: __type(name: \"Pet\") \x7b ...Shape \x7d \x7d "
    ++ "fragment Shape on __Type \x7b kind name fields(includeDeprecated: true) "
    ++ "\x7b name type \x7b kind ofType \x7b name \x7d \x7d \x7d enumValues \x7b isDeprecated \x7d \x7d"

def introspectionChars : { chars : List Char // introspectionText.toList = chars } :=
  ⟨_, toList_append (toList_append (toList_append String.toList_ofList String.toList_ofList)
    String.toList_ofList) String.toList_ofList⟩

end Sample

namespace Schema

theorem build_answersIntrospection_of_sample : ∃ d₀ s d p v,
    SchemaDocument.load none Sample.schemaText = .ok d₀ ∧ build [d₀] 0 = .ok s ∧
    s.WithLists (s.listOf s.query).2 ∧ (s.listOf s.query).2.AnswersIntrospection ∧
    s.validate d Sample.introspectionText.toList = [] ∧
    s.prepare d Sample.introspectionText.toList none [] = .ok p ∧
    p.type = .query ∧ (∀ f ∈ p.fields, f.call.name ∈ ["__schema", "__type", "__typename"]) ∧
    p.execute Sample.host "" false = ⟨some v, []⟩ := by
  have hrun : (Sample.readChars? Sample.schemaChars.1 Sample.introspectionChars.1).any (fun (s, d) =>
      isValid s d && (s.prepare d Sample.introspectionChars.1 none []).toOption.any fun p =>
        p.type = .query && p.fields.all fun f => ["__schema", "__type", "__typename"].contains f.call.name)
      = true := by
    decide +kernel
  obtain ⟨s, d, hs, -, hcheck⟩ := Sample.exists_of_chars Sample.schemaChars.2 Sample.introspectionChars.2 hrun
  rw [← Sample.introspectionChars.2] at hcheck
  obtain ⟨d₀, hload, hbuild⟩ := ofText_eq_ok.mp hs
  obtain ⟨hvalid, hcheck⟩ := Bool.and_eq_true_iff.mp hcheck
  obtain ⟨p, hp, hcheck⟩ := (Option.any_eq_true _ _).mp hcheck
  obtain ⟨hquery, hnames⟩ := Bool.and_eq_true_iff.mp hcheck
  have hds : ∀ e ∈ [d₀], ∃ file text, SchemaDocument.load file text = .ok e :=
    List.forall_mem_singleton.mpr ⟨none, _, hload⟩
  have hroot : s.registry.Has s.query :=
    (TypeRegistry.find?_spec (build_introspective (SchemaDocument.loaded_isProper hds) hbuild).query).1
  have hlists : s.WithLists (s.listOf s.query).2 := .listOf .refl hroot
  have hp : s.prepare d Sample.introspectionText.toList none [] = .ok p := toOption_eq_some.mp hp
  have hquery : p.type = .query := of_decide_eq_true hquery
  have hnames : ∀ f ∈ p.fields, f.call.name ∈ ["__schema", "__type", "__typename"] := fun f hf =>
    List.contains_iff_mem.mp (List.all_eq_true.mp hnames f hf)
  obtain ⟨v, hv⟩ := (build_answersIntrospection hds hbuild .refl).executes hp hquery hnames Sample.host "" false
  exact ⟨d₀, s, d, p, v, hload, hbuild, hlists, build_answersIntrospection hds hbuild hlists,
    validate_eq_nil_iff.mpr (valid_of_isValid hvalid), hp, hquery, hnames, hv⟩

end Schema

end GraphQL
