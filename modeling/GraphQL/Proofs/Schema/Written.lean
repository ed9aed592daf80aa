import GraphQL.Proofs.Schema.Build

/-!
What type definitions become.

Resolution that reports nothing keeps all that is written: one type for each definition, one member for
each member of it, in the order in which they stand. The handles of their types are those of the
registry in the end, which has all that was in the registry on the way. The defaults that are written
wait in the end.
-/

namespace GraphQL

/-- A name may stand where it does: only documents of our own use reserved ones. -/
def ResolutionContext.Permits (ctx : ResolutionContext) (n : Name) : Prop :=
  ctx.document.isBuiltin = true ∨ n.isReserved = false

namespace Resolution

variable {α β : Type} {ctx : ResolutionContext} {r : TypeRegistry} {waiting : List PendingDefault}

/-! ### What definitions say -/

/-- An argument or input field is as it was written, with null for a default that waits. -/
structure InputOf (ctx : ResolutionContext) (r : TypeRegistry) (waiting : List PendingDefault)
    (owner : InputOwner) (d : InputDefinition) (i : InputSpec) : Prop where
  permitted : ctx.Permits d.name
  name : i.name = d.name.text
  description : i.description = d.description
  type : r.ofRef? d.type = some i.type
  kind : ∃ k, ctx.kinds.lookup d.type.innermost.text = some k ∧ k ≠ .object
  default : i.default? = d.default?.map fun _ => .null i.type
  waits : ∀ l, d.default? = some l → ∃ p ∈ waiting, p.owner = owner ∧ p.literal = l

structure FieldOf (ctx : ResolutionContext) (r : TypeRegistry) (waiting : List PendingDefault)
    (typeName : String) (d : FieldDefinition) (f : FieldSpec) : Prop where
  permitted : ctx.Permits d.name
  name : f.name = d.name.text
  description : f.description = d.description
  arguments : List.Forall₂ (fun a => InputOf ctx r waiting (.argument typeName d.name.text a.name.text) a)
    d.arguments f.arguments
  type : r.ofRef? d.type = some f.type
  kind : ∃ k, ctx.kinds.lookup d.type.innermost.text = some k ∧ k ≠ .inputObject

structure EnumValueOf (ctx : ResolutionContext) (d : EnumValueDefinition) (v : EnumValueSpec) : Prop where
  permitted : ctx.Permits d.name
  name : v.name = d.name.text
  description : v.description = d.description

inductive BodyOf (ctx : ResolutionContext) (r : TypeRegistry) (waiting : List PendingDefault)
    (typeName : String) : TypeBody → NamedTypeBody → Prop where
  | scalar : BodyOf ctx r waiting typeName .scalar (.scalar none)
  | object {ds : List FieldDefinition} {fs : List FieldSpec} (nonempty : ds ≠ [])
      (members : List.Forall₂ (FieldOf ctx r waiting typeName) ds fs) :
      BodyOf ctx r waiting typeName (.object ds) (.object fs)
  | enum {ds : List EnumValueDefinition} {vs : List EnumValueSpec} (nonempty : ds ≠ [])
      (members : List.Forall₂ (EnumValueOf ctx) ds vs) : BodyOf ctx r waiting typeName (.enum ds) (.enum vs)
  | input {ds : List InputDefinition} {is : List InputSpec} (nonempty : ds ≠ [])
      (members : List.Forall₂ (fun d => InputOf ctx r waiting (.inputField typeName d.name.text) d) ds is) :
      BodyOf ctx r waiting typeName (.input ds) (.inputObject is)

structure TypeOf (ctx : ResolutionContext) (r : TypeRegistry) (waiting : List PendingDefault)
    (d : TypeDefinition) (t : NamedType) : Prop where
  name : t.name = d.name.text
  description : t.description = d.description
  body : BodyOf ctx r waiting d.name.text d.body t.body

/-! ### Steps -/

/-- Without errors a step gives what `P` says of it with all later registries, and with all defaults
that wait later. -/
def Gives (ctx : ResolutionContext) (m : Resolution α)
    (P : TypeRegistry → List PendingDefault → α → Prop) : Prop :=
  Yields ctx m fun _ a st => ∀ r waiting, r.WellFormed → TypeRegistry.Extends st.registry r →
    st.pending ⊆ waiting → P r waiting a

namespace Gives

variable {m : Resolution α} {P : TypeRegistry → List PendingDefault → α → Prop}
  {Q : TypeRegistry → List PendingDefault → β → Prop} {R : ResolutionState → α → ResolutionState → Prop}

lemma pure {a : α} (h : ∀ r waiting, P r waiting a) : Gives ctx (Pure.pure a) P :=
  Yields.pure fun _ r waiting _ _ _ => h r waiting

lemma bind {f : α → Resolution β} (hm : Gives ctx m P)
    (hf : ∀ a, Gives ctx (f a) fun r waiting b => P r waiting a → Q r waiting b) :
    Gives ctx (m >>= f) Q := by
  intro st hst
  obtain ⟨hg, hP⟩ := hm st hst
  obtain ⟨hg', hQ⟩ := hf (m ctx st).1 (m ctx st).2 (hg.ready hst)
  refine ⟨hg.trans hg', fun he r waiting hr hext hsub => ?_⟩
  refine hQ he r waiting hr hext hsub (hP (hg'.errors he) r waiting hr (hg'.registry.trans hext) ?_)
  exact fun p hp => hsub (hg'.kept p hp)

lemma behind {f : α → Resolution β} (hm : Yields ctx m R) (hf : ∀ a, Gives ctx (f a) Q) :
    Gives ctx (m >>= f) Q :=
  hm.bind fun a => (hf a).mono fun _ _ _ h _ _ => h

lemma behind_discard {f : Unit → Resolution β} (hm : Yields ctx m R) (hf : Gives ctx (f ()) Q) :
    Gives ctx (discard m >>= f) Q :=
  hm.discard_bind (hf.mono fun _ _ _ h _ _ _ => h)

/-- Behind a report there is nothing to give. -/
lemma report_bind {e : DefinitionError} (hm : Yields ctx m R) :
    Gives ctx (report e >>= fun _ => m) P :=
  (Yields.report e).bind fun _ => hm.mono fun _ _ _ _ _ h => h.elim

lemma mapM {f : β → Resolution α} {bs : List β}
    {R : TypeRegistry → List PendingDefault → β → α → Prop}
    (hf : ∀ b ∈ bs, Gives ctx (f b) fun r waiting a => R r waiting b a) :
    Gives ctx (bs.mapM f) fun r waiting as => List.Forall₂ (R r waiting) bs as := by
  induction bs with
  | nil => exact pure fun _ _ => .nil
  | cons b bs ih =>
    rw [List.mapM_cons]
    refine (hf b List.mem_cons_self).bind fun a => ?_
    refine (ih fun b' hb' => hf b' (List.mem_cons_of_mem b hb')).bind fun as => pure ?_
    exact fun r waiting has ha => .cons ha has

end Gives

lemma typeOfRef_gives (t : TypeRef) : Gives ctx (typeOfRef t) fun r _ a =>
    ∃ e, a = some e ∧ r.ofRef? t = some e ∧ (ctx.kinds.lookup t.innermost.text).isSome := by
  intro st hst
  obtain ⟨hg, -, hhas, hsome⟩ := typeOfRef_spec t hst
  refine ⟨hg, fun he r _ hr hext _ => ?_⟩
  obtain ⟨hsome, hkind⟩ := hsome he
  obtain ⟨e, ha⟩ := Option.isSome_iff_exists.mp hsome
  exact ⟨e, ha, TypeRegistry.ofRef?_of_extends hr hext (hhas e ha).2, hkind⟩

/-! ### Members -/

/-- Each member that may stand where it does gives one, and none is lost. -/
lemma members_gives {typeName : String} {nameOf : α → Name}
    {duplicate : String → SchemaPlace → SchemaPlace → DefinitionError}
    {member : α → Resolution (Option β)} {R : TypeRegistry → List PendingDefault → α → β → Prop}
    (as : List α) (hm : ∀ a ∈ as, ctx.Permits (nameOf a) →
      Gives ctx (member a) fun r waiting b => ∃ x, b = some x ∧ R r waiting a x)
    (seen : List Name) : Gives ctx (members typeName nameOf duplicate member seen as) fun r waiting bs =>
      List.Forall₂ (R r waiting) as bs := by
  induction as generalizing seen with
  | nil =>
    rw [members]
    exact .pure fun _ _ => .nil
  | cons a as ih =>
    have ih := ih fun b hb => hm b (List.mem_cons_of_mem a hb)
    rw [members]
    refine .read_bind (.ite (fun _ => .place_bind fun _ => Gives.report_bind (ih seen)) fun hname => ?_)
    have hpermits : ctx.Permits (nameOf a) := by
      cases hbuiltin : ctx.document.isBuiltin with
      | true => exact .inl hbuiltin
      | false => exact .inr (by simpa [hbuiltin] using hname)
    split
    · exact .place_bind fun _ => .place_bind fun _ => Gives.report_bind (ih seen)
    · refine Gives.bind (hm a List.mem_cons_self hpermits) fun b => ?_
      refine (ih (nameOf a :: seen)).bind fun bs => .pure ?_
      rintro r waiting hbs ⟨x, rfl, hx⟩
      exact .cons hx hbs

lemma input_gives (owner : InputOwner) (d : InputDefinition) (hpermits : ctx.Permits d.name)
    (hd : ∀ v, d.default? = some v → v.IsProper) :
    Gives ctx (input owner d) fun r waiting a => ∃ i, a = some i ∧ InputOf ctx r waiting owner d i := by
  unfold input
  extract_lets location
  refine .behind_discard (directives_yields _ _) ((typeOfRef_gives d.type).bind fun t => ?_)
  split
  · exact Gives.pure fun r _ h => by simp at h
  · rename_i type
    refine .kind_bind (.ite (fun _ => .place_bind fun _ => Gives.report_bind (.pure_any none)) ?_)
    intro hkind
    have hbecomes {default? : Option Value} {waiting : List PendingDefault}
        (hdefault : default? = d.default?.map fun _ => .null type)
        (hwaits : ∀ l, d.default? = some l → ∃ p ∈ waiting, p.owner = owner ∧ p.literal = l)
        (r : TypeRegistry) (h : ∃ e, some type = some e ∧ r.ofRef? d.type = some e ∧
          (ctx.kinds.lookup d.type.innermost.text).isSome) :
        InputOf ctx r waiting owner d ⟨d.name.text, type, default?, d.description⟩ := by
      obtain ⟨e, he, href, hk⟩ := h
      obtain rfl := Option.some.inj he
      obtain ⟨k, hk⟩ := Option.isSome_iff_exists.mp hk
      exact ⟨hpermits, rfl, rfl, href, ⟨k, hk, fun hobject => hkind (hobject ▸ hk)⟩, hdefault, hwaits⟩
    cases hv : d.default? with
    | none => exact Gives.pure fun r _ h => ⟨_, rfl, hbecomes (by rw [hv]; rfl) (by simp [hv]) r h⟩
    | some v =>
      refine .place_bind fun q st hst => ⟨⟨id, .refl _, id, fun p hp => ?_, ?_⟩, fun _ r waiting _ _ hsub h => ?_⟩
      · rcases List.mem_cons.mp hp with rfl | hp
        · exact .inr (hd v hv)
        · exact .inl hp
      · exact fun _ => List.mem_cons_of_mem _
      · refine ⟨_, rfl, hbecomes (by rw [hv]; rfl) (fun l hl => ?_) r h⟩
        exact ⟨_, hsub List.mem_cons_self, rfl, Option.some.inj (hv.symm.trans hl)⟩

/-- Arguments and input fields alike: each is there, in the order in which they are written. -/
lemma inputs_gives (typeName : String)
    (duplicate : String → SchemaPlace → SchemaPlace → DefinitionError)
    (owner : String → InputOwner) (ds : List InputDefinition)
    (hd : ∀ v ∈ ds.filterMap (·.default?), v.IsProper) :
    Gives ctx (members typeName (·.name) duplicate (fun d => input (owner d.name.text) d) [] ds)
      fun r waiting is =>
        List.Forall₂ (fun d => InputOf ctx r waiting (owner d.name.text) d) ds is :=
  members_gives ds (fun d hmem hpermits => input_gives _ d hpermits fun v hv =>
    hd v (List.mem_filterMap.mpr ⟨d, hmem, hv⟩)) []

lemma field_gives (typeName : String) (d : FieldDefinition) (hpermits : ctx.Permits d.name)
    (hd : ∀ v ∈ d.arguments.filterMap (·.default?), v.IsProper) :
    Gives ctx (field typeName d) fun r waiting a =>
      ∃ f, a = some f ∧ FieldOf ctx r waiting typeName d f := by
  unfold field
  refine .behind (directives_yields _ _) fun state => ?_
  refine (inputs_gives typeName _ (.argument typeName d.name.text) d.arguments hd).bind fun args => ?_
  refine (typeOfRef_gives d.type).bind fun t => ?_
  split
  · exact Gives.pure fun r _ h => by simp at h
  · rename_i type
    refine .kind_bind (.ite (fun _ => .place_bind fun _ => Gives.report_bind (.pure_any none)) ?_)
    intro hkind
    refine Gives.pure fun r _ ⟨e, he, href, hk⟩ hargs => ⟨_, rfl, hpermits, rfl, rfl, hargs, ?_, ?_⟩
    · rwa [Option.some.inj he]
    · obtain ⟨k, hk⟩ := Option.isSome_iff_exists.mp hk
      exact ⟨k, hk, fun hinput => hkind (hinput ▸ hk)⟩

lemma enumValue_gives (d : EnumValueDefinition) (hpermits : ctx.Permits d.name) :
    Gives ctx (enumValue d) fun _ _ a => ∃ v, a = some v ∧ EnumValueOf ctx d v :=
  .behind (directives_yields _ _) fun _ => .pure fun _ _ => ⟨_, rfl, hpermits, rfl, rfl⟩

/-! ### Types -/

lemma requireMember_bind {name : Name} {kind : MemberKind} {ds : List α} {f : Unit → Resolution β}
    {Q : TypeRegistry → List PendingDefault → β → Prop}
    (hf : ∀ u, Gives ctx (f u) fun r waiting b => ds ≠ [] → Q r waiting b) :
    Gives ctx (requireMember name kind ds >>= f) Q := by
  have hrequire : Yields ctx (requireMember name kind ds) fun _ _ _ => ds ≠ [] := by
    unfold requireMember
    refine .ite (fun _ => .place_bind fun _ => ?_) fun hne => .pure fun _ => by simpa using hne
    exact (Yields.report _).mono fun _ _ _ h => h.elim
  exact hrequire.bind fun u => Yields.mono (hf u) fun _ _ _ h _ hne r waiting hr hext hsub =>
    h r waiting hr hext hsub hne

lemma body_gives (name : Name) (ds : List Directive) (b : TypeBody) (hd : ∀ v ∈ b.defaults, v.IsProper) :
    Gives ctx (body name ds b) fun r waiting nb => BodyOf ctx r waiting name.text b nb := by
  cases b with
  | scalar => exact .behind_discard (directives_yields _ _) (.pure fun _ _ => .scalar)
  | object members =>
    refine .behind_discard (directives_yields _ _) (requireMember_bind fun _ => ?_)
    refine (members_gives members (fun d hmem hpermits => field_gives name.text d hpermits ?_) []).bind
      fun fs => .pure fun r _ hfs hne => .object hne hfs
    exact fun v hv => hd v (List.mem_flatMap.mpr ⟨d, hmem, hv⟩)
  | enum values =>
    refine .behind_discard (directives_yields _ _) (requireMember_bind fun _ => ?_)
    exact (members_gives values (fun d _ hpermits => enumValue_gives d hpermits) []).bind
      fun vs => .pure fun r _ hvs hne => .enum hne hvs
  | input members =>
    refine .behind_discard (directives_yields _ _) (requireMember_bind fun _ => ?_)
    exact (inputs_gives name.text _ (.inputField name.text) members hd).bind
      fun is => .pure fun r _ his hne => .input hne his

lemma type_gives (d : TypeDefinition) (hd : ∀ v ∈ d.body.defaults, v.IsProper) :
    Gives ctx (type d) fun r waiting t => TypeOf ctx r waiting d t :=
  (body_gives d.name d.directives d.body hd).bind fun _ => .pure fun _ _ h => ⟨rfl, rfl, h⟩

end Resolution

/-! ### Names of types -/

namespace TypeNames

variable {names names' : TypeNames} {d : SchemaDocument}

/-- The name of a type may stand where it does, and is not that of a builtin scalar. -/
def Admits (d : SchemaDocument) (t : TypeDefinition) : Prop :=
  (d.isBuiltin = true ∨ t.name.isReserved = false) ∧ BuiltinScalar.ofName? t.name.text = none

lemma register_admits {t : TypeDefinition} (h : names.register d t = .ok names') : Admits d t := by
  unfold register at h
  dsimp only at h
  split at h
  · simp at h
  rename_i hname
  split at h
  · simp at h
  rename_i hscalar
  refine ⟨?_, by simpa using hscalar⟩
  cases hbuiltin : d.isBuiltin with
  | true => exact .inl rfl
  | false => exact .inr (by simpa [hbuiltin] using hname)

lemma foldlM_admits {α : Type} {f : TypeNames → α → Except SchemaError TypeNames} {P : α → Prop}
    {as : List α} (hf : ∀ names a names', f names a = .ok names' → P a)
    (h : as.foldlM f names = .ok names') : ∀ a ∈ as, P a := by
  induction as generalizing names with
  | nil => simp
  | cons a as ih =>
    rw [List.foldlM_cons] at h
    obtain ⟨names₁, ha, has⟩ := bind_eq_ok.mp h
    exact List.forall_mem_cons.mpr ⟨hf _ _ _ ha, ih has⟩

lemma registerAll_admits {ds : List SchemaDocument} (h : names.registerAll ds = .ok names') :
    ∀ d ∈ ds, ∀ t ∈ d.types, Admits d t :=
  foldlM_admits (fun _ _ _ hd => foldlM_admits (fun _ _ _ ht => register_admits ht) hd) h

end TypeNames

namespace Schema

open Resolution

variable {names : TypeNames} {directives : List DirectiveSpec}

/-- The types of documents, in the order of their definitions. -/
lemma resolveDocuments_gives (ds : List SchemaDocument) (hd : ∀ d ∈ ds, d.IsProper)
    {st : ResolutionState} (hst : ∀ d, Ready ⟨d, directives, names.kinds⟩ st)
    {types : List (List NamedType)} {st' : ResolutionState}
    (h : (ds.mapM (resolveDocument names directives)).run st = (types, st')) (he : st'.errors = [])
    (hwf : st'.registry.WellFormed) :
    List.Forall₂ (fun d ts =>
      List.Forall₂ (TypeOf ⟨d, directives, names.kinds⟩ st'.registry st'.pending) d.types ts) ds types := by
  induction ds generalizing st types st' with
  | nil =>
    cases h
    exact .nil
  | cons d ds ih =>
    have hgives : Gives ⟨d, directives, names.kinds⟩ (d.types.mapM type) fun r waiting ts =>
        List.Forall₂ (TypeOf ⟨d, directives, names.kinds⟩ r waiting) d.types ts :=
      Gives.mapM fun t ht => type_gives t (hd d List.mem_cons_self t ht)
    obtain ⟨hg, hQ⟩ := hgives st (hst d)
    generalize hrun : (d.types.mapM type) ⟨d, directives, names.kinds⟩ st = run at hg hQ
    obtain ⟨ts, st₁⟩ := run
    generalize hrest : (ds.mapM (resolveDocument names directives)).run st₁ = rest
    obtain ⟨tss, st₂⟩ := rest
    have hds : ∀ d ∈ ds, d.IsProper := fun d h => hd d (List.mem_cons_of_mem _ h)
    have hready : ∀ d, Ready ⟨d, directives, names.kinds⟩ st₁ := fun d' => hg.ready (hst d')
    obtain ⟨hg', -⟩ := resolveDocuments_spec ds hds hready hrest
    obtain ⟨rfl, rfl⟩ := Prod.mk.inj ((resolveDocuments_cons hrun hrest).symm.trans h)
    exact .cons (hQ (hg'.errors he) _ _ hwf hg'.registry hg'.kept) (ih hds hready hrest he hwf)

end Schema

end GraphQL
