import GraphQL.Proofs.Document.Parts
import GraphQL.Proofs.Type.Reference
import GraphQL.Schema.Resolution

/-!
What the members of a type become.

Resolution that reports nothing drops nothing: an argument or input field is there with the type that
was written, and if it was given a default then that waits in the order of the members, with null in
its place.
-/

namespace GraphQL

/-! ### The inputs that a type owns -/

namespace FieldSpec

/-- The arguments of a field, each with the owner of its default. -/
def ownedInputs (typeName : String) (f : FieldSpec) : List (InputOwner × InputSpec) :=
  f.arguments.map fun a => (.argument typeName f.name a.name, a)

end FieldSpec

namespace NamedTypeBody

def ownedInputs (typeName : String) : NamedTypeBody → List (InputOwner × InputSpec)
  | .object fields => fields.flatMap (·.ownedInputs typeName)
  | .inputObject fields => fields.map fun f => (.inputField typeName f.name, f)
  | .scalar _ | .enum _ => []

/-- The members of a body have names of their own, and so do the arguments of each of them. -/
def HasDistinctNames : NamedTypeBody → Prop
  | .object fields =>
    (fields.map (·.name)).Nodup ∧ ∀ f ∈ fields, (f.arguments.map (·.name)).Nodup
  | .inputObject fields => (fields.map (·.name)).Nodup
  | .scalar _ | .enum _ => True

end NamedTypeBody

namespace NamedType

def ownedInputs (t : NamedType) : List (InputOwner × InputSpec) := t.body.ownedInputs t.name

end NamedType

namespace PendingDefault

def key (p : PendingDefault) : InputOwner × TypeId := (p.owner, p.type)

end PendingDefault

/-- The inputs that have a default, by owner and type. -/
def defaulted (inputs : List (InputOwner × InputSpec)) : List (InputOwner × TypeId) :=
  (inputs.filter fun p => p.2.default?.isSome).map fun p => (p.1, p.2.type)

lemma defaulted_append (as bs : List (InputOwner × InputSpec)) :
    defaulted (as ++ bs) = defaulted as ++ defaulted bs := by
  rw [defaulted, List.filter_append, List.map_append]
  rfl

namespace Resolution

variable {α β : Type} {ctx : ResolutionContext} {st st₁ st₂ st₃ : ResolutionState}

/-! ### States -/

/-- Every name that has a kind has a slot. -/
structure Ready (ctx : ResolutionContext) (st : ResolutionState) : Prop where
  wellFormed : st.registry.WellFormed
  known : ∀ name, (ctx.kinds.lookup name).isSome → (st.registry.named? name).isSome

/-- What every step keeps. -/
structure Grows (st st' : ResolutionState) : Prop where
  wellFormed : st.registry.WellFormed → st'.registry.WellFormed
  registry : TypeRegistry.Extends st.registry st'.registry
  errors : st'.errors = [] → st.errors = []
  pending : ∀ p ∈ st'.pending, p ∈ st.pending ∨ p.literal.IsProper
  kept : ∀ p ∈ st.pending, p ∈ st'.pending

namespace Grows

lemma refl (st : ResolutionState) : Grows st st :=
  ⟨id, .refl _, id, fun _ h => Or.inl h, fun _ h => h⟩

lemma trans (h : Grows st₁ st₂) (h' : Grows st₂ st₃) : Grows st₁ st₃ := by
  refine ⟨h'.wellFormed ∘ h.wellFormed, h.registry.trans h'.registry, h.errors ∘ h'.errors, ?_,
    fun p hp => h'.kept p (h.kept p hp)⟩
  intro p hp
  rcases h'.pending p hp with hp | hp
  · exact h.pending p hp
  · exact Or.inr hp

lemma ready (h : Grows st st₁) (hr : Ready ctx st) : Ready ctx st₁ := by
  refine ⟨h.wellFormed hr.wellFormed, ?_⟩
  intro name hn
  obtain ⟨t, ht⟩ := Option.isSome_iff_exists.mp (hr.known name hn)
  exact Option.isSome_iff_exists.mpr
    ⟨t, TypeRegistry.find?_of_extends (h.wellFormed hr.wellFormed) h.registry ht⟩

end Grows

/-- The defaults of these inputs have come to wait, and null stands for them. -/
structure Adds (inputs : List (InputOwner × InputSpec)) (st st' : ResolutionState) : Prop where
  pending :
    st'.pending.map PendingDefault.key
      = (defaulted inputs).reverse ++ st.pending.map PendingDefault.key
  placeholder : ∀ p ∈ inputs, ∀ v, p.2.default? = some v → v = .null p.2.type

namespace Adds

variable {as bs : List (InputOwner × InputSpec)}

lemma nil (h : st₁.pending = st.pending) : Adds [] st st₁ := ⟨by simp [defaulted, h], by simp⟩

lemma append (ha : Adds as st₁ st₂) (hb : Adds bs st₂ st₃) : Adds (as ++ bs) st₁ st₃ := by
  refine ⟨?_, ?_⟩
  · rw [hb.pending, ha.pending, defaulted_append, List.reverse_append, List.append_assoc]
  · intro p hp
    rcases List.mem_append.mp hp with hp | hp
    · exact ha.placeholder p hp
    · exact hb.placeholder p hp

end Adds

/-! ### Steps -/

/-- From a ready state a step only grows the state, and without errors it gives what `Q` says. -/
def Yields (ctx : ResolutionContext) (m : Resolution α)
    (Q : ResolutionState → α → ResolutionState → Prop) : Prop :=
  ∀ st, Ready ctx st →
    Grows st (m ctx st).2 ∧ ((m ctx st).2.errors = [] → Q st (m ctx st).1 (m ctx st).2)

namespace Yields

variable {m : Resolution α} {Q : ResolutionState → α → ResolutionState → Prop}

lemma pure {a : α} (h : ∀ st, Q st a st) : Yields ctx (Pure.pure a) Q :=
  fun st _ => ⟨.refl st, fun _ => h st⟩

lemma pure_any (a : α) : Yields ctx (Pure.pure a) fun _ _ _ => True := .pure fun _ => trivial

lemma bind {f : α → Resolution β} {R : ResolutionState → β → ResolutionState → Prop}
    (hm : Yields ctx m Q)
    (hf : ∀ a, Yields ctx (f a) fun st b st' => ∀ st₀, Q st₀ a st → R st₀ b st') :
    Yields ctx (m >>= f) R := by
  intro st hst
  obtain ⟨hg, hQ⟩ := hm st hst
  obtain ⟨hg', hR⟩ := hf (m ctx st).1 (m ctx st).2 (hg.ready hst)
  exact ⟨hg.trans hg', fun he => hR he st (hQ (hg'.errors he))⟩

lemma mono {R : ResolutionState → α → ResolutionState → Prop} (hm : Yields ctx m Q)
    (h : ∀ st a st', Q st a st' → R st a st') : Yields ctx m R := by
  intro st hst
  obtain ⟨hg, hQ⟩ := hm st hst
  exact ⟨hg, fun he => h _ _ _ (hQ he)⟩

lemma ite {p : Prop} [Decidable p] {n : Resolution α} (hm : p → Yields ctx m Q)
    (hn : ¬p → Yields ctx n Q) : Yields ctx (if p then m else n) Q := by
  by_cases h : p
  · rw [if_pos h]
    exact hm h
  · rw [if_neg h]
    exact hn h

/-- A report rules out that there are no errors. -/
lemma report (e : DefinitionError) : Yields ctx (Resolution.report e) fun _ _ _ => False :=
  fun _ _ => ⟨⟨id, .refl _, fun h => (List.cons_ne_nil _ _ h).elim, fun _ h => Or.inl h, fun _ h => h⟩,
    fun h => (List.cons_ne_nil _ _ h).elim⟩

lemma report_bind {e : DefinitionError} {R : ResolutionState → α → ResolutionState → Prop}
    (hm : Yields ctx m Q) : Yields ctx (Resolution.report e >>= fun _ => m) R :=
  (report e).bind fun _ => hm.mono fun _ _ _ _ _ h => h.elim

lemma read_bind {f : ResolutionContext → Resolution α} (hf : Yields ctx (f ctx) Q) :
    Yields ctx (read >>= f) Q :=
  fun st hst => hf st hst

lemma discard_bind {n : Resolution β} {f : Unit → Resolution α}
    {R : ResolutionState → β → ResolutionState → Prop} (hn : Yields ctx n R)
    (hf : Yields ctx (f ()) fun st a st' => ∀ st₀ b, R st₀ b st → Q st₀ a st') :
    Yields ctx (discard n >>= f) Q := by
  intro st hst
  obtain ⟨hg, hR⟩ := hn st hst
  obtain ⟨hg', hQ⟩ := hf (n ctx st).2 (hg.ready hst)
  exact ⟨hg.trans hg', fun he => hQ he st _ (hR (hg'.errors he))⟩

lemma kind_bind {name : String} {f : Option NamedTypeKind → Resolution α}
    (hf : Yields ctx (f (ctx.kinds.lookup name)) Q) : Yields ctx (kind? name >>= f) Q :=
  fun st hst => hf st hst

lemma place_bind {p : Pos} {f : SchemaPlace → Resolution α} (hf : ∀ q, Yields ctx (f q) Q) :
    Yields ctx (place p >>= f) Q :=
  fun st hst => hf (ctx.document.place p) st hst

end Yields

/-! ### Types as they are written -/

lemma bind_run (m : Resolution α) (f : α → Resolution β) :
    (m >>= f) ctx st = f (m ctx st).1 ctx (m ctx st).2 := rfl

lemma kind?_bind (name : String) (f : Option NamedTypeKind → Resolution α) :
    (kind? name >>= f) ctx st = f (ctx.kinds.lookup name) ctx st := rfl

/-- What reading a written type comes to: nothing else waits for it, a type that is read is the one that
is written, and without errors there is one. -/
structure ReadsType (ctx : ResolutionContext) (t : TypeRef) (st : ResolutionState)
    (out : Option TypeId × ResolutionState) : Prop where
  grows : Grows st out.2
  pending : out.2.pending = st.pending
  written : ∀ e, out.1 = some e → out.2.registry.Has e ∧ out.2.registry.ofRef? t = some e
  known : out.2.errors = [] → out.1.isSome ∧ (ctx.kinds.lookup t.innermost.text).isSome

namespace ReadsType

variable {t : TypeRef} {p : Pos} {e : TypeId}

lemma unknown (n : Name) (place : SchemaPlace) :
    ReadsType ctx (.named n) st
      (none, { st with errors := .undefinedType n.text place :: st.errors }) where
  grows := ⟨id, .refl _, by simp, fun _ h => Or.inl h, fun _ h => h⟩
  pending := rfl
  written := by simp
  known := by simp

lemma named {n : Name} (hst : Ready ctx st) (hsome : (ctx.kinds.lookup n.text).isSome) :
    ReadsType ctx (.named n) st (st.registry.named? n.text, st) where
  grows := .refl st
  pending := rfl
  written _ he := ⟨(TypeRegistry.find?_spec he).1, he⟩
  known _ := ⟨hst.known n.text hsome, hsome⟩

lemma list_none (h : ReadsType ctx t st (none, st₁)) : ReadsType ctx (.list t p) st (none, st₁) where
  grows := h.grows
  pending := h.pending
  written := by simp
  known he := by simpa using h.known he

/-- The list of what was read is interned; it is what is written in brackets. -/
lemma list (hst : Ready ctx st) (h : ReadsType ctx t st (some e, st₁)) :
    ReadsType ctx (.list t p) st
      (some (st₁.registry.listOf e).1, { st₁ with registry := (st₁.registry.listOf e).2 }) := by
  obtain ⟨hhas, href⟩ := h.written e rfl
  have hlist := TypeRegistry.intern_spec (s := .list e) (h.grows.wellFormed hst.wellFormed)
    fun e' h => by
      cases h
      exact hhas
  refine ⟨⟨fun _ => hlist.1, h.grows.registry.trans hlist.2.1, h.grows.errors, h.grows.pending,
    h.grows.kept⟩, h.pending, ?_, fun herr => ⟨rfl, (h.known herr).2⟩⟩
  intro e' he'
  cases he'
  refine ⟨hlist.2.2.1, Option.bind_eq_some_iff.mpr ⟨e, ?_, hlist.2.2.2.2⟩⟩
  exact TypeRegistry.ofRef?_of_extends hlist.1 hlist.2.1 href

lemma nonNull {read : Option TypeId} (h : ReadsType ctx t st (read, st₁)) :
    ReadsType ctx (.nonNull t p) st (read.map (·.nonNull), st₁) := by
  refine ⟨h.grows, h.pending, ?_, fun herr => ⟨by simpa using (h.known herr).1, (h.known herr).2⟩⟩
  intro e he
  obtain ⟨e', rfl, rfl⟩ := Option.map_eq_some_iff.mp he
  obtain ⟨hhas, href⟩ := h.written e' rfl
  exact ⟨hhas.nonNull, Option.map_eq_some_iff.mpr ⟨e', href, rfl⟩⟩

end ReadsType

lemma typeOfRef_spec (t : TypeRef) (hst : Ready ctx st) : ReadsType ctx t st (typeOfRef t ctx st) := by
  induction t with
  | named n =>
    rw [typeOfRef, kind?_bind]
    cases hk : ctx.kinds.lookup n.text with
    | none => exact .unknown n _
    | some k => exact .named hst (by simp [hk])
  | list t p ih =>
    rw [typeOfRef, bind_run]
    generalize typeOfRef t ctx st = out at ih ⊢
    obtain ⟨read, st₁⟩ := out
    cases read with
    | none => exact ih.list_none
    | some e => exact ih.list hst
  | nonNull t p ih => exact ih.nonNull

lemma typeOfRef_yields (t : TypeRef) :
    Yields ctx (typeOfRef t) fun st a st' => a.isSome ∧ st'.pending = st.pending := by
  intro st hst
  obtain ⟨hg, hp, -, hsome⟩ := typeOfRef_spec t hst
  exact ⟨hg, fun he => ⟨(hsome he).1, hp⟩⟩

/-! ### Directives -/

lemma deprecationReason_yields (d : Directive) (reason : Option String) (as : List Argument) :
    Yields ctx (deprecationReason d reason as) fun st _ st' => st'.pending = st.pending := by
  induction as generalizing reason with
  | nil =>
    rw [deprecationReason]
    exact .pure fun _ => rfl
  | cons a as ih =>
    rw [deprecationReason]
    refine .ite (fun _ => ?_) fun _ => ?_
    · split
      · exact ih _
      · exact ih _
      · exact .place_bind fun _ => .report_bind (ih _)
    · exact .place_bind fun _ => .report_bind (ih _)

lemma directivesFrom_yields (location : DirectiveLocation) (seen : List String)
    (state : Deprecation) (ds : List Directive) :
    Yields ctx (directivesFrom location seen state ds) fun st _ st' => st'.pending = st.pending := by
  induction ds generalizing seen state with
  | nil =>
    rw [directivesFrom]
    exact .pure fun _ => rfl
  | cons d ds ih =>
    rw [directivesFrom]
    refine .read_bind ?_
    split
    · exact .place_bind fun _ => .report_bind (ih _ _)
    · refine .ite (fun _ => .place_bind fun _ => .report_bind (ih _ _)) fun _ => ?_
      refine .ite (fun _ => .place_bind fun _ => .report_bind (ih _ _)) fun _ => ?_
      refine .ite (fun _ => ?_) fun _ => ih _ _
      refine (deprecationReason_yields _ _ _).bind fun _ => (ih _ _).mono ?_
      intro st _ st' h st₀ h₀
      exact h.trans h₀

lemma directives_yields (location : DirectiveLocation) (ds : List Directive) :
    Yields ctx (directives location ds) fun st _ st' => st'.pending = st.pending :=
  directivesFrom_yields location [] .current ds

/-! ### Members -/

/-- Members that yield what they are named for and the inputs that they own do so together, and none
of them is lost. -/
lemma members_yields {typeName : String} {nameOf : α → Name}
    {duplicate : String → SchemaPlace → SchemaPlace → DefinitionError}
    {member : α → Resolution (Option β)} {owned : β → List (InputOwner × InputSpec)}
    {name : β → String} {P : β → Prop} (as : List α)
    (hm : ∀ a ∈ as, Yields ctx (member a) fun st b st' =>
      (∀ x ∈ b, name x = (nameOf a).text ∧ P x) ∧ Adds (b.toList.flatMap owned) st st')
    (seen : List Name) :
    Yields ctx (members typeName nameOf duplicate member seen as) fun st bs st' =>
      (bs.map name).Nodup ∧ (∀ x ∈ bs, P x ∧ ∀ n ∈ seen, n.text ≠ name x) ∧
        Adds (bs.flatMap owned) st st' := by
  induction as generalizing seen with
  | nil =>
    rw [members]
    exact .pure fun st => ⟨by simp, by simp, .nil rfl⟩
  | cons a as ih =>
    have hm' := fun b hb => hm b (List.mem_cons_of_mem a hb)
    rw [members]
    refine .read_bind (.ite (fun _ => .place_bind fun _ => .report_bind (ih hm' seen)) fun _ => ?_)
    split
    · exact .place_bind fun _ => .place_bind fun _ => .report_bind (ih hm' seen)
    · rename_i hnew
      refine (hm a List.mem_cons_self).bind fun b => ?_
      refine (ih hm' (nameOf a :: seen)).bind fun bs => .pure ?_
      intro st₂ st₁ ⟨hnodup, hseen, hadds⟩ st₀ ⟨hb, hadd⟩
      refine ⟨?_, ?_, ?_⟩
      · cases b with
        | none => exact hnodup
        | some x =>
          obtain ⟨hx, -⟩ := hb x rfl
          rw [Option.toList_some, List.singleton_append, List.map_cons, List.nodup_cons]
          refine ⟨fun hmem => ?_, hnodup⟩
          obtain ⟨y, hy, hxy⟩ := List.mem_map.mp hmem
          exact (hseen y hy).2 (nameOf a) List.mem_cons_self (hx.symm.trans hxy.symm)
      · intro x hx
        rcases List.mem_append.mp hx with hx | hx
        · obtain ⟨hname, hP⟩ := hb x (Option.mem_toList.mp hx)
          refine ⟨hP, fun n hn heq => ?_⟩
          exact List.find?_eq_none.mp hnew n hn (by simp [heq, hname])
        · obtain ⟨hP, hne⟩ := hseen x hx
          exact ⟨hP, fun n hn => hne n (List.mem_cons_of_mem _ hn)⟩
      · rw [List.flatMap_append]
        exact hadd.append hadds

lemma input_yields (owner : InputOwner) (d : InputDefinition)
    (hd : ∀ v, d.default? = some v → v.IsProper) :
    Yields ctx (input owner d) fun st a st' =>
      (∀ x ∈ a, x.name = d.name.text ∧ True)
        ∧ Adds (a.toList.flatMap fun i => [(owner, i)]) st st' := by
  unfold input
  extract_lets location
  refine .discard_bind (directives_yields _ _) ((typeOfRef_yields d.type).bind fun t => ?_)
  split
  · exact .pure fun st st₀ h st₁ _ h' => by simp at h
  · rename_i type
    refine .kind_bind (.ite (fun _ => .place_bind fun _ => .report_bind (.pure_any none)) ?_)
    intro _
    cases hv : d.default? with
    | none =>
      refine .pure fun st st₀ h st₁ _ h' => ⟨by simp, ?_⟩
      exact ⟨by simp [defaulted, h.2, h'], by simp⟩
    | some v =>
      refine .place_bind fun q => ?_
      intro st hst
      refine ⟨⟨id, .refl _, id, ?_, fun _ => List.mem_cons_of_mem _⟩, ?_⟩
      · intro p hp
        rcases List.mem_cons.mp hp with rfl | hp
        · exact Or.inr (hd v hv)
        · exact Or.inl hp
      · intro _ st₀ h st₁ _ h'
        refine ⟨?_, ?_, ?_⟩
        · intro x hx
          cases hx
          exact ⟨rfl, trivial⟩
        · have hp : st.pending = st₁.pending := h.2.trans h'
          rw [← hp]
          rfl
        · intro p hp w hw
          cases List.mem_singleton.mp hp
          exact (Option.some.inj hw).symm

/-- Arguments and input fields alike: each is named for its owner. -/
lemma inputs_yields (typeName : String)
    (duplicate : String → SchemaPlace → SchemaPlace → DefinitionError)
    (owner : String → InputOwner) (ds : List InputDefinition)
    (hd : ∀ v ∈ ds.filterMap (·.default?), v.IsProper) :
    Yields ctx
      (members typeName (·.name) duplicate (fun d => input (owner d.name.text) d) [] ds)
      fun st is st' =>
        (is.map (·.name)).Nodup ∧ Adds (is.map fun i => (owner i.name, i)) st st' := by
  have hmem : ∀ d ∈ ds, Yields ctx (input (owner d.name.text) d) fun st a st' =>
      (∀ x ∈ a, x.name = d.name.text ∧ True)
        ∧ Adds (a.toList.flatMap fun i => [(owner i.name, i)]) st st' := by
    intro d hdmem
    have hv : ∀ v, d.default? = some v → v.IsProper := fun v hv =>
      hd v (List.mem_filterMap.mpr ⟨d, hdmem, hv⟩)
    refine (input_yields _ d hv).mono fun st a st' h => ⟨h.1, ?_⟩
    cases a with
    | none => exact h.2
    | some x =>
      have hx := (h.1 x rfl).1
      simpa [hx] using h.2
  refine (members_yields (P := fun _ => True) ds hmem []).mono fun st is st' h => ⟨h.1, ?_⟩
  rw [List.map_eq_flatMap]
  exact h.2.2

lemma field_yields (typeName : String) (d : FieldDefinition)
    (hd : ∀ v ∈ d.arguments.filterMap (·.default?), v.IsProper) :
    Yields ctx (field typeName d) fun st a st' =>
      (∀ f ∈ a, f.name = d.name.text ∧ (f.arguments.map (·.name)).Nodup)
        ∧ Adds (a.toList.flatMap (·.ownedInputs typeName)) st st' := by
  unfold field
  refine (directives_yields _ _).bind fun state => ?_
  refine (inputs_yields typeName _ (.argument typeName d.name.text) d.arguments hd).bind
    fun args => (typeOfRef_yields d.type).bind fun t => ?_
  split
  · exact .pure fun st st₁ h => by simp at h
  · rename_i type
    refine .kind_bind (.ite (fun _ => .place_bind fun _ => .report_bind (.pure_any none)) ?_)
    intro _
    refine .pure fun st st₃ h₃ st₂ h₂ st₁ h₁ => ⟨?_, ?_⟩
    · intro f hf
      cases hf
      exact ⟨rfl, h₂.1⟩
    · have hadd := h₂.2
      refine ⟨?_, ?_⟩
      · rw [h₃.2, hadd.pending, h₁]
        simp [FieldSpec.ownedInputs]
      · simpa [FieldSpec.ownedInputs] using hadd.placeholder

lemma fields_yields (typeName : String) (ds : List FieldDefinition)
    (hd : ∀ v ∈ ds.flatMap fun f => f.arguments.filterMap (·.default?), v.IsProper) :
    Yields ctx (fields typeName ds) fun st fs st' =>
      (fs.map (·.name)).Nodup ∧ (∀ f ∈ fs, (f.arguments.map (·.name)).Nodup)
        ∧ Adds (fs.flatMap (·.ownedInputs typeName)) st st' := by
  refine (members_yields ds (fun d hmem => field_yields typeName d ?_) []).mono ?_
  · exact fun v hv => hd v (List.mem_flatMap.mpr ⟨d, hmem, hv⟩)
  · exact fun st fs st' h => ⟨h.1, fun f hf => (h.2.1 f hf).1, h.2.2⟩

lemma enumValues_yields (typeName : String) (ds : List EnumValueDefinition) :
    Yields ctx (enumValues typeName ds) fun st _ st' => Adds [] st st' := by
  have hmem : ∀ d ∈ ds, Yields ctx (enumValue d) fun st a st' =>
      (∀ x ∈ a, x.name = d.name.text ∧ True)
        ∧ Adds (a.toList.flatMap fun _ => []) st st' := by
    intro d _
    unfold enumValue
    refine (directives_yields _ _).bind fun state => .pure fun st st₁ h => ⟨?_, .nil h⟩
    intro x hx
    cases hx
    exact ⟨rfl, trivial⟩
  refine (members_yields (P := fun _ => True) ds hmem []).mono fun st vs st' h => ?_
  have hnil : (vs.flatMap fun _ => ([] : List (InputOwner × InputSpec))) = [] :=
    List.flatMap_eq_nil_iff.mpr fun _ _ => rfl
  exact hnil ▸ h.2.2

/-! ### Types -/

lemma requireMember_yields (name : Name) (kind : MemberKind) (ds : List α) :
    Yields ctx (requireMember name kind ds) fun st _ st' => st'.pending = st.pending := by
  unfold requireMember
  refine .ite (fun _ => .place_bind fun _ => ?_) fun _ => .pure fun _ => rfl
  exact (Yields.report _).mono fun _ _ _ h => h.elim

lemma body_yields (name : Name) (ds : List Directive) (b : TypeBody)
    (hd : ∀ v ∈ b.defaults, v.IsProper) :
    Yields ctx (body name ds b) fun st nb st' =>
      nb.HasDistinctNames ∧ Adds (nb.ownedInputs name.text) st st' := by
  cases b with
  | scalar =>
    refine .discard_bind (directives_yields _ _) (.pure fun st st₁ _ h => ⟨trivial, .nil h⟩)
  | object members =>
    refine .discard_bind (directives_yields _ _) ((requireMember_yields _ _ _).bind fun _ => ?_)
    refine (fields_yields name.text members hd).bind fun fs => .pure ?_
    intro st st₃ h₃ st₂ h₂ st₁ _ h₁
    exact ⟨⟨h₃.1, h₃.2.1⟩, (Adds.nil (h₂.trans h₁)).append h₃.2.2⟩
  | enum values =>
    refine .discard_bind (directives_yields _ _) ((requireMember_yields _ _ _).bind fun _ => ?_)
    refine (enumValues_yields name.text values).bind fun vs => .pure ?_
    intro st st₃ h₃ st₂ h₂ st₁ _ h₁
    exact ⟨trivial, (Adds.nil (h₂.trans h₁)).append h₃⟩
  | input members =>
    refine .discard_bind (directives_yields _ _) ((requireMember_yields _ _ _).bind fun _ => ?_)
    refine (inputs_yields name.text _ (.inputField name.text) members hd).bind fun fs => .pure ?_
    intro st st₃ h₃ st₂ h₂ st₁ _ h₁
    exact ⟨h₃.1, (Adds.nil (h₂.trans h₁)).append h₃.2⟩

/-- A type has the name of its definition and members with names of their own, and its defaults have
come to wait. -/
lemma type_yields (d : TypeDefinition) (hd : ∀ v ∈ d.body.defaults, v.IsProper) :
    Yields ctx (type d) fun st t st' =>
      (t.name = d.name.text ∧ t.body.HasDistinctNames) ∧ Adds t.ownedInputs st st' := by
  refine (body_yields d.name d.directives d.body hd).bind fun b => .pure ?_
  exact fun st st₁ h => ⟨⟨rfl, h.1⟩, h.2⟩

/-- The types of a list of definitions, in their order. -/
lemma types_yields (ds : List TypeDefinition) (hd : ∀ d ∈ ds, ∀ v ∈ d.body.defaults, v.IsProper) :
    Yields ctx (ds.mapM type) fun st ts st' =>
      (ts.map (·.name) = ds.map (·.name.text) ∧ ∀ t ∈ ts, t.body.HasDistinctNames)
        ∧ Adds (ts.flatMap (·.ownedInputs)) st st' := by
  induction ds with
  | nil => exact .pure fun st => ⟨⟨rfl, by simp⟩, .nil rfl⟩
  | cons d ds ih =>
    rw [List.mapM_cons]
    refine (type_yields d (hd d List.mem_cons_self)).bind fun t => ?_
    refine (ih fun d h => hd d (List.mem_cons_of_mem _ h)).bind fun ts => .pure ?_
    intro st st₂ h₂ st₁ h₁
    refine ⟨⟨by simp [h₁.1.1, h₂.1.1], ?_⟩, ?_⟩
    · intro t' ht'
      rcases List.mem_cons.mp ht' with rfl | ht'
      · exact h₁.1.2
      · exact h₂.1.2 t' ht'
    · rw [List.flatMap_cons]
      exact h₁.2.append h₂.2

end Resolution

end GraphQL
