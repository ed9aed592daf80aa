import GraphQL.Proofs.Document.Unplaced
import GraphQL.Proofs.Lists
import GraphQL.Proofs.Schema.Build

/-!
Definitions that nothing is wrong with.

Resolution reports nothing about a definition exactly if it obeys the rules: its members have names of
their own, the types that it refers to are known and may stand where they do, and so do its directives.
Where a definition is written does not count for that.
-/

namespace GraphQL

/-- What a definition is judged by. -/
structure DefinitionRules where
  allowsReserved : Bool
  /-- The kind of a type, by its name. -/
  kind? : String → Option NamedTypeKind
  /-- Where a directive may stand, by its name. -/
  locations? : String → Option (List DirectiveLocation)

def ResolutionContext.rules (ctx : ResolutionContext) : DefinitionRules where
  allowsReserved := ctx.document.isBuiltin
  kind? name := ctx.kinds.lookup name
  locations? name := (ctx.directives.map fun spec => (spec.name, spec.locations)).lookup name

/-! ### Obedience -/

/-- A literal that can say why something is deprecated. -/
def Literal.isReason : Literal → Bool
  | .scalar .string .. | .null _ => true
  | _ => false

def Argument.GivesReason (a : Argument) : Prop := a.name.text = "reason" ∧ a.value.isReason = true

@[mk_iff]
structure Directive.Obeys (rules : DefinitionRules) (location : DirectiveLocation) (d : Directive) :
    Prop where
  placed : ∃ locations, rules.locations? d.name.text = some locations ∧ location ∈ locations
  reason : d.name.text = "deprecated" → ∀ a ∈ d.arguments, a.GivesReason

namespace DefinitionRules

variable {α : Type} {rules : DefinitionRules} {location : DirectiveLocation}

/-- A name may be given to a member: reserved ones are for documents of our own. -/
def Permits (rules : DefinitionRules) (n : Name) : Prop :=
  rules.allowsReserved = true ∨ n.isReserved = false

/-- Directives obey if no two of them are the same one and each of them obeys. -/
@[mk_iff directives_iff]
structure Directives (rules : DefinitionRules) (location : DirectiveLocation) (ds : List Directive) :
    Prop where
  each : ∀ d ∈ ds, d.Obeys rules location
  distinct : (ds.map (·.name.text)).Nodup

/-- Members obey if they have names of their own that may stand there, and `C` holds of each of them. -/
@[mk_iff members_iff]
structure Members (rules : DefinitionRules) (nameOf : α → Name) (C : α → Prop) (as : List α) : Prop where
  each : ∀ a ∈ as, rules.Permits (nameOf a) ∧ C a
  distinct : (as.map fun a => (nameOf a).text).Nodup

lemma directives_cons {d : Directive} {ds : List Directive} : rules.Directives location (d :: ds) ↔
    d.Obeys rules location ∧ rules.Directives location ds ∧ ∀ e ∈ ds, e.name.text ≠ d.name.text := by
  rw [directives_iff, directives_iff, List.forall_mem_cons, List.map_cons, List.nodup_cons, List.mem_map]
  push Not
  tauto

/-- One more directive, behind others that are not the same one. -/
lemma directives_cons_fresh {d : Directive} {ds : List Directive} {seen : List String}
    (hd : d.name.text ∉ seen) :
    (rules.Directives location (d :: ds) ∧ ∀ e ∈ d :: ds, e.name.text ∉ seen) ↔
      d.Obeys rules location ∧ rules.Directives location ds ∧
        ∀ e ∈ ds, e.name.text ∉ d.name.text :: seen := by
  rw [directives_cons, List.forall_mem_cons]
  simp only [List.mem_cons, not_or, forall_and]
  tauto

lemma members_cons {nameOf : α → Name} {C : α → Prop} {a : α} {as : List α} :
    rules.Members nameOf C (a :: as) ↔ (rules.Permits (nameOf a) ∧ C a) ∧
      rules.Members nameOf C as ∧ ∀ b ∈ as, (nameOf b).text ≠ (nameOf a).text := by
  rw [members_iff, members_iff, List.forall_mem_cons, List.map_cons, List.nodup_cons, List.mem_map]
  push Not
  tauto

end DefinitionRules

/-- Where the directives of an argument or input field stand. -/
def InputOwner.location : InputOwner → DirectiveLocation
  | argument .. => .argumentDefinition
  | inputField .. => .inputFieldDefinition

@[mk_iff]
structure InputDefinition.Obeys (rules : DefinitionRules) (location : DirectiveLocation)
    (d : InputDefinition) : Prop where
  directives : rules.Directives location d.directives
  type : ∃ k, rules.kind? d.type.innermost.text = some k ∧ k ≠ .object

@[mk_iff]
structure FieldDefinition.Obeys (rules : DefinitionRules) (d : FieldDefinition) : Prop where
  directives : rules.Directives .fieldDefinition d.directives
  arguments : rules.Members InputDefinition.name (·.Obeys rules .argumentDefinition) d.arguments
  type : ∃ k, rules.kind? d.type.innermost.text = some k ∧ k ≠ .inputObject

def EnumValueDefinition.Obeys (rules : DefinitionRules) (d : EnumValueDefinition) : Prop :=
  rules.Directives .enumValue d.directives

namespace TypeBody

/-- Where the directives of a type stand. -/
def location : TypeBody → DirectiveLocation
  | scalar => .scalar
  | object _ => .object
  | enum _ => .enum
  | input _ => .inputObject

def Obeys (rules : DefinitionRules) : TypeBody → Prop
  | scalar => True
  | object fields => fields ≠ [] ∧ rules.Members FieldDefinition.name (·.Obeys rules) fields
  | enum values => values ≠ [] ∧ rules.Members EnumValueDefinition.name (·.Obeys rules) values
  | input fields =>
    fields ≠ [] ∧ rules.Members InputDefinition.name (·.Obeys rules .inputFieldDefinition) fields

end TypeBody

@[mk_iff]
structure TypeDefinition.Obeys (rules : DefinitionRules) (d : TypeDefinition) : Prop where
  directives : rules.Directives d.body.location d.directives
  body : d.body.Obeys rules

/-! ### Places do not count -/

section Unplaced

variable {rules : DefinitionRules} {location : DirectiveLocation}

lemma Literal.isReason_unplaced (v : Literal) : v.unplaced.isReason = v.isReason := by
  cases v with
  | scalar kind text p => cases kind <;> rfl
  | _ => rfl

lemma Directive.obeys_unplaced {d : Directive} :
    d.unplaced.Obeys rules location ↔ d.Obeys rules location := by
  simp [Directive.obeys_iff, Directive.unplaced, Argument.GivesReason, Argument.unplaced,
    Literal.isReason_unplaced]

namespace DefinitionRules

lemma directives_unplaced {ds : List Directive} :
    rules.Directives location (ds.map Directive.unplaced) ↔ rules.Directives location ds := by
  have hname (d : Directive) : d.unplaced.name.text = d.name.text := rfl
  simp [directives_iff, Directive.obeys_unplaced, hname, Function.comp_def]

lemma members_unplaced {α : Type} {nameOf : α → Name} {C : α → Prop} {as : List α}
    (unplaced : α → α) (hname : ∀ a, nameOf (unplaced a) = (nameOf a).unplaced)
    (hC : ∀ a, C (unplaced a) ↔ C a) :
    rules.Members nameOf C (as.map unplaced) ↔ rules.Members nameOf C as := by
  simp [members_iff, hname, hC, Permits, Name.isReserved, Function.comp_def]

end DefinitionRules

open DefinitionRules (directives_unplaced members_unplaced)

lemma InputDefinition.obeys_unplaced {d : InputDefinition} :
    d.unplaced.Obeys rules location ↔ d.Obeys rules location := by
  rw [obeys_iff, obeys_iff, unplaced, directives_unplaced, TypeRef.innermost_unplaced]

lemma FieldDefinition.obeys_unplaced {d : FieldDefinition} : d.unplaced.Obeys rules ↔ d.Obeys rules := by
  rw [obeys_iff, obeys_iff, unplaced, directives_unplaced, TypeRef.innermost_unplaced,
    members_unplaced InputDefinition.unplaced (fun _ => rfl) fun _ => InputDefinition.obeys_unplaced]

lemma EnumValueDefinition.obeys_unplaced {d : EnumValueDefinition} :
    d.unplaced.Obeys rules ↔ d.Obeys rules :=
  directives_unplaced

lemma TypeBody.obeys_unplaced {b : TypeBody} : b.unplaced.Obeys rules ↔ b.Obeys rules := by
  cases b with
  | scalar => rfl
  | object fields =>
    rw [unplaced, Obeys, Obeys, ne_eq, List.map_eq_nil_iff,
      members_unplaced FieldDefinition.unplaced (fun _ => rfl) fun _ => FieldDefinition.obeys_unplaced]
  | enum values =>
    rw [unplaced, Obeys, Obeys, ne_eq, List.map_eq_nil_iff,
      members_unplaced EnumValueDefinition.unplaced (fun _ => rfl) fun _ =>
        EnumValueDefinition.obeys_unplaced]
  | input fields =>
    rw [unplaced, Obeys, Obeys, ne_eq, List.map_eq_nil_iff,
      members_unplaced InputDefinition.unplaced (fun _ => rfl) fun _ => InputDefinition.obeys_unplaced]

lemma TypeDefinition.obeys_unplaced {d : TypeDefinition} : d.unplaced.Obeys rules ↔ d.Obeys rules := by
  have hlocation : d.body.unplaced.location = d.body.location := by cases d.body <;> rfl
  rw [obeys_iff, obeys_iff, unplaced, hlocation, directives_unplaced, TypeBody.obeys_unplaced]

end Unplaced

/-! ### Steps -/

namespace Resolution

variable {α β : Type} {ctx : ResolutionContext} {st : ResolutionState}

/-- From a ready state a step leads to a ready one, and it reports nothing exactly if `C` holds. -/
def Passes (ctx : ResolutionContext) (m : Resolution α) (C : Prop) : Prop :=
  ∀ st, Ready ctx st → Ready ctx (m ctx st).2 ∧ ((m ctx st).2.errors = [] ↔ st.errors = [] ∧ C)

namespace Passes

variable {m : Resolution α} {C D : Prop}

lemma congr (hm : Passes ctx m C) (h : C ↔ D) : Passes ctx m D := fun st hst =>
  ⟨(hm st hst).1, (hm st hst).2.trans (and_congr_right' h)⟩

lemma pure (a : α) : Passes ctx (Pure.pure a) True := fun _ hst => ⟨hst, (iff_of_eq (and_true _)).symm⟩

lemma bind {f : α → Resolution β} (hm : Passes ctx m C) (hf : ∀ a, Passes ctx (f a) D) :
    Passes ctx (m >>= f) (C ∧ D) := by
  intro st hst
  obtain ⟨hready, hC⟩ := hm st hst
  obtain ⟨hready', hD⟩ := hf (m ctx st).1 (m ctx st).2 hready
  exact ⟨hready', hD.trans (by rw [hC, and_assoc])⟩

lemma ite {p : Prop} [Decidable p] {n : Resolution α} (hm : p → Passes ctx m C)
    (hn : ¬p → Passes ctx n C) : Passes ctx (if p then m else n) C := by
  split
  · exact hm ‹_›
  · exact hn ‹_›

/-- Behind a report nothing passes. -/
lemma report_bind {e : DefinitionError} (hm : Passes ctx m C) (hD : ¬ D) :
    Passes ctx (report e >>= fun _ => m) D := by
  intro st hst
  obtain ⟨hready, hC⟩ := hm { st with errors := e :: st.errors } ⟨hst.wellFormed, hst.known⟩
  exact ⟨hready, ⟨fun h => absurd (hC.mp h).1 (List.cons_ne_nil _ _), fun h => absurd h.2 hD⟩⟩

lemma read_bind {f : ResolutionContext → Resolution α} (hf : Passes ctx (f ctx) C) :
    Passes ctx (read >>= f) C :=
  fun st hst => hf st hst

lemma place_bind {p : Pos} {f : SchemaPlace → Resolution α} (hf : ∀ q, Passes ctx (f q) C) :
    Passes ctx (place p >>= f) C :=
  fun st hst => hf (ctx.document.place p) st hst

lemma kind_bind {name : String} {f : Option NamedTypeKind → Resolution α}
    (hf : Passes ctx (f (ctx.kinds.lookup name)) C) : Passes ctx (kind? name >>= f) C :=
  fun st hst => hf st hst

lemma discard_bind {n : Resolution β} {f : Unit → Resolution α} (hn : Passes ctx n C)
    (hf : Passes ctx (f ()) D) : Passes ctx (discard n >>= f) (C ∧ D) :=
  (show Passes ctx (discard n) C from hn).bind fun _ => hf

lemma mapM {f : β → Resolution α} {C : β → Prop} {bs : List β} (hf : ∀ b ∈ bs, Passes ctx (f b) (C b)) :
    Passes ctx (bs.mapM f) (∀ b ∈ bs, C b) := by
  induction bs with
  | nil => exact (pure []).congr (by simp)
  | cons b bs ih =>
    rw [List.mapM_cons]
    refine ((hf b List.mem_cons_self).bind fun a => ?_).congr List.forall_mem_cons.symm
    have ih := ih fun b' hb' => hf b' (List.mem_cons_of_mem b hb')
    exact (ih.bind fun as => pure _).congr (iff_of_eq (and_true _))

end Passes

/-! ### Types as they are written -/

lemma typeOfRef_errors {t : TypeRef} (hst : Ready ctx st)
    (hkind : (ctx.kinds.lookup t.innermost.text).isSome) :
    (typeOfRef t ctx st).2.errors = st.errors ∧ (typeOfRef t ctx st).1.isSome := by
  induction t with
  | named n =>
    obtain ⟨k, hk⟩ := Option.isSome_iff_exists.mp hkind
    have hrun : typeOfRef (.named n) ctx st = (st.registry.named? n.text, st) := by
      rw [typeOfRef, kind?_bind, show ctx.kinds.lookup n.text = some k from hk]
      rfl
    rw [hrun]
    exact ⟨rfl, hst.known n.text hkind⟩
  | list t p ih =>
    obtain ⟨herrors, hsome⟩ := ih hkind
    obtain ⟨e, he⟩ := Option.isSome_iff_exists.mp hsome
    rw [typeOfRef, bind_run, he]
    exact ⟨herrors, rfl⟩
  | nonNull t p ih =>
    obtain ⟨herrors, hsome⟩ := ih hkind
    exact ⟨herrors, by rw [← Option.isSome_map] at hsome; exact hsome⟩

/-- A type that is known is there to go on with, and otherwise something is reported. -/
lemma Passes.typeOfRef_bind {t : TypeRef} {f : Option TypeId → Resolution α} {C D : Prop}
    (hnone : Passes ctx (f none) D) (hsome : ∀ e, Passes ctx (f (some e)) C) :
    Passes ctx (typeOfRef t >>= f) ((ctx.kinds.lookup t.innermost.text).isSome ∧ C) := by
  intro st hst
  obtain ⟨hg, -, -, hknown⟩ := typeOfRef_spec t hst
  rw [bind_run]
  cases hkind : (ctx.kinds.lookup t.innermost.text).isSome with
  | true =>
    obtain ⟨herrors, hthere⟩ := typeOfRef_errors hst hkind
    obtain ⟨e, he⟩ := Option.isSome_iff_exists.mp hthere
    obtain ⟨hready, hC⟩ := hsome e _ (hg.ready hst)
    rw [he]
    exact ⟨hready, hC.trans (by rw [herrors]; simp)⟩
  | false =>
    have hreported : (typeOfRef t ctx st).2.errors ≠ [] := fun h => by simpa [hkind] using (hknown h).2
    cases (typeOfRef t ctx st).1 with
    | none =>
      obtain ⟨hready, hD⟩ := hnone _ (hg.ready hst)
      exact ⟨hready, hD.trans (by simp [hreported])⟩
    | some e =>
      obtain ⟨hready, hC⟩ := hsome e _ (hg.ready hst)
      exact ⟨hready, hC.trans (by simp [hreported])⟩

/-! ### Directives -/

lemma deprecationReason_passes (d : Directive) (reason : Option String) (as : List Argument) :
    Passes ctx (deprecationReason d reason as) (∀ a ∈ as, a.GivesReason) := by
  induction as generalizing reason with
  | nil => exact (Passes.pure reason).congr (by simp)
  | cons a as ih =>
    have hgood (h : a.GivesReason) (reason : Option String) :
        Passes ctx (deprecationReason d reason as) (∀ b ∈ a :: as, b.GivesReason) :=
      (ih reason).congr (by rw [List.forall_mem_cons, and_iff_right h])
    have hbad (h : ¬ a.GivesReason) : ¬∀ b ∈ a :: as, b.GivesReason :=
      fun hall => h (hall a List.mem_cons_self)
    rw [deprecationReason]
    refine .ite (fun hname => ?_) fun hname => ?_
    · have hname : a.name.text = "reason" := by simpa using hname
      split
      · rename_i hvalue
        exact hgood ⟨hname, by rw [hvalue]; rfl⟩ _
      · rename_i hvalue
        exact hgood ⟨hname, by rw [hvalue]; rfl⟩ _
      · rename_i hstring hnull
        refine .place_bind fun _ => .report_bind (ih reason) (hbad fun h => ?_)
        have hvalue := h.2
        unfold Literal.isReason at hvalue
        split at hvalue
        · exact hstring _ _ ‹_›
        · exact hnull _ ‹_›
        · simp at hvalue
    · exact .place_bind fun _ => .report_bind (ih reason) (hbad fun h => by simp [h.1] at hname)

lemma directivesFrom_passes (location : DirectiveLocation) (seen : List String) (state : Deprecation)
    (ds : List Directive) :
    Passes ctx (directivesFrom location seen state ds)
      (ctx.rules.Directives location ds ∧ ∀ d ∈ ds, d.name.text ∉ seen) := by
  induction ds generalizing seen state with
  | nil => exact (Passes.pure state).congr (by simp [DefinitionRules.directives_iff])
  | cons d ds ih =>
    rw [directivesFrom]
    refine .read_bind ?_
    have hlocations : ctx.rules.locations? d.name.text
        = (ctx.directives.find? fun spec => spec.name == d.name.text).map (·.locations) :=
      (find?_map_eq_lookup ctx.directives _).symm
    cases hspec : ctx.directives.find? fun spec => spec.name == d.name.text with
    | none =>
      refine .place_bind fun _ => .report_bind (ih seen state) fun h => ?_
      obtain ⟨locations, heq, -⟩ := (h.1.each d List.mem_cons_self).placed
      simp [hlocations, hspec] at heq
    | some spec =>
      have hplaced : (∃ locations, ctx.rules.locations? d.name.text = some locations ∧ location ∈ locations)
          ↔ location ∈ spec.locations := by
        simp [hlocations, hspec]
      refine .ite (fun hlocation => ?_) fun hlocation => .ite (fun hseen => ?_) fun hseen => ?_
      · refine .place_bind fun _ => .report_bind (ih seen state) fun h => ?_
        have := hplaced.mp (h.1.each d List.mem_cons_self).placed
        simp [this] at hlocation
      · refine .place_bind fun _ => .report_bind (ih seen state) fun h => ?_
        exact h.2 d List.mem_cons_self (by simpa using hseen)
      · have hlocation : location ∈ spec.locations := by simpa using hlocation
        have hseen : d.name.text ∉ seen := by simpa using hseen
        rw [DefinitionRules.directives_cons_fresh hseen, Directive.obeys_iff,
          and_iff_right (hplaced.mpr hlocation)]
        refine .ite (fun hname => ?_) fun hname => ?_
        · have hname : d.name.text = "deprecated" := by simpa using hname
          exact ((deprecationReason_passes d _ _).congr (imp_iff_right hname).symm).bind fun _ => ih _ _
        · have hname : d.name.text ≠ "deprecated" := by simpa using hname
          exact (ih _ _).congr (and_iff_right fun h => absurd h hname).symm

lemma directives_passes (location : DirectiveLocation) (ds : List Directive) :
    Passes ctx (directives location ds) (ctx.rules.Directives location ds) :=
  (directivesFrom_passes location [] .current ds).congr (by simp)

/-! ### Members -/

lemma members_passes {typeName : String} {nameOf : α → Name}
    {duplicate : String → SchemaPlace → SchemaPlace → DefinitionError}
    {member : α → Resolution (Option β)} {C : α → Prop} {as : List α}
    (hm : ∀ a ∈ as, Passes ctx (member a) (C a)) (seen : List Name) :
    Passes ctx (members typeName nameOf duplicate member seen as)
      (ctx.rules.Members nameOf C as ∧ ∀ a ∈ as, ∀ n ∈ seen, n.text ≠ (nameOf a).text) := by
  induction as generalizing seen with
  | nil => exact (Passes.pure []).congr (by simp [DefinitionRules.members_iff])
  | cons a as ih =>
    have ih := ih fun b hb => hm b (List.mem_cons_of_mem a hb)
    rw [members]
    refine .read_bind (.ite (fun hname => ?_) fun hname => ?_)
    · refine .place_bind fun _ => .report_bind (ih seen) fun h => ?_
      have hpermitted := (h.1.each a List.mem_cons_self).1
      simp only [Bool.and_eq_true, Bool.not_eq_true'] at hname
      simp [DefinitionRules.Permits, ResolutionContext.rules, hname] at hpermitted
    · have hpermitted : ctx.rules.Permits (nameOf a) := by
        cases hbuiltin : ctx.document.isBuiltin with
        | true => exact .inl hbuiltin
        | false => exact .inr (by simpa [hbuiltin] using hname)
      split
      · rename_i n hfind
        refine .place_bind fun _ => .place_bind fun _ => .report_bind (ih seen) fun h => ?_
        have hname : n.text = (nameOf a).text := by simpa using List.find?_some hfind
        exact h.2 a List.mem_cons_self n (List.mem_of_find?_eq_some hfind) hname
      · rename_i hnew
        have hnew : ∀ n ∈ seen, n.text ≠ (nameOf a).text := fun n hn => by
          simpa using List.find?_eq_none.mp hnew n hn
        refine ((hm a List.mem_cons_self).bind fun b => (ih _).bind fun bs => .pure _).congr ?_
        rw [DefinitionRules.members_cons, List.forall_mem_cons]
        have hcons : (∀ b ∈ as, ∀ n ∈ nameOf a :: seen, n.text ≠ (nameOf b).text) ↔
            (∀ b ∈ as, (nameOf b).text ≠ (nameOf a).text) ∧
              ∀ b ∈ as, ∀ n ∈ seen, n.text ≠ (nameOf b).text := by
          simp only [List.forall_mem_cons, forall_and, ne_comm]
        rw [hcons]
        tauto

/-- A name is known, and not of a kind that may not stand there. -/
lemma kind_iff {name : String} {k : NamedTypeKind} :
    ((ctx.kinds.lookup name).isSome ∧ ctx.kinds.lookup name ≠ some k)
      ↔ ∃ k', ctx.rules.kind? name = some k' ∧ k' ≠ k := by
  show _ ↔ ∃ k', ctx.kinds.lookup name = some k' ∧ k' ≠ k
  cases ctx.kinds.lookup name <;> simp

lemma input_passes (owner : InputOwner) (d : InputDefinition) :
    Passes ctx (input owner d) (d.Obeys ctx.rules owner.location) := by
  rw [InputDefinition.obeys_iff, ← kind_iff]
  unfold input
  extract_lets location
  refine (directives_passes _ _).discard_bind (.typeOfRef_bind (.pure none) fun e => ?_)
  refine .kind_bind (.ite (fun hkind => ?_) fun hkind => ?_)
  · exact .place_bind fun _ => .report_bind (.pure none) (not_not_intro hkind)
  · split
    · exact (Passes.pure _).congr (iff_of_true trivial hkind)
    · exact .place_bind fun _ st hst => ⟨⟨hst.wellFormed, hst.known⟩, (and_iff_left hkind).symm⟩

lemma inputs_passes (typeName : String)
    (duplicate : String → SchemaPlace → SchemaPlace → DefinitionError) (owner : String → InputOwner)
    {location : DirectiveLocation} (howner : ∀ name, (owner name).location = location)
    (ds : List InputDefinition) :
    Passes ctx (members typeName (·.name) duplicate (fun d => input (owner d.name.text) d) [] ds)
      (ctx.rules.Members InputDefinition.name (·.Obeys ctx.rules location) ds) :=
  (members_passes (fun d _ => howner d.name.text ▸ input_passes _ d) []).congr (by simp)

lemma field_passes (typeName : String) (d : FieldDefinition) :
    Passes ctx (field typeName d) (d.Obeys ctx.rules) := by
  rw [FieldDefinition.obeys_iff, ← kind_iff]
  unfold field
  refine (directives_passes _ _).bind fun state => ?_
  have hargs : Passes ctx (arguments typeName d.name.text d.arguments) _ :=
    inputs_passes typeName _ (.argument typeName d.name.text) (fun _ => rfl) d.arguments
  refine hargs.bind fun args => ?_
  refine .typeOfRef_bind (.pure none) fun e => ?_
  refine .kind_bind (.ite (fun hkind => ?_) fun hkind => ?_)
  · exact .place_bind fun _ => .report_bind (.pure none) (not_not_intro hkind)
  · exact (Passes.pure _).congr (iff_of_true trivial hkind)

lemma enumValue_passes (d : EnumValueDefinition) : Passes ctx (enumValue d) (d.Obeys ctx.rules) :=
  ((directives_passes _ _).bind fun _ => .pure _).congr (iff_of_eq (and_true _))

/-! ### Types -/

lemma requireMember_passes (name : Name) (kind : MemberKind) (ds : List α) :
    Passes ctx (requireMember name kind ds) (ds ≠ []) := by
  unfold requireMember
  refine .ite (fun hempty => ?_) fun hempty => ?_
  · exact .place_bind fun _ => (Passes.pure ()).report_bind (by simpa using hempty)
  · exact (Passes.pure ()).congr (iff_of_true trivial (by simpa using hempty))

lemma body_passes (name : Name) (ds : List Directive) (b : TypeBody) :
    Passes ctx (body name ds b) (ctx.rules.Directives b.location ds ∧ b.Obeys ctx.rules) := by
  have hmembers {α β : Type} {kind : MemberKind} {as : List α} {m : Resolution β}
      {make : β → NamedTypeBody} {C : Prop} (hm : Passes ctx m C) :
      Passes ctx (requireMember name kind as >>= fun _ => m >>= fun bs => pure (make bs)) (as ≠ [] ∧ C) :=
    (requireMember_passes name kind as).bind fun _ =>
      (hm.bind fun bs => .pure _).congr (iff_of_eq (and_true _))
  cases b with
  | scalar => exact (directives_passes _ _).discard_bind (.pure _)
  | object fields =>
    refine (directives_passes _ _).discard_bind (hmembers ?_)
    exact (members_passes (fun d _ => field_passes name.text d) []).congr (by simp)
  | enum values =>
    refine (directives_passes _ _).discard_bind (hmembers ?_)
    exact (members_passes (fun d _ => enumValue_passes d) []).congr (by simp)
  | input fields =>
    exact (directives_passes _ _).discard_bind (hmembers
      (inputs_passes name.text _ (.inputField name.text) (fun _ => rfl) fields))

/-- **Definitions without faults**: nothing is reported about a definition exactly if it obeys the rules. -/
theorem type_passes (d : TypeDefinition) : Passes ctx (type d) (d.Obeys ctx.rules) := by
  rw [TypeDefinition.obeys_iff]
  exact ((body_passes d.name d.directives d.body).bind fun _ => .pure _).congr (iff_of_eq (and_true _))

end Resolution

end GraphQL
