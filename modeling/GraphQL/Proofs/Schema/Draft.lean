import GraphQL.Proofs.Schema.DefaultOrder
import GraphQL.Proofs.Schema.Loaded

/-!
Schemas under construction.

Also where something was reported, all names are told apart: a type whose name was there before ends the
construction, and a member whose name was there before is left out. Names have no points in them, so that
a type and a field can be written with a point in between.
-/

namespace GraphQL

namespace Resolution

variable {α β : Type}

/-- Whatever comes up, a step gives what `P` says. -/
def Always (m : Resolution α) (P : α → Prop) : Prop := ∀ ctx st, P (m ctx st).1

namespace Always

variable {m : Resolution α} {P : α → Prop} {Q : β → Prop}

lemma pure {a : α} (h : P a) : Always (Pure.pure a) P := fun _ _ => h

lemma any (m : Resolution α) : Always m fun _ => True := fun _ _ => trivial

lemma bind {f : α → Resolution β} (hm : Always m P) (hf : ∀ a, P a → Always (f a) Q) :
    Always (m >>= f) Q :=
  fun ctx st => hf _ (hm ctx st) ctx (m ctx st).2

/-- What comes behind a step does not depend on it. -/
lemma behind {f : α → Resolution β} (hf : ∀ a, Always (f a) Q) : Always (m >>= f) Q :=
  (any m).bind fun a _ => hf a

lemma ite {p : Prop} [Decidable p] {n : Resolution α} (hm : Always m P) (hn : Always n P) :
    Always (if p then m else n) P := by
  split
  · exact hm
  · exact hn

lemma mapM {f : β → Resolution α} {bs : List β} {R : β → α → Prop} (hf : ∀ b ∈ bs, Always (f b) (R b)) :
    Always (bs.mapM f) (List.Forall₂ R bs) := by
  induction bs with
  | nil => exact pure .nil
  | cons b bs ih =>
    rw [List.mapM_cons]
    refine (hf b List.mem_cons_self).bind fun a ha => ?_
    exact (ih fun b' hb' => hf b' (List.mem_cons_of_mem b hb')).bind fun as has => pure (.cons ha has)

end Always

/-- Members that are named for what they are written as have names of their own. -/
lemma members_always {typeName : String} {nameOf : α → Name}
    {duplicate : String → SchemaPlace → SchemaPlace → DefinitionError}
    {member : α → Resolution (Option β)} {name : β → String} {as : List α}
    (hm : ∀ a ∈ as, Always (member a) fun b => ∀ x ∈ b, name x = (nameOf a).text) (seen : List Name) :
    Always (members typeName nameOf duplicate member seen as) fun bs =>
      (bs.map name).Nodup ∧ ∀ x ∈ bs, ∀ n ∈ seen, n.text ≠ name x := by
  induction as generalizing seen with
  | nil =>
    rw [members]
    exact .pure (by simp)
  | cons a as ih =>
    have ih := ih fun b hb => hm b (List.mem_cons_of_mem a hb)
    rw [members]
    refine .behind fun ctx => .ite (.behind fun _ => .behind fun _ => ih seen) ?_
    split
    · exact .behind fun _ => .behind fun _ => .behind fun _ => ih seen
    · rename_i hnew
      refine (hm a List.mem_cons_self).bind fun b hb => (ih (nameOf a :: seen)).bind fun bs hbs => ?_
      obtain ⟨hnodup, hseen⟩ := hbs
      refine .pure ⟨?_, fun x hx n hn => ?_⟩
      · cases b with
        | none => exact hnodup
        | some x =>
          rw [Option.toList_some, List.singleton_append, List.map_cons, List.nodup_cons]
          refine ⟨fun hmem => ?_, hnodup⟩
          obtain ⟨y, hy, hxy⟩ := List.mem_map.mp hmem
          exact hseen y hy (nameOf a) List.mem_cons_self ((hb x rfl).symm.trans hxy.symm)
      · rcases List.mem_append.mp hx with hx | hx
        · have hname := hb x (Option.mem_toList.mp hx)
          intro heq
          exact List.find?_eq_none.mp hnew n hn (by simp [heq, hname])
        · exact hseen x hx n (List.mem_cons_of_mem _ hn)

lemma input_always (owner : InputOwner) (d : InputDefinition) :
    Always (input owner d) fun a => ∀ x ∈ a, x.name = d.name.text := by
  unfold input
  extract_lets location
  refine .behind fun _ => .behind fun t => ?_
  split
  · exact .pure (by simp)
  · refine .behind fun _ => .ite (.behind fun _ => .behind fun _ => .pure (by simp)) ?_
    split
    · exact .pure (by simp)
    · exact .behind fun _ => .behind fun _ => .pure (by simp)

/-- A type has the name of its definition, and input fields with names of their own. -/
lemma type_always (d : TypeDefinition) : Always (type d) fun t =>
    t.name = d.name.text ∧ ∀ fields, t.inputFields? = some fields → (fields.map (·.name)).Nodup := by
  have hbody : Always (body d.name d.directives d.body) fun b =>
      ∀ fields, b = .inputObject fields → (fields.map (·.name)).Nodup := by
    cases d.body with
    | scalar => exact .behind fun _ => .pure (by simp)
    | object members => exact .behind fun _ => .behind fun _ => .behind fun _ => .pure (by simp)
    | enum values => exact .behind fun _ => .behind fun _ => .behind fun _ => .pure (by simp)
    | input members =>
      refine .behind fun _ => .behind fun _ => ?_
      refine (members_always (fun i _ => input_always _ i) []).bind fun fields h => .pure ?_
      exact fun _ heq => NamedTypeBody.inputObject.inj heq ▸ h.1
  refine hbody.bind fun b hb => .pure ⟨rfl, fun fields hfields => hb fields ?_⟩
  cases b <;> simp_all [NamedType.inputFields?]

end Resolution

namespace Schema

open Resolution

variable {s s₀ : Schema} {ds : List SchemaDocument} {id : Nat} {st : ResolutionState}

/-- The types of documents, whatever comes up. -/
lemma resolveDocuments_always (names : TypeNames) (directives : List DirectiveSpec)
    (ds : List SchemaDocument) (st : ResolutionState) :
    List.Forall₂ (fun d t => t.name = d.name.text ∧
        ∀ fields, t.inputFields? = some fields → (fields.map (·.name)).Nodup)
      (ds.flatMap (·.types)) ((ds.mapM (resolveDocument names directives)).run st).1.flatten := by
  induction ds generalizing st with
  | nil => exact .nil
  | cons d ds ih =>
    rw [List.mapM_cons, List.flatMap_cons]
    exact List.rel_append (Always.mapM (fun t _ => type_always t) ⟨d, directives, names.kinds⟩ st) (ih _)

/-- The names in a schema under construction are told apart, and no type has a point in its name. -/
structure HasPlainNames (s : Schema) : Prop where
  types : (s.types.map (·.name)).Nodup
  fields : ∀ t ∈ s.types, ∀ fields, t.inputFields? = some fields → (fields.map (·.name)).Nodup
  plain : ∀ t ∈ s.types, '.' ∉ t.name.toList

lemma not_mem_of_isName {cs : List Char} (h : Lexeme.IsName cs) : '.' ∉ cs := by
  obtain ⟨start, more⟩ := h
  intro hmem
  rcases List.mem_cons.mp hmem with rfl | hmem
  · simp [isNameStart] at start
  · simpa [isNamePart, isNameStart] using more _ hmem

lemma introspection_plain : ∀ d ∈ SchemaDocument.introspection.types, '.' ∉ d.name.text.toList := by
  decide

lemma resolve_hasPlainNames (hds : ∀ d ∈ ds, ∃ file text, SchemaDocument.load file text = .ok d)
    (hr : resolve ds id = .ok (s, st)) : s.HasPlainNames := by
  obtain ⟨names, query, types, hnames, -, hrun, rfl⟩ := resolve_eq_ok hr
  obtain ⟨hwf, -, hkinds⟩ :=
    TypeNames.registerAll_wellFormed (TypeNames.builtin_wellFormed id) hnames
  have hall := resolveDocuments_always names (Builtin.directives names.registry) (.introspection :: ds)
    ⟨names.registry, [], []⟩
  rw [hrun] at hall
  have hplain : ∀ d ∈ (SchemaDocument.introspection :: ds).flatMap (·.types), '.' ∉ d.name.text.toList := by
    intro t ht
    obtain ⟨d, hd, ht⟩ := List.mem_flatMap.mp ht
    rcases List.mem_cons.mp hd with rfl | hd
    · exact introspection_plain t ht
    · obtain ⟨file, text, hload⟩ := hds d hd
      exact not_mem_of_isName (SchemaDocument.load_isLegal hload t ht).name
  refine ⟨?_, fun t ht fields hfields => ?_, fun t ht => ?_⟩
  · have hmap : (BuiltinScalar.all.map (·.namedType) ++ types.flatten).map (·.name)
        = names.kinds.map (·.1) := by
      rw [List.map_append, ← forall₂_map_eq hall fun _ _ h => h.1.symm, hkinds]
      simp [TypeNames.builtin, BuiltinScalar.namedType, Function.comp_def]
    rw [hmap]
    exact hwf.nodup
  · rcases List.mem_append.mp ht with ht | ht
    · obtain ⟨b, -, rfl⟩ := List.mem_map.mp ht
      simp [BuiltinScalar.namedType, NamedType.inputFields?] at hfields
    · obtain ⟨d, -, -, hfields'⟩ := forall₂_exists_left hall ht
      exact hfields' fields hfields
  · rcases List.mem_append.mp ht with ht | ht
    · obtain ⟨b, -, rfl⟩ := List.mem_map.mp ht
      cases b <;> decide
    · obtain ⟨d, hd, hname, -⟩ := forall₂_exists_left hall ht
      exact hname ▸ hplain d hd

/-- Applying defaults leaves the types as they are, also those that are wrong. -/
lemma applyDefaults_sameTypes (s : Schema) (ps : List PendingDefault) :
    SameTypes s (s.applyDefaults ps).1 := by
  refine List.foldlRecOn (s.orderDefaults ps) _
    (motive := fun r : Schema × List DefinitionError => SameTypes s r.1) (.refl s) ?_
  rintro ⟨s', errors⟩ hs' p -
  dsimp only [applyDefault]
  cases s'.coerceLiteral p.type p.literal none with
  | ok v => exact hs'.trans (sameTypes_setDefault _ _ _)
  | error es => exact hs'

lemma SameTypes.hasPlainNames (h : SameTypes s₀ s) (hs : s₀.HasPlainNames) : s.HasPlainNames := by
  have hmem : ∀ t ∈ s.types, ∃ t₀ ∈ s₀.types, t₀.bare = t.bare := fun t ht =>
    List.mem_map.mp (h.types ▸ List.mem_map.mpr ⟨t, ht, rfl⟩)
  refine ⟨?_, fun t ht fields hfields => ?_, fun t ht => ?_⟩
  · have hnames := congrArg (List.map NamedType.name) h.types
    simp only [List.map_map, Function.comp_def, NamedType.bare_name] at hnames
    exact hnames ▸ hs.types
  · obtain ⟨t₀, ht₀, heq⟩ := hmem t ht
    have heq := congrArg NamedType.inputFields? heq
    rw [t₀.bare_inputFields?, t.bare_inputFields?, hfields, Option.map_some, Option.map_eq_some_iff] at heq
    obtain ⟨fields₀, hfields₀, hbare⟩ := heq
    have hnames := congrArg (List.map InputSpec.name) hbare
    simp only [List.map_map, Function.comp_def, InputSpec.bare_name] at hnames
    exact hnames ▸ hs.fields t₀ ht₀ fields₀ hfields₀
  · obtain ⟨t₀, ht₀, heq⟩ := hmem t ht
    have hname : t₀.name = t.name := by simpa using congrArg NamedType.name heq
    exact hname ▸ hs.plain t₀ ht₀

/-- A schema under construction has plain names, whatever was reported. -/
lemma draft_hasPlainNames (hds : ∀ d ∈ ds, ∃ file text, SchemaDocument.load file text = .ok d)
    (hr : resolve ds id = .ok (s₀, st)) :
    (s₀.applyDefaults st.pending.reverse).1.HasPlainNames :=
  (applyDefaults_sameTypes s₀ _).hasPlainNames (resolve_hasPlainNames hds hr)

end Schema

end GraphQL
