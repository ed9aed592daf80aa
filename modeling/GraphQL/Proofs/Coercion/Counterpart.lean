import GraphQL.Proofs.Coercion.Unplaced
import GraphQL.Proofs.Schema.Counterpart

/-!
Coercion in schemas that differ in their handles.

A literal that has a value in one schema has the same value in a schema with counterparts of all types, up
to handles, if the fields that it leaves out have the same defaults there.
-/

namespace GraphQL

open TypeRegistry (SameType)

namespace Coerced

variable {α β γ δ : Type} {R : α → β → Prop} {S : γ → δ → Prop} {x : Coerced α} {y : Coerced β}

/-- If the one has a value then so has the other, and the two are related. -/
def Carries (R : α → β → Prop) (x : Coerced α) (y : Coerced β) : Prop :=
  ∀ a, x.result = .ok a → ∃ b, y.result = .ok b ∧ R a b

namespace Carries

lemma error (cause : CoercionErrorCause) (p : Pos) (path : Path) :
    Carries R (.error cause p path : Coerced α) y := fun _ h => by simp [Coerced.error, result] at h

lemma ok {a : α} {b : β} (h : R a b) : Carries R (.ok a) (.ok b) := fun _ ha =>
  ⟨b, rfl, Except.ok.inj ha ▸ h⟩

lemma map {f : α → γ} {g : β → δ} (h : Carries R x y) (hfg : ∀ a b, R a b → S (f a) (g b)) :
    Carries S (x.map f) (y.map g) := by
  intro c hc
  obtain ⟨hvalue, herrors⟩ := result_ok_iff.mp hc
  obtain ⟨a, ha, rfl⟩ := Option.map_eq_some_iff.mp hvalue
  obtain ⟨b, hb, hR⟩ := h a (result_ok_iff.mpr ⟨ha, herrors⟩)
  obtain ⟨hb, herrors'⟩ := result_ok_iff.mp hb
  exact ⟨g b, result_ok_iff.mpr ⟨Option.map_eq_some_iff.mpr ⟨b, hb, rfl⟩, herrors'⟩, hfg a b hR⟩

lemma all {xs : List (Coerced α)} {ys : List (Coerced β)} (h : List.Forall₂ (Carries R) xs ys) :
    Carries (List.Forall₂ R) (Coerced.all xs) (Coerced.all ys) := by
  induction h with
  | nil => exact .ok .nil
  | @cons x y xs ys hxy _ ih =>
    intro as hresult
    obtain ⟨hvalues, herrors⟩ := result_ok_iff.mp hresult
    obtain ⟨a, as, ha, has, rfl⟩ := List.forall₂_cons_left_iff.mp (all_value?_iff.mp hvalues)
    rw [all_errors_eq_nil, List.forall_mem_cons, ← all_errors_eq_nil] at herrors
    obtain ⟨b, hb, hR⟩ := hxy a (result_ok_iff.mpr ⟨ha, herrors.1⟩)
    obtain ⟨bs, hbs, hRs⟩ := ih as (result_ok_iff.mpr ⟨all_value?_iff.mpr has, herrors.2⟩)
    obtain ⟨hb, hb'⟩ := result_ok_iff.mp hb
    obtain ⟨hbs, hbs'⟩ := result_ok_iff.mp hbs
    refine ⟨b :: bs, result_ok_iff.mpr ⟨?_, ?_⟩, .cons hR hRs⟩
    · exact all_value?_iff.mpr (.cons hb (all_value?_iff.mp hbs))
    · rw [all_errors_eq_nil, List.forall_mem_cons, ← all_errors_eq_nil]
      exact ⟨hb', hbs'⟩

end Carries

end Coerced

/-! ### Defaults that agree -/

/-- The default of an argument or input field is the same in both schemas, up to handles. -/
def Schema.AgreeOn (s s' : Schema) (owner : InputOwner) : Prop :=
  ∀ i i', (owner, i) ∈ s.ownedInputs → (owner, i') ∈ s'.ownedInputs →
    Option.Rel (SameValue s.registry s'.registry) i.default? i'.default?

namespace CoercionContext

open Coerced (Carries)

variable {s s' : Schema} {t t' : TypeId} {v : Literal} {path : Path} {p : Pos} {d d' : InputSpec}

/-! ### Leaves -/

lemma coerceNull_carries (ht : SameType s.registry s'.registry t t') :
    Carries (SameValue s.registry s'.registry) (s.constant.coerceNull p path t)
      (s'.constant.coerceNull p path t') := by
  unfold coerceNull
  rw [ht.nonNull]
  split
  · exact .error _ _ _
  · exact .ok (.null ht)

lemma leaf_carries {text : Except CoercionErrorCause String} (ht : SameType s.registry s'.registry t t') :
    Carries (SameValue s.registry s'.registry) (leaf text p path t) (leaf text p path t') := by
  cases text with
  | ok text => exact .ok (.scalar ht)
  | error cause => exact .error _ _ _

lemma enumText_names {c : CoercionContext} {enumName : String} {values values' : List EnumValueSpec}
    (h : values'.map (·.name) = values.map (·.name)) :
    c.enumText enumName values' v = c.enumText enumName values v := by
  have hany (values : List EnumValueSpec) (name : String) :
      (values.any fun e => e.name == name) = (values.map (·.name)).any (· == name) := by
    rw [List.any_map]
    rfl
  simp only [enumText, hany, h]

lemma lone_carries (hs : s.HasCounterparts s') {coerce coerce' : Coercer}
    (h : ∀ base base', SameType s.registry s'.registry base base' →
      s'.registry.innermost base' = s'.registry.innermost t' →
        Carries (SameValue s.registry s'.registry) (coerce path base) (coerce' path base'))
    (ht : SameType s.registry s'.registry t t') :
    Carries (SameValue s.registry s'.registry) (s.constant.lone coerce path t)
      (s'.constant.lone coerce' path t') := by
  obtain ⟨hlayers, hbase⟩ := ht.layers hs.registry hs.registry'
  exact (h _ _ hbase (TypeRegistry.innermost_base hs.registry' t')).map fun _ _ => .layers hlayers

/-! ### Objects -/

lemma fieldErrors_declared {typeName : String} {declared declared' : List InputSpec} {seen : List String}
    (h : declared'.map (·.name) = declared.map (·.name)) (fs : List SuppliedField) :
    fieldErrors typeName declared' path seen fs = fieldErrors typeName declared path seen fs := by
  have hany (declared : List InputSpec) (name : String) :
      (declared.any fun d => d.name == name) = (declared.map (·.name)).any (· == name) := by
    rw [List.any_map]
    rfl
  induction fs generalizing seen with
  | nil => rfl
  | cons f fs ih => simp only [fieldErrors, hany, h, ih]

/-- A field has the same value in both schemas: what is written for it, or else its default. -/
lemma fieldValue_carries {typeName : String} {fields : List (Name × Literal)}
    (hd : SameInput s.registry s'.registry d d')
    (hgiven : ∀ v, s'.constant.given fields d'.name = some v → ∀ path,
      Carries (SameValue s.registry s'.registry) (coerce s.constant v path d.type)
        (coerce s'.constant v path d'.type))
    (hmissing : s'.constant.given fields d'.name = none →
      Option.Rel (SameValue s.registry s'.registry) d.default? d'.default?) :
    Carries (fun f f' => f.1 = f'.1 ∧ SameValue s.registry s'.registry f.2 f'.2)
      (s.constant.fieldValue typeName (suppliedFields s.constant fields) p path d)
      (s'.constant.fieldValue typeName (suppliedFields s'.constant fields) p path d') := by
  have hsame : s.constant.given fields d.name = s'.constant.given fields d'.name := by
    rw [hd.name]
    rfl
  cases hg : s'.constant.given fields d'.name with
  | some v =>
    rw [fieldValue_given (hsame.trans hg), fieldValue_given hg, hd.name]
    exact (hgiven v hg _).map fun _ _ hv => ⟨rfl, hv⟩
  | none =>
    rw [fieldValue_missing (hsame.trans hg), fieldValue_missing hg]
    have hdefault := hmissing hg
    have hrequired : d'.isRequired = d.isRequired := by
      unfold InputSpec.isRequired
      rw [hd.type.nonNull]
      generalize d.default? = default? at hdefault
      generalize d'.default? = default?' at hdefault
      cases hdefault <;> rfl
    have hfallback : SameValue s.registry s'.registry d.fallback d'.fallback := by
      unfold InputSpec.fallback
      generalize d.default? = default? at hdefault
      generalize d'.default? = default?' at hdefault
      cases hdefault with
      | none => exact .null hd.type
      | some hv => exact hv
    rw [hrequired]
    split
    · exact .error _ _ _
    · exact .ok ⟨hd.name.symm, hfallback⟩

lemma inputObject_carries {typeName : String} {declared declared' : List InputSpec}
    {fields : List (Name × Literal)} (ht : SameType s.registry s'.registry t t')
    (hnames : declared'.map (·.name) = declared.map (·.name))
    (hfields : List.Forall₂ (fun d d' =>
      Carries (fun f f' => f.1 = f'.1 ∧ SameValue s.registry s'.registry f.2 f'.2)
        (s.constant.fieldValue typeName (suppliedFields s.constant fields) p path d)
        (s'.constant.fieldValue typeName (suppliedFields s'.constant fields) p path d')) declared declared') :
    Carries (SameValue s.registry s'.registry)
      (s.constant.inputObject typeName declared (suppliedFields s.constant fields) p path t)
      (s'.constant.inputObject typeName declared' (suppliedFields s'.constant fields) p path t') := by
  have hall := Carries.all (List.forall₂_map_left_iff.mpr (List.forall₂_map_right_iff.mpr hfields))
  have hsupplied : (suppliedFields s.constant fields).map (·.name.text)
      = (suppliedFields s'.constant fields).map (·.name.text) := by
    have htexts (c : CoercionContext) :
        (suppliedFields c fields).map (·.name.text) = fields.map (·.1.text) := by
      simpa [Function.comp_def] using congrArg (List.map Name.text) (suppliedFields_names c fields)
    rw [htexts, htexts]
  intro w hw
  obtain ⟨hvalue, herrors⟩ := Coerced.result_ok_iff.mp hw
  obtain ⟨hunknown, herrors'⟩ := List.append_eq_nil_iff.mp herrors
  have hempty := List.isEmpty_iff.mpr herrors
  unfold inputObject at hvalue hempty
  dsimp only at hvalue hempty
  rw [if_pos hempty] at hvalue
  obtain ⟨parts, hparts, rfl⟩ := Option.map_eq_some_iff.mp hvalue
  obtain ⟨parts', hparts', hsame⟩ := hall parts (Coerced.result_ok_iff.mpr ⟨hparts, herrors'⟩)
  obtain ⟨hparts', hnone'⟩ := Coerced.result_ok_iff.mp hparts'
  have herrors' : (s'.constant.inputObject typeName declared' (suppliedFields s'.constant fields) p path
      t').errors = [] := by
    refine List.append_eq_nil_iff.mpr ⟨?_, hnone'⟩
    rw [fieldErrors_declared hnames]
    exact fieldErrors_names hsupplied hunknown
  refine ⟨.object t' parts', Coerced.result_ok_iff.mpr ⟨?_, herrors'⟩, .object_of_forall₂ ht hsame⟩
  have hempty' := List.isEmpty_iff.mpr herrors'
  unfold inputObject at hempty' ⊢
  dsimp only at hempty' ⊢
  rw [if_pos hempty', hparts']
  rfl

/-- A literal at a type that is no list, if it has the same value at input objects. -/
lemma atNamed_carries (hs : s.HasCounterparts s') (ht : SameType s.registry s'.registry t t')
    {supplied supplied' : List SuppliedField}
    (hobject : ∀ fields p, v = .object fields p → ∀ n n' declared declared', s.named? t = some n →
      s'.named? t' = some n' → n.name = n'.name → n.inputFields? = some declared →
      n'.inputFields? = some declared' →
      List.Forall₂ (SameInput s.registry s'.registry) declared declared' →
      Carries (SameValue s.registry s'.registry)
        (s.constant.inputObject n'.name declared supplied p path t)
        (s'.constant.inputObject n'.name declared' supplied' p path t')) :
    Carries (SameValue s.registry s'.registry) (s.constant.atNamed v supplied path t)
      (s'.constant.atNamed v supplied' path t') := by
  unfold atNamed
  cases hn : s.constant.schema.named? t with
  | none => exact .error _ _ _
  | some n =>
    obtain ⟨n', hn', hname, hbody⟩ := hs.named? ht hn
    have hn' : s'.constant.schema.named? t' = some n' := hn'
    rw [hn']
    obtain ⟨name, description, body⟩ := n
    obtain ⟨name', description', body'⟩ := n'
    obtain rfl : name' = name := hname
    dsimp only
    cases hbody with
    | object members => exact .error _ _ _
    | scalar builtin =>
      cases v with
      | scalar kind text p => exact leaf_carries ht
      | _ => exact .error _ _ _
    | enum names =>
      dsimp only
      rw [enumText_names names]
      exact leaf_carries ht
    | inputObject members =>
      cases v with
      | object fields p => exact hobject fields p rfl _ _ _ _ hn hn' rfl rfl rfl members
      | _ => exact .error _ _ _

/-! ### Literals -/

lemma coerceItems_carries {items : List Literal} {e e' : TypeId} {n : ℕ}
    (he : SameType s.registry s'.registry e e')
    (hitem : ∀ item ∈ items, s'.constant.isAbsent item = false → ∀ path,
      Carries (SameValue s.registry s'.registry) (coerce s.constant item path e)
        (coerce s'.constant item path e')) :
    Carries (List.Forall₂ (SameValue s.registry s'.registry))
      (Coerced.all (s.constant.coerceItems path e n items))
      (Coerced.all (s'.constant.coerceItems path e' n items)) := by
  rw [coerceItems_eq, coerceItems_eq]
  refine Carries.all ?_
  rw [List.forall₂_map_left_iff, List.forall₂_map_right_iff]
  refine List.forall₂_same.mpr fun item hmem => ?_
  have hsame : s.constant.isAbsent item.1 = s'.constant.isAbsent item.1 := rfl
  unfold coerceItem
  rw [hsame]
  split
  · exact coerceNull_carries he
  · rename_i hpresent
    exact hitem item.1 (List.fst_mem_of_mem_zipIdx hmem) (Bool.eq_false_of_not_eq_true hpresent) _

/-- **Coercion up to handles**: a literal that has a value in a schema has the same value in a schema with
counterparts of all types, if the fields that it leaves out have the same defaults. -/
theorem coerce_carries (hs : s.HasCounterparts s') (path : Path)
    (ht : SameType s.registry s'.registry t t')
    (hleft : ∀ n d', s'.constant.LeavesOut v t' n d' → s.AgreeOn s' (.inputField n d'.name)) :
    Carries (SameValue s.registry s'.registry) (coerce s.constant v path t)
      (coerce s'.constant v path t') := by
  induction v using Literal.induct generalizing t t' path with
  | null p =>
    rw [coerce, coerce]
    exact coerceNull_carries ht
  | var name p =>
    rw [coerce, coerce]
    exact .error _ _ _
  | scalar kind text p =>
    rw [coerce, coerce]
    exact lone_carries hs (fun base base' hbase _ => atNamed_carries hs hbase (by simp)) ht
  | list items p ih =>
    rw [coerce, coerce]
    dsimp only
    rcases ht.element? with ⟨he, he'⟩ | ⟨e, e', he, he', hee⟩
    · rw [show s.constant.schema.element? t = none from he,
        show s'.constant.schema.element? t' = none from he']
      exact atNamed_carries hs ht (by simp)
    · rw [show s.constant.schema.element? t = some e from he,
        show s'.constant.schema.element? t' = some e' from he']
      refine (coerceItems_carries hee fun item hmem hpresent path => ?_).map fun _ _ => .list_of_forall₂ ht
      exact ih item hmem path hee fun n d hd => hleft n d (.item he' hmem hpresent hd)
  | object fields p ih =>
    rw [coerce, coerce]
    refine lone_carries hs (fun base base' hbase hinner => atNamed_carries hs hbase ?_) ht
    rintro _ _ ⟨⟩ n n' declared declared' hn hn' hname hdeclared hdeclared' hmembers
    have hn' : s'.named? t' = some n' := by
      rwa [Schema.named?, hinner] at hn'
    have hnames : declared'.map (·.name) = declared.map (·.name) :=
      (forall₂_map_eq hmembers fun _ _ hd => hd.name.symm).symm
    refine inputObject_carries hbase hnames ?_
    obtain ⟨hlength, hzip⟩ := List.forall₂_iff_zip.mp hmembers
    refine List.forall₂_iff_zip.mpr ⟨hlength, fun {d d'} hpair => ?_⟩
    obtain ⟨hd, hd'⟩ := List.of_mem_zip hpair
    have hsame := hzip hpair
    refine fieldValue_carries hsame (fun v hg path => ?_) fun hg => ?_
    · obtain ⟨⟨f, hf, -, rfl⟩, -⟩ := given_spec hg
      exact ih f hf path hsame.type fun m e he => hleft m e (.field hn' hdeclared' hd' hg he)
    · have howned := Schema.inputFields?_owned (Schema.named?_mem hn) hdeclared hd
      rw [hname, ← hsame.name] at howned
      exact hleft n'.name d' (.here hn' hdeclared' hd' hg) d d' howned
        (Schema.inputFields?_owned (Schema.named?_mem hn') hdeclared' hd')

end CoercionContext

end GraphQL
