import GraphQL.Proofs.Coercion.Errors
import GraphQL.Proofs.Grouping
import GraphQL.Proofs.Schema.DefaultOrder

/-!
The values of variables, and what becomes of them where variables are used.

A variable is coerced to its type as it is written, which need not be a type of the schema. At a place
whose type accepts the written one, the value is given the type of the place; that is all that it takes
to make it well typed there.
-/

namespace GraphQL

variable {s : Schema} {t : TypeRef} {l e : TypeId} {v w : Value} {name : String}

/-! ### Values of written types -/

/-- A value of a type as it is written. A list may have any type, if its items are of the type that
the element is written with. -/
def FitsRef (s : Schema) : TypeRef → Value → Prop
  | .named n, v => ∃ l u, s.typeId? n.text = some l ∧ WellTyped s l u ∧ v = u.withType v.type
  | .nonNull t _, v => v.isNull = false ∧ FitsRef s t v
  | .list t _, v => v.isNull = true ∨ ∃ l items, v = .list l items ∧ ∀ w ∈ items, FitsRef s t w

namespace Value

@[simp] lemma type_withType (v : Value) : (v.withType l).type = l := by
  cases v <;> rfl

@[simp] lemma isNull_withType (v : Value) : (v.withType l).isNull = v.isNull := by
  cases v <;> rfl

@[simp] lemma withType_withType (v : Value) : (v.withType e).withType l = v.withType l := by
  cases v <;> rfl

@[simp] lemma withType_type (v : Value) : v.withType v.type = v := by
  cases v <;> rfl

end Value

lemma FitsRef.withType (h : FitsRef s t v) (l : TypeId) : FitsRef s t (v.withType l) := by
  induction t with
  | named n =>
    obtain ⟨k, u, hk, hu, hv⟩ := h
    refine ⟨k, u, hk, hu, ?_⟩
    rw [Value.type_withType, hv, Value.withType_withType]
  | list t p ih =>
    rcases h with hnull | ⟨k, items, rfl, hitems⟩
    · exact .inl (by rwa [Value.isNull_withType])
    · exact .inr ⟨l, items, rfl, hitems⟩
  | nonNull t p ih => exact ⟨by rw [Value.isNull_withType, h.1], ih h.2⟩

/-- What stands for a value that is not supplied is well typed, if the defaults of the schema are. -/
lemma Schema.DefaultsWellTyped.fallback (hdefaults : s.DefaultsWellTyped) {i : InputSpec}
    (hi : i ∈ s.inputs) (hreq : i.isRequired = false) : WellTyped s i.type i.fallback :=
  InputSpec.fallback_holds .null (hdefaults i hi) hreq

namespace CoercionContext

variable {c : CoercionContext} {path : Path} {lit : Literal}

lemma foldr_list_isNull (layers : List TypeId) (u : Value) (h : u.isNull = false) :
    (layers.foldr (fun l inner => .list l [inner]) u).isNull = false := by
  cases layers with
  | nil => exact h
  | cons l layers => rfl

/-- Only null and variables are coerced to null. -/
lemma coerce_isNull (hnull : lit.isNull = false) (hvar : lit.var? = none)
    (h : (coerce c lit path l).value? = some w) : w.isNull = false := by
  cases lit with
  | null p => simp [Literal.isNull] at hnull
  | var name p => simp [Literal.var?] at hvar
  | scalar kind text p =>
    rw [coerce] at h
    obtain ⟨u, hu, rfl⟩ := lone_value? h
    refine foldr_list_isNull _ u ?_
    unfold atNamed at hu
    split at hu
    · simp [Coerced.error] at hu
    · split at hu
      · simp [Coerced.error] at hu
      · obtain ⟨text, -, rfl⟩ := leaf_value? hu
        rfl
      · obtain ⟨text, -, rfl⟩ := leaf_value? hu
        rfl
      · simp [Coerced.error] at hu
  | list items p =>
    rw [coerce] at h
    dsimp only at h
    split at h
    · obtain ⟨ws, -, rfl⟩ := Option.map_eq_some_iff.mp h
      rfl
    · simp [atNamed_list_value?] at h
  | object fields p =>
    rw [coerce] at h
    obtain ⟨u, hu, rfl⟩ := lone_value? h
    refine foldr_list_isNull _ u ?_
    obtain ⟨n, declared, parts, -, -, rfl, -⟩ := atNamed_object_value? hu
    rfl

lemma coerceVariable_forbidden (hc : c.scope = .forbidden) (p : Pos) :
    (c.coerceVariable name p path l).value? = none := by
  simp [coerceVariable, hc, Coerced.error]

lemma isAbsent_of_forbidden (hc : c.scope = .forbidden) (v : Literal) : c.isAbsent v = false := by
  unfold isAbsent
  rw [hc]
  cases v <;> rfl

lemma leavesOut_fallback {n : String} {d : InputSpec} (hdefaults : c.schema.DefaultsWellTyped)
    (hd : LeavesOut c lit l n d) (hreq : d.isRequired = false) :
    WellTyped c.schema d.type d.fallback :=
  hdefaults.fallback (Schema.mem_inputs_of_owned hd.owned) hreq

/-- A constant literal is coerced to a value of the type that it is coerced to as it is written, and
to null only if it is null. -/
theorem coerceDeclared_fits (hr : c.schema.registry.WellFormed)
    (hdefaults : c.schema.DefaultsWellTyped) (hc : c.scope = .forbidden) (hlit : lit.IsProper)
    (h : (c.coerceDeclared t path lit).value? = some w) :
    FitsRef c.schema t w ∧ (lit.isNull = false → w.isNull = false) := by
  induction t generalizing path lit w with
  | named n =>
    rw [coerceDeclared] at h
    split at h
    · rename_i l hl
      refine ⟨⟨l, w, hl, ?_, (Value.withType_type w).symm⟩, fun hnull => ?_⟩
      · refine coerce_wellTyped hr hlit false h (fun name l b _ p path u hu => ?_) fun n d hd hreq =>
          leavesOut_fallback hdefaults hd hreq
        simp [coerceVariable_forbidden hc] at hu
      · refine coerce_isNull hnull ?_ h
        cases lit with
        | var name p => simp [coerce, coerceVariable_forbidden hc] at h
        | _ => rfl
    · simp [Coerced.error] at h
  | nonNull t p ih =>
    rw [coerceDeclared] at h
    split at h
    · simp [Coerced.error] at h
    · rename_i hnull
      have hnull := Bool.eq_false_of_not_eq_true hnull
      obtain ⟨u, hu, rfl⟩ := Option.map_eq_some_iff.mp h
      obtain ⟨hfits, hsome⟩ := ih hlit hu
      have hu := hsome hnull
      refine ⟨⟨by rw [Value.isNull_withType, hu], hfits.withType _⟩, fun _ => ?_⟩
      rw [Value.isNull_withType, hu]
  | list t p ih =>
    rw [coerceDeclared] at h
    split at h
    · simp [Coerced.error] at h
    · rename_i list hlist
      split at h
      · obtain rfl := Option.some.inj h
        exact ⟨.inl rfl, by simp [Literal.isNull]⟩
      · rename_i items q
        obtain ⟨ws, hws, rfl⟩ := Option.map_eq_some_iff.mp h
        rw [Coerced.all_map_value?_iff] at hws
        refine ⟨.inr ⟨list, ws, rfl, fun u hu => ?_⟩, fun _ => rfl⟩
        obtain ⟨⟨item, n⟩, hitem, hvalue⟩ := forall₂_exists_left hws hu
        exact (ih (hlit.item (List.fst_mem_of_mem_zipIdx hitem)) hvalue).1
      · obtain ⟨u, hu, rfl⟩ := Option.map_eq_some_iff.mp h
        refine ⟨.inr ⟨list, [u], rfl, fun x hx => ?_⟩, fun _ => rfl⟩
        rw [List.mem_singleton.mp hx]
        exact (ih hlit hu).1

end CoercionContext

/-! ### Values at places -/

namespace Schema

lemma element?_of_nullable (h : e.nullable = l.nullable) : s.element? e = s.element? l := by
  rw [element?, element?, ← TypeRegistry.element?_nullable e, h, TypeRegistry.element?_nullable]

lemma named?_of_nullable (h : e.nullable = l.nullable) (hl : s.element? l = none) :
    s.named? e = s.named? l := by
  rw [named?, named?, TypeRegistry.innermost_single ((element?_of_nullable h).trans hl),
    TypeRegistry.innermost_single hl, h]

end Schema

/-- A value of a type that is no list is well typed at the type with another mark, unless it is null. -/
lemma WellTyped.withType (hv : WellTyped s l v) (hl : s.element? l = none) (hnull : v.isNull = false)
    (h : e.nullable = l.nullable) : WellTyped s e (v.withType e) := by
  have he := (Schema.element?_of_nullable h).trans hl
  have hnamed := Schema.named?_of_nullable h hl
  cases hv with
  | null nullable => simp [Value.isNull] at hnull
  | scalar single legal =>
    obtain ⟨n, hn, hlegal⟩ := legal
    exact .scalar he ⟨n, hnamed.trans hn, hlegal⟩
  | list element typed => simp [hl] at element
  | object single isInput names typed =>
    refine .object he ?_ names typed
    rwa [Schema.inputTypes?, hnamed]

namespace CoercionContext

lemma adapt_single (h : s.element? l = none) (hv : v.items? = none) :
    adapt s l v = v.withType l := by
  have hlayers : s.registry.layers l = ([], l) := TypeRegistry.layers_single h
  cases v with
  | list k items => simp [Value.items?] at hv
  | _ => simp [adapt, hlayers]

lemma adapt_list {k : TypeId} {items : List Value} (h : s.element? l = some e) :
    adapt s l (.list k items) = .list l (adapt.adaptItems s e items) := by
  rw [adapt, h]

lemma mem_adaptItems {items : List Value} (hw : w ∈ adapt.adaptItems s e items) :
    ∃ v ∈ items, (v.isNull = true ∧ w = .null e) ∨ (v.isNull = false ∧ w = adapt s e v) := by
  induction items with
  | nil => simp [adapt.adaptItems] at hw
  | cons v items ih =>
    have hcases : w = (if v.isNull then .null e else adapt s e v) ∨
        w ∈ adapt.adaptItems s e items := by
      cases v <;> simpa [adapt.adaptItems, Value.isNull] using hw
    rcases hcases with rfl | hw
    · refine ⟨v, List.mem_cons_self, ?_⟩
      cases v.isNull <;> simp
    · obtain ⟨u, hu, hcase⟩ := ih hw
      exact ⟨u, List.mem_cons_of_mem v hu, hcase⟩

/-- Where a place accepts a written type that has null, it takes null itself. -/
lemma nullable_of_acceptsRef (h : s.acceptsRef l t = true) (hv : FitsRef s t v)
    (hnull : v.isNull = true) : l.isNonNull = false := by
  cases t with
  | named n =>
    rw [Schema.acceptsRef] at h
    simp only [Bool.and_eq_true, Bool.not_eq_true'] at h
    exact h.1.1
  | list t p =>
    rw [Schema.acceptsRef] at h
    simp only [Bool.and_eq_true, Bool.not_eq_true'] at h
    exact h.1
  | nonNull t p => simp [hv.1] at hnull

/-- **Adapting**: a value of a written type is well typed at every place that accepts the type, and
also where the place excludes null and the value is not null. -/
theorem adapt_wellTyped (h : s.acceptsRef e t = true) (hv : FitsRef s t v) (hnull : v.isNull = false)
    (hl : l.nullable = e.nullable) : WellTyped s l (adapt s l v) := by
  induction t generalizing e l v with
  | named n =>
    rw [Schema.acceptsRef] at h
    simp only [Bool.and_eq_true, Bool.not_eq_true', Schema.isList, Option.isSome_eq_false_iff,
      Option.isNone_iff_eq_none, beq_iff_eq] at h
    obtain ⟨⟨-, he⟩, hid⟩ := h
    obtain ⟨k, u, hk, hu, huv⟩ := hv
    obtain rfl : k = e := Option.some.inj (hk.symm.trans hid)
    have hunull : u.isNull = false := by rwa [huv, Value.isNull_withType] at hnull
    have hitems : v.items? = none := by
      cases hu with
      | list element typed => simp [he] at element
      | _ => rw [huv]; rfl
    rw [adapt_single ((Schema.element?_of_nullable hl).trans he) hitems, huv, Value.withType_withType]
    exact hu.withType he hunull hl
  | list t p ih =>
    rw [Schema.acceptsRef] at h
    simp only [Bool.and_eq_true, Bool.not_eq_true'] at h
    obtain ⟨-, helement⟩ := h
    rcases hv with hv | ⟨k, items, rfl, hitems⟩
    · simp [hv] at hnull
    split at helement
    · rename_i f hf
      have hlf := (Schema.element?_of_nullable hl).trans hf
      rw [adapt_list hlf]
      refine .list hlf fun w hw => ?_
      obtain ⟨v, hv, ⟨hvnull, rfl⟩ | ⟨hvnull, rfl⟩⟩ := mem_adaptItems hw
      · exact .null (nullable_of_acceptsRef helement (hitems v hv) hvnull)
      · exact ih helement (hitems v hv) hvnull rfl
    · simp at helement
  | nonNull t p ih =>
    rw [Schema.acceptsRef] at h
    exact ih h hv.2 hnull hl

/-- A variable is well typed where it is used, if the place accepts the type that it is written
with. -/
lemma coerceVariable_wellTyped {c : CoercionContext} {vars : Variables} {p : Pos} {path : Path}
    (hscope : c.scope = .bound vars)
    (hfits : ∀ v, vars.lookup name = some v →
      ∃ t e, FitsRef c.schema t v ∧ c.schema.acceptsRef e t = true ∧ l.nullable = e.nullable)
    (h : (c.coerceVariable name p path l).value? = some w) : WellTyped c.schema l w := by
  unfold coerceVariable at h
  rw [hscope] at h
  dsimp only at h
  split at h
  · obtain ⟨rfl, hnull⟩ := coerceNull_value? h
    exact .null hnull
  · obtain ⟨rfl, hnull⟩ := coerceNull_value? h
    exact .null hnull
  · rename_i v hnot hv
    obtain ⟨t, e, hfit, haccepts, hl⟩ := hfits v hv
    have hsome : v.isNull = false := by
      cases v with
      | null k => exact absurd rfl (hnot k)
      | _ => rfl
    rw [← Option.some.inj h]
    exact adapt_wellTyped haccepts hfit hsome hl

end CoercionContext

/-! ### The variables of an operation -/

lemma lookup_putMember {α : Type} (ms : List (String × α)) (n k : String) (a : α) :
    (putMember ms n a).lookup k = if k = n then some a else ms.lookup k := by
  induction ms with
  | nil =>
    by_cases h : k = n
    · simp [putMember, h]
    · simp [putMember, lookup_cons_of_ne h, h]
  | cons p ms ih =>
    obtain ⟨m, b⟩ := p
    by_cases hm : m = n
    · subst hm
      by_cases h : k = m
      · simp [putMember, h]
      · simp [putMember, lookup_cons_of_ne h, h]
    · by_cases h : k = m
      · subst h
        simp [putMember, hm]
      · simp [putMember, hm, lookup_cons_of_ne h, ih]

namespace Schema

variable {ds : List VariableDefinition} {d : VariableDefinition}
  {supplied : List (String × Literal)} {vars : Variables}

/-- The values of variables, one variable after another. -/
def coerceNext (s : Schema) (supplied : List (String × Literal))
    (before : Variables × List CoercionError) (d : VariableDefinition) :
    Variables × List CoercionError :=
  match s.coerceVariable (supplied.lookup d.name.text) d with
  | .ok (some v) => (putMember before.1 d.name.text v, before.2)
  | .ok none => before
  | .error es => (before.1, before.2 ++ es)

lemma foldl_coerceNext_errors (before : Variables × List CoercionError)
    (h : (ds.foldl (s.coerceNext supplied) before).2 = []) : before.2 = [] := by
  induction ds generalizing before with
  | nil => exact h
  | cons d ds ih =>
    have hnext := ih _ h
    unfold coerceNext at hnext
    split at hnext
    · exact hnext
    · exact hnext
    · exact (List.append_eq_nil_iff.mp hnext).1

lemma foldl_coerceNext_other (before : Variables × List CoercionError)
    (hname : name ∉ ds.map (·.name.text)) :
    (ds.foldl (s.coerceNext supplied) before).1.lookup name = before.1.lookup name := by
  induction ds generalizing before with
  | nil => rfl
  | cons d ds ih =>
    rw [List.map_cons, List.mem_cons, not_or] at hname
    rw [List.foldl_cons, ih _ hname.2]
    unfold coerceNext
    split
    · rw [lookup_putMember, if_neg hname.1]
    · rfl
    · rfl

/-- What a literal comes to as the value of a variable. -/
def coerceGiven (s : Schema) (d : VariableDefinition) (fromJson : Bool) (lit : Literal) :
    Except (List CoercionError) (Option Value) :=
  match (CoercionContext.coerceDeclared ⟨s, fromJson, .forbidden⟩ d.type [] lit).result with
  | .ok w => .ok (some w)
  | .error es => .error (es.map (inVariable d))

lemma coerceGiven_ne_nil {fromJson : Bool} {es : List CoercionError}
    (h : s.coerceGiven d fromJson lit = .error es) : es ≠ [] := by
  unfold coerceGiven at h
  split at h
  · simp at h
  · rename_i es' hes
    obtain rfl := Except.error.inj h
    have hne := (CoercionContext.coerceDeclared_isDecided d.type [] lit).error_ne_nil hes
    simpa using hne

/-- A variable without a value is one with a reason. -/
lemma coerceVariable_ne_nil {o : Option Literal} {es : List CoercionError}
    (h : s.coerceVariable o d = .error es) : es ≠ [] := by
  unfold coerceVariable at h
  split at h
  · obtain rfl := Except.error.inj h
    simp
  · split at h
    · exact coerceGiven_ne_nil h
    · exact coerceGiven_ne_nil h
    · split at h
      · obtain rfl := Except.error.inj h
        simp
      · simp at h

lemma coerceVariables_eq (s : Schema) (ds : List VariableDefinition)
    (supplied : List (String × Literal)) :
    s.coerceVariables ds supplied = if (ds.foldl (s.coerceNext supplied) ([], [])).2.isEmpty then
      .ok (ds.foldl (s.coerceNext supplied) ([], [])).1
    else .error (ds.foldl (s.coerceNext supplied) ([], [])).2 := by
  have hnext : s.coerceNext supplied = fun before d =>
      match s.coerceVariable (supplied.lookup d.name.text) d with
      | .ok (some v) => (putMember before.1 d.name.text v, before.2)
      | .ok none => (before.1, before.2)
      | .error es => (before.1, before.2 ++ es) := by
    funext before d
    unfold coerceNext
    split <;> simp_all
  rw [hnext]
  rfl

lemma foldl_coerceNext_lookup (before : Variables × List CoercionError)
    (hnodup : (ds.map (·.name.text)).Nodup) (hd : d ∈ ds)
    (hbefore : ∀ d ∈ ds, before.1.lookup d.name.text = none)
    (h : (ds.foldl (s.coerceNext supplied) before).2 = []) :
    s.coerceVariable (supplied.lookup d.name.text) d
      = .ok ((ds.foldl (s.coerceNext supplied) before).1.lookup d.name.text) := by
  induction ds generalizing before with
  | nil => simp at hd
  | cons e ds ih =>
    rw [List.map_cons, List.nodup_cons] at hnodup
    rw [List.foldl_cons] at h ⊢
    rcases List.mem_cons.mp hd with rfl | hd
    · rw [foldl_coerceNext_other _ hnodup.1]
      have hnext := foldl_coerceNext_errors _ h
      have hnone := hbefore d List.mem_cons_self
      unfold coerceNext at hnext ⊢
      split at hnext
      · rename_i v hv
        rw [hv, lookup_putMember, if_pos rfl]
      · rename_i hv
        rw [hv, hnone]
      · rename_i es hes
        exact absurd (List.append_eq_nil_iff.mp hnext).2 (coerceVariable_ne_nil hes)
    · refine ih _ hnodup.2 hd (fun d' hd' => ?_) h
      have hne : d'.name.text ∉ [e].map (·.name.text) := by
        rw [List.map_singleton, List.mem_singleton]
        intro heq
        exact hnodup.1 (heq ▸ List.mem_map_of_mem hd')
      have hother : (s.coerceNext supplied before e).1.lookup d'.name.text
          = before.1.lookup d'.name.text := foldl_coerceNext_other before hne
      exact hother.trans (hbefore d' (List.mem_cons_of_mem e hd'))

/-- **The values of variables**: if all variables have been coerced, each of them has the value that it
is coerced to by itself. -/
theorem coerceVariables_lookup (hnodup : (ds.map (·.name.text)).Nodup)
    (h : s.coerceVariables ds supplied = .ok vars) (hd : d ∈ ds) :
    s.coerceVariable (supplied.lookup d.name.text) d = .ok (vars.lookup d.name.text) := by
  rw [coerceVariables_eq] at h
  split at h
  · rename_i hempty
    rw [← Except.ok.inj h]
    exact foldl_coerceNext_lookup _ hnodup hd (by simp) (List.isEmpty_iff.mp hempty)
  · simp at h

lemma coerceGiven_fits {fromJson : Bool} (hr : s.registry.WellFormed)
    (hdefaults : s.DefaultsWellTyped) (hlit : lit.IsProper)
    (h : s.coerceGiven d fromJson lit = .ok (some w)) : FitsRef s d.type w := by
  unfold coerceGiven at h
  split at h
  · rename_i u hu
    obtain rfl := Option.some.inj (Except.ok.inj h)
    have hvalue := (Coerced.result_ok_iff.mp hu).1
    exact (CoercionContext.coerceDeclared_fits hr hdefaults rfl hlit hvalue).1
  · simp at h

/-- The value of a variable is one of its type as it is written. -/
lemma coerceVariable_fits {o : Option Literal} (hr : s.registry.WellFormed)
    (hdefaults : s.DefaultsWellTyped) (ho : ∀ lit, o = some lit → lit.IsProper)
    (hd : ∀ lit, d.default? = some lit → lit.IsProper)
    (h : s.coerceVariable o d = .ok (some w)) : FitsRef s d.type w := by
  unfold coerceVariable at h
  split at h
  · simp at h
  cases o with
  | some lit => exact coerceGiven_fits hr hdefaults (ho lit rfl) h
  | none =>
    cases hdefault : d.default? with
    | some lit =>
      rw [hdefault] at h
      exact coerceGiven_fits hr hdefaults (hd lit hdefault) h
    | none =>
      rw [hdefault] at h
      dsimp only at h
      split at h <;> simp at h

/-- Only a variable that takes null and has no default can be without a value. -/
lemma coerceVariable_none {o : Option Literal} (h : s.coerceVariable o d = .ok none) :
    d.default? = none ∧ d.type.isNonNull = false := by
  unfold coerceVariable at h
  split at h
  · simp at h
  · split at h
    · dsimp only at h
      split at h <;> simp at h
    · dsimp only at h
      split at h <;> simp at h
    · rename_i hdefault
      split at h
      · simp at h
      · rename_i hnull
        exact ⟨hdefault, Bool.eq_false_of_not_eq_true hnull⟩

end Schema

end GraphQL
