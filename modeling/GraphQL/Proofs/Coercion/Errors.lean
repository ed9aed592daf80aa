import GraphQL.Proofs.Coercion.Typing

/-!
Where coercion finds nothing wrong.

Then there is a value, and only then; what is wrong is found at the path of the value or below it. A
literal without variables is coerced in the same way whatever variables mean. And what was found to be
right while variables were looked at elsewhere stays right with the values of variables, if these fit the
places where they are used.
-/

namespace GraphQL

namespace Literal

variable {items : List Literal} {fields : List (Name × Literal)} {p : Pos}

lemma variableUses_list : (list items p).variableUses = items.flatMap variableUses := by
  rw [variableUses]
  induction items with
  | nil => rfl
  | cons v vs ih => rw [variableUsesOfItems, ih, List.flatMap_cons]

lemma variableUses_object : (object fields p).variableUses = fields.flatMap (·.2.variableUses) := by
  rw [variableUses]
  induction fields with
  | nil => rfl
  | cons f fs ih => rw [variableUsesOfFields, ih, List.flatMap_cons]

end Literal

namespace Coerced

variable {α β : Type} {c : Coerced α} {path : Path}

@[simp] lemma errors_map (f : α → β) : (c.map f).errors = c.errors := rfl

/-- Either there is a value, or something is wrong. -/
def IsDecided (c : Coerced α) : Prop := c.errors = [] → c.value?.isSome

namespace IsDecided

lemma ok (a : α) : IsDecided (.ok a) := fun _ => rfl

lemma error (cause : CoercionErrorCause) (p : Pos) (path : Path) :
    IsDecided (.error cause p path : Coerced α) := by simp [IsDecided, Coerced.error]

lemma map {f : α → β} (h : c.IsDecided) : (c.map f).IsDecided := fun he => by
  rw [Coerced.map, Option.isSome_map]
  exact h he

lemma all {cs : List (Coerced α)} (h : ∀ c ∈ cs, c.IsDecided) : (Coerced.all cs).IsDecided := by
  intro he
  rw [all_errors_eq_nil] at he
  have hvalues : ∃ as, List.Forall₂ (fun c a => c.value? = some a) cs as := by
    induction cs with
    | nil => exact ⟨[], .nil⟩
    | cons c cs ih =>
      obtain ⟨as, has⟩ := ih (fun c' hc => h c' (List.mem_cons_of_mem c hc))
        fun c' hc => he c' (List.mem_cons_of_mem c hc)
      obtain ⟨a, ha⟩ := Option.isSome_iff_exists.mp
        (h c List.mem_cons_self (he c List.mem_cons_self))
      exact ⟨a :: as, .cons ha has⟩
  obtain ⟨as, has⟩ := hvalues
  rw [all_value?_iff.mpr has]
  rfl

/-- The result of a decided coercion is an error only with a reason. -/
lemma error_ne_nil (h : c.IsDecided) {es : List CoercionError} (hr : c.result = .error es) :
    es ≠ [] := by
  obtain ⟨value, errors⟩ := c
  rintro rfl
  cases errors with
  | cons e errors => cases value <;> simp [result] at hr
  | nil =>
    obtain ⟨a, rfl⟩ := Option.isSome_iff_exists.mp (h rfl)
    simp [result] at hr

lemma result_ok (h : c.IsDecided) (he : c.errors = []) : ∃ a, c.result = .ok a := by
  obtain ⟨a, ha⟩ := Option.isSome_iff_exists.mp (h he)
  exact ⟨a, result_ok_iff.mpr ⟨ha, he⟩⟩

end IsDecided

/-- There is a value exactly if nothing is wrong, and what is wrong is so at a path or below it. -/
structure IsSettled (path : Path) (c : Coerced α) : Prop where
  succeeds : c.value?.isSome = true ↔ c.errors = []
  below : ∀ e ∈ c.errors, path <+: e.path

namespace IsSettled

lemma ok (a : α) : IsSettled path (.ok a) :=
  ⟨⟨fun _ => rfl, fun _ => rfl⟩, fun _ he => nomatch he⟩

lemma error (cause : CoercionErrorCause) (p : Pos) :
    IsSettled path (.error cause p path : Coerced α) where
  succeeds := by simp [Coerced.error]
  below e he := by
    obtain rfl := List.mem_singleton.mp he
    exact List.prefix_refl path

lemma map {f : α → β} (h : c.IsSettled path) : (c.map f).IsSettled path :=
  ⟨by rw [Coerced.map, Option.isSome_map]; exact h.succeeds, h.below⟩

/-- What is settled further down is settled. -/
lemma deeper {s : PathSegment} (h : c.IsSettled (path ++ [s])) : c.IsSettled path :=
  ⟨h.succeeds, fun e he => (List.prefix_append path [s]).trans (h.below e he)⟩

lemma all {cs : List (Coerced α)} (h : ∀ c ∈ cs, c.IsSettled path) : (Coerced.all cs).IsSettled path where
  succeeds := by
    induction cs with
    | nil => exact ⟨fun _ => rfl, fun _ => rfl⟩
    | cons c cs ih =>
      obtain ⟨hc, hcs⟩ := List.forall_mem_cons.mp h
      show (c.value?.bind fun a => (Coerced.all cs).value?.map (a :: ·)).isSome = true ↔
        c.errors ++ (Coerced.all cs).errors = []
      rw [List.append_eq_nil_iff, ← hc.succeeds, ← ih hcs]
      cases c.value? <;> simp
  below e he := by
    rw [all_errors] at he
    obtain ⟨c, hc, he⟩ := List.mem_flatMap.mp he
    exact (h c hc).below e he

end IsSettled

end Coerced

namespace CoercionContext

open Coerced (IsDecided IsSettled)

variable {c c' : CoercionContext} {t e : TypeId} {v : Literal} {path path' : Path} {p : Pos}

/-! ### A value or an error -/

lemma leaf_isSettled {text : Except CoercionErrorCause String} : (leaf text p path t).IsSettled path := by
  cases text with
  | ok s => exact .ok _
  | error cause => exact .error cause p

lemma coerceNull_isSettled : (c.coerceNull p path t).IsSettled path := by
  unfold coerceNull
  split
  · exact .error _ _
  · exact .ok _

lemma coerceVariable_isSettled {name : String} : (c.coerceVariable name p path t).IsSettled path := by
  unfold coerceVariable
  split
  · exact .error _ _
  · exact .ok _
  · split
    · exact coerceNull_isSettled
    · exact coerceNull_isSettled
    · exact .ok _

lemma fieldErrors_path {typeName : String} {declared : List InputSpec} {seen : List String}
    {fs : List SuppliedField} {e : CoercionError} (h : e ∈ fieldErrors typeName declared path seen fs) :
    e.path = path := by
  induction fs generalizing seen with
  | nil => cases h
  | cons f fs ih =>
    rw [fieldErrors] at h
    split at h
    · obtain rfl | h := List.mem_cons.mp h
      · rfl
      · exact ih h
    split at h
    · obtain rfl | h := List.mem_cons.mp h
      · rfl
      · exact ih h
    · exact ih h

lemma fieldValue_isSettled {typeName : String} {fields : List (Name × Literal)} {d : InputSpec}
    (h : ∀ f ∈ fields, ∀ path t, (coerce c f.2 path t).IsSettled path) :
    (c.fieldValue typeName (suppliedFields c fields) p path d).IsSettled path := by
  cases hg : c.given fields d.name with
  | some v =>
    obtain ⟨⟨f, hf, -, rfl⟩, -⟩ := given_spec hg
    rw [fieldValue_given hg]
    exact (h f hf _ _).deeper.map
  | none =>
    rw [fieldValue_missing hg]
    split
    · exact .error _ _
    · exact .ok _

lemma inputObject_isSettled {typeName : String} {declared : List InputSpec} {supplied : List SuppliedField}
    (h : ∀ d, (c.fieldValue typeName supplied p path d).IsSettled path) :
    (c.inputObject typeName declared supplied p path t).IsSettled path := by
  have hfields : (Coerced.all (declared.map (c.fieldValue typeName supplied p path))).IsSettled path :=
    .all fun r hr => by
      obtain ⟨d, -, rfl⟩ := List.mem_map.mp hr
      exact h d
  refine ⟨?_, fun e he => ?_⟩
  · unfold inputObject
    dsimp only
    split
    · rename_i hempty
      have herrors := List.isEmpty_iff.mp hempty
      rw [Option.isSome_map, hfields.succeeds, herrors]
      exact ⟨fun _ => rfl, fun _ => (List.append_eq_nil_iff.mp herrors).2⟩
    · rename_i hne
      rw [List.isEmpty_iff] at hne
      exact iff_of_false Bool.false_ne_true hne
  · obtain he | he := List.mem_append.mp he
    · exact (fieldErrors_path he).symm ▸ List.prefix_refl _
    · exact hfields.below e he

lemma atNamed_isSettled {supplied : List SuppliedField}
    (h : ∀ typeName d, (c.fieldValue typeName supplied v.pos path d).IsSettled path) :
    (c.atNamed v supplied path t).IsSettled path := by
  unfold atNamed
  split
  · exact .error _ _
  split
  · exact .error _ _
  · split
    · exact leaf_isSettled
    · exact .error _ _
  · exact leaf_isSettled
  · split
    · exact inputObject_isSettled fun d => h _ d
    · exact .error _ _

lemma fieldValue_nil_isSettled {typeName : String} {d : InputSpec} :
    (c.fieldValue typeName [] p path d).IsSettled path := by
  have hnone : ∀ f ∈ ([] : List (Name × Literal)), ∀ path t, (coerce c f.2 path t).IsSettled path := by
    simp
  exact fieldValue_isSettled hnone

lemma coerce_isSettled (v : Literal) (path : Path) (t : TypeId) : (coerce c v path t).IsSettled path := by
  induction v using Literal.induct generalizing path t with
  | null p =>
    rw [coerce]
    exact coerceNull_isSettled
  | var name p =>
    rw [coerce]
    exact coerceVariable_isSettled
  | scalar kind text p =>
    rw [coerce]
    exact (atNamed_isSettled fun _ _ => fieldValue_nil_isSettled).map
  | list items p ih =>
    rw [coerce]
    dsimp only
    split
    · refine (IsSettled.all fun r hr => ?_).map
      rw [coerceItems_eq] at hr
      obtain ⟨⟨u, n⟩, hu, rfl⟩ := List.mem_map.mp hr
      refine .deeper (s := .index n) ?_
      unfold coerceItem
      split
      · exact coerceNull_isSettled
      · exact ih u (List.fst_mem_of_mem_zipIdx hu) _ _
    · exact atNamed_isSettled fun _ _ => fieldValue_nil_isSettled
  | object fields p ih =>
    rw [coerce]
    exact (atNamed_isSettled fun _ _ => fieldValue_isSettled fun f hf path t => ih f hf path t).map

lemma coerceDeclared_isSettled (t : TypeRef) (path : Path) (v : Literal) :
    (c.coerceDeclared t path v).IsSettled path := by
  induction t generalizing path v with
  | named n =>
    rw [coerceDeclared]
    split
    · exact coerce_isSettled v path _
    · exact .error _ _
  | nonNull t p ih =>
    rw [coerceDeclared]
    split
    · exact .error _ _
    · exact (ih path v).map
  | list t p ih =>
    rw [coerceDeclared]
    split
    · exact .error _ _
    · split
      · exact .ok _
      · refine (IsSettled.all fun r hr => ?_).map
        obtain ⟨⟨u, n⟩, hu, rfl⟩ := List.mem_map.mp hr
        exact (ih _ u).deeper
      · exact (ih path _).map

/-- **Decision**: a literal either has a value, or something is wrong with it. -/
theorem coerce_isDecided (v : Literal) (path : Path) (t : TypeId) : (coerce c v path t).IsDecided :=
  (coerce_isSettled v path t).succeeds.mpr

theorem coerceDeclared_isDecided (t : TypeRef) (path : Path) (v : Literal) :
    (c.coerceDeclared t path v).IsDecided :=
  (coerceDeclared_isSettled t path v).succeeds.mpr

/-! ### Without variables -/

lemma isAbsent_of_noVariables (h : v.variableUses = []) : c.isAbsent v = false := by
  cases v with
  | var name p => rw [Literal.variableUses] at h; cases h
  | _ => rfl

lemma given_of_present {fields : List (Name × Literal)} {name : String}
    (h : ∀ f ∈ fields, c.isAbsent f.2 = false) :
    c.given fields name = (fields.find? fun f => f.1.text == name).map (·.2) := by
  unfold given
  cases hfind : fields.find? fun f => f.1.text == name with
  | none => rfl
  | some f => simp [Option.filter, h f (List.mem_of_find?_eq_some hfind)]

section

variable {scope : VariableScope} {items : List Literal} {fields : List (Name × Literal)}

lemma coerceItem_scope (h : v.variableUses = [])
    (hv : coerce { c with scope := scope } v = coerce c v) :
    coerceItem { c with scope := scope } v = c.coerceItem v := by
  funext path e
  unfold coerceItem
  rw [isAbsent_of_noVariables h, isAbsent_of_noVariables h, hv]
  rfl

lemma suppliedFields_scope (hv : ∀ f ∈ fields, coerce { c with scope := scope } f.2 = coerce c f.2) :
    suppliedFields { c with scope := scope } fields = suppliedFields c fields := by
  rw [suppliedFields_eq, suppliedFields_eq]
  exact List.map_congr_left fun f hf => by rw [hv f hf]

lemma fieldValue_scope (typeName : String) (h : ∀ f ∈ fields, f.2.variableUses = [])
    (hv : ∀ f ∈ fields, coerce { c with scope := scope } f.2 = coerce c f.2) :
    fieldValue { c with scope := scope } typeName (suppliedFields c fields)
      = c.fieldValue typeName (suppliedFields c fields) := by
  funext p path d
  have hgiven : c.given fields d.name = _ :=
    given_of_present fun f hf => isAbsent_of_noVariables (h f hf)
  have hgiven' : given { c with scope := scope } fields d.name = _ :=
    given_of_present fun f hf => isAbsent_of_noVariables (h f hf)
  cases hfind : fields.find? fun f => f.1.text == d.name with
  | none =>
    rw [hfind] at hgiven hgiven'
    rw [fieldValue_missing hgiven, ← suppliedFields_scope hv, fieldValue_missing hgiven']
  | some f =>
    rw [hfind] at hgiven hgiven'
    rw [fieldValue_given hgiven, ← suppliedFields_scope hv, fieldValue_given hgiven',
      hv f (List.mem_of_find?_eq_some hfind)]

end

/-- What a literal without variables comes to does not depend on what variables mean. -/
lemma coerce_scope (scope : VariableScope) (v : Literal) (h : v.variableUses = []) :
    coerce { c with scope := scope } v = coerce c v := by
  induction v using Literal.induct with
  | null p => rw [coerce, coerce]; rfl
  | var name p => rw [Literal.variableUses] at h; cases h
  | scalar kind text p => rw [coerce, coerce]; rfl
  | list items p ih =>
    rw [Literal.variableUses_list, List.flatMap_eq_nil_iff] at h
    have hitems (path : Path) (e : TypeId) :
        coerceItems { c with scope := scope } path e 0 items = coerceItems c path e 0 items := by
      rw [coerceItems_eq, coerceItems_eq]
      refine List.map_congr_left fun x hx => ?_
      have hmem := List.fst_mem_of_mem_zipIdx hx
      rw [coerceItem_scope (h _ hmem) (ih _ hmem (h _ hmem))]
    rw [coerce, coerce]
    funext path t
    simp only [hitems]
    rfl
  | object fields p ih =>
    rw [Literal.variableUses_object, List.flatMap_eq_nil_iff] at h
    have hv : ∀ f ∈ fields, coerce { c with scope := scope } f.2 = coerce c f.2 :=
      fun f hf => ih f hf (h f hf)
    have hobject (typeName : String) (declared : List InputSpec) :
        inputObject { c with scope := scope } typeName declared (suppliedFields c fields)
          = c.inputObject typeName declared (suppliedFields c fields) := by
      unfold inputObject
      rw [fieldValue_scope typeName h hv]
    rw [coerce, coerce, suppliedFields_scope hv]
    funext path t
    unfold lone atNamed
    simp only [hobject]
    rfl

/-! ### With variables and without -/

lemma leaf_errors {text : Except CoercionErrorCause String} {q : Pos} {t' : TypeId}
    (h : (leaf text p path t).errors = []) : (leaf text q path' t').errors = [] := by
  cases text with
  | ok s => rfl
  | error cause => simp [leaf, Coerced.error] at h

lemma lone_errors {coercer coercer' : Coercer} (hs : c'.schema = c.schema)
    (h : (c.lone coercer path t).errors = [])
    (hc : (coercer path (c.schema.registry.layers t).2).errors = [] →
      (coercer' path' (c.schema.registry.layers t).2).errors = []) :
    (c'.lone coercer' path' t).errors = [] := by
  unfold lone at h ⊢
  rw [hs]
  exact hc h

lemma fieldErrors_names {typeName : String} {declared : List InputSpec} {seen : List String}
    {fs gs : List SuppliedField} (hnames : fs.map (·.name.text) = gs.map (·.name.text))
    (h : fieldErrors typeName declared path seen fs = []) :
    fieldErrors typeName declared path' seen gs = [] := by
  rw [fieldErrors_eq_nil_iff] at h ⊢
  rwa [← hnames]

lemma suppliedFields_names (c : CoercionContext) (fields : List (Name × Literal)) :
    (suppliedFields c fields).map (·.name) = fields.map (·.1) := by
  rw [suppliedFields_eq, List.map_map]
  rfl

/-- What is wrong at a named type does not depend on variables, apart from the fields of objects. -/
lemma atNamed_errors {supplied supplied' : List SuppliedField} (hs : c'.schema = c.schema)
    (hj : c'.fromJson = c.fromJson) (hnames : supplied.map (·.name) = supplied'.map (·.name))
    (hfields : ∀ n declared d, c.schema.named? t = some n → n.inputFields? = some declared →
      d ∈ declared → (c.fieldValue n.name supplied v.pos path d).errors = [] →
        (c'.fieldValue n.name supplied' v.pos path' d).errors = [])
    (h : (c.atNamed v supplied path t).errors = []) :
    (c'.atNamed v supplied' path' t).errors = [] := by
  unfold atNamed at h ⊢
  rw [hs]
  split at h
  · simp [Coerced.error] at h
  rename_i n hn
  split at h
  · simp [Coerced.error] at h
  · split at h
    · have htext (kind : LiteralKind) (text : String) (builtin : Option BuiltinScalar)
          (u : Literal) : c'.scalarText n.name builtin kind text u
            = c.scalarText n.name builtin kind text u := by simp only [scalarText, hj]
      rw [htext]
      exact leaf_errors h
    · simp [Coerced.error] at h
  · have htext (values : List EnumValueSpec) : c'.enumText n.name values v
        = c.enumText n.name values v := by simp only [enumText, hj]
    rw [htext]
    exact leaf_errors h
  · rename_i declared hbody
    split at h
    · obtain ⟨hunknown, hall⟩ := List.append_eq_nil_iff.mp h
      have htexts : supplied.map (·.name.text) = supplied'.map (·.name.text) := by
        simpa [Function.comp_def] using congrArg (List.map Name.text) hnames
      refine List.append_eq_nil_iff.mpr ⟨fieldErrors_names htexts hunknown, ?_⟩
      rw [Coerced.all_errors_eq_nil] at hall ⊢
      intro r hr
      obtain ⟨d, hd, rfl⟩ := List.mem_map.mp hr
      refine hfields n declared d hn (by simp [NamedType.inputFields?, hbody]) hd ?_
      exact hall _ (List.mem_map.mpr ⟨d, hd, rfl⟩)
    · simp [Coerced.error] at h

/-- A variable that has no value only stands where null is let through, and no value is null. -/
def VariablesFit (c : CoercionContext) (vars : Variables) (v : Literal) (t : TypeId)
    (hasDefault : Bool) : Prop :=
  ∀ name l b, UsesVariable c.schema v t hasDefault name l b →
    vars.lookup name = none → l.isNonNull = false

/-- The context in which variables have values. -/
def withVariables (c : CoercionContext) (vars : Variables) : CoercionContext :=
  { c with scope := .bound vars }

lemma isAbsent_var {vars : Variables} (h : (c.withVariables vars).isAbsent v = true) :
    ∃ name q, v = .var name q ∧ vars.lookup name = none := by
  cases v with
  | var name q => exact ⟨name, q, rfl, by simpa [isAbsent, withVariables] using h⟩
  | _ => simp [isAbsent] at h

lemma isAbsent_of_unchecked (h : c.scope = .unchecked) (v : Literal) : c.isAbsent v = false := by
  unfold isAbsent
  rw [h]
  cases v <;> rfl

lemma given_unchecked (h : c.scope = .unchecked) (fields : List (Name × Literal)) (name : String) :
    c.given fields name = (fields.find? fun f => f.1.text == name).map (·.2) :=
  given_of_present fun f _ => isAbsent_of_unchecked h f.2

/-- A field that is left out, or whose variable has no value, is not required. -/
lemma fieldValue_missing_errors {vars : Variables} {fields : List (Name × Literal)} {d : InputSpec}
    {typeName : String} (hs : c.scope = .unchecked)
    (hfit : ∀ f ∈ fields, f.1.text = d.name → ∀ name q, f.2 = .var name q →
      vars.lookup name = none → d.type.isNonNull = false)
    (hmissing : (c.withVariables vars).given fields d.name = none)
    (h : (c.fieldValue typeName (suppliedFields c fields) p path d).errors = []) :
    ((c.withVariables vars).fieldValue typeName (suppliedFields (c.withVariables vars) fields) p path'
      d).errors = [] := by
  have hreq : d.isRequired = false := by
    cases hfind : fields.find? fun f => f.1.text == d.name with
    | none =>
      have hnone : c.given fields d.name = none := by rw [given_unchecked hs, hfind, Option.map_none]
      rw [fieldValue_missing hnone] at h
      split at h
      · simp [Coerced.error] at h
      · rename_i hreq
        exact Bool.eq_false_of_not_eq_true hreq
    | some f =>
      have habsent : (c.withVariables vars).isAbsent f.2 = true := by
        simpa [given, hfind, Option.filter] using hmissing
      obtain ⟨name, q, hvar, hlookup⟩ := isAbsent_var habsent
      have hname : f.1.text = d.name := by simpa using List.find?_some hfind
      have hnull := hfit f (List.mem_of_find?_eq_some hfind) hname name q hvar hlookup
      simp [InputSpec.isRequired, hnull]
  rw [fieldValue_missing hmissing, hreq]
  rfl

section

variable {vars : Variables} {items : List Literal} {fields : List (Name × Literal)} {d : InputSpec}
  {hasDefault : Bool}

/-- Nothing is wrong with a literal when variables have values, if nothing is wrong with it wherever they
are left aside and they fit where they are used. -/
def Agrees (c : CoercionContext) (vars : Variables) (v : Literal) : Prop :=
  ∀ t path path' hasDefault, c.VariablesFit vars v t hasDefault →
    (c.withVariables vars).isAbsent v = false → (coerce c v path t).errors = [] →
      (coerce (c.withVariables vars) v path' t).errors = []

/-- A literal that gives no fields is as wrong at a named type as it is without variables. -/
lemma atNamed_nil_errors (hs : c.scope = .unchecked) (h : (c.atNamed v [] path t).errors = []) :
    ((c.withVariables vars).atNamed v [] path' t).errors = [] := by
  refine atNamed_errors rfl rfl rfl (fun n declared d _ _ _ hd => ?_) h
  rw [show ([] : List SuppliedField) = suppliedFields (c.withVariables vars) [] from rfl]
  exact fieldValue_missing_errors hs (by simp) rfl hd

lemma coerceNull_errors (h : (c.coerceNull p path t).errors = []) :
    ((c.withVariables vars).coerceNull p path' t).errors = [] := by
  unfold coerceNull at h ⊢
  split at h
  · simp [Coerced.error] at h
  · rename_i ht
    rw [if_neg ht]
    rfl

/-- A variable that has a value, and not null, is taken as it is. -/
lemma coerceVariable_errors {name : String}
    (hnull : ∀ name u, vars.lookup name = some u → u.isNull = false)
    (hpresent : (c.withVariables vars).isAbsent (.var name p) = false) :
    ((c.withVariables vars).coerceVariable name p path t).errors = [] := by
  obtain ⟨u, hu⟩ := Option.isSome_iff_exists.mp
    (show (vars.lookup name).isSome by simpa [isAbsent, withVariables] using hpresent)
  have hsome := hnull name u hu
  unfold coerceVariable withVariables
  cases u with
  | null k => simp [Value.isNull] at hsome
  | _ => simp [hu, Coerced.ok]

/-- An item whose variable has no value stands for null; any other item is coerced. -/
lemma coerceItem_errors (hs : c.scope = .unchecked) (hv : c.Agrees vars v)
    (hfit : c.VariablesFit vars v e false) (h : (c.coerceItem v path e).errors = []) :
    ((c.withVariables vars).coerceItem v path' e).errors = [] := by
  unfold coerceItem at h ⊢
  rw [isAbsent_of_unchecked hs] at h
  split
  · rename_i habsent
    obtain ⟨name, q, rfl, hlookup⟩ := isAbsent_var habsent
    have hnullable := hfit name e false .here hlookup
    simp [coerceNull, hnullable, Coerced.ok]
  · rename_i hpresent
    exact hv e path path' false hfit (Bool.eq_false_of_not_eq_true hpresent) h

/-- A field whose variable has no value counts as left out; any other field that is given is coerced. -/
lemma fieldValue_errors {typeName : String} (hs : c.scope = .unchecked)
    (hv : ∀ f ∈ fields, c.Agrees vars f.2)
    (hfit : ∀ f ∈ fields, f.1.text = d.name → c.VariablesFit vars f.2 d.type d.default?.isSome)
    (h : (c.fieldValue typeName (suppliedFields c fields) p path d).errors = []) :
    ((c.withVariables vars).fieldValue typeName (suppliedFields (c.withVariables vars) fields) p path'
      d).errors = [] := by
  cases hg : (c.withVariables vars).given fields d.name with
  | none =>
    refine fieldValue_missing_errors hs (fun f hf hname name q hvar hlookup => ?_) hg h
    refine hfit f hf hname name d.type d.default?.isSome ?_ hlookup
    rw [hvar]
    exact .here
  | some u =>
    obtain ⟨⟨f, hf, hname, rfl⟩, hpresent⟩ := given_spec hg
    have hg' : c.given fields d.name = some f.2 := by
      rw [given_unchecked hs]
      exact (Option.filter_eq_some_iff.mp hg).1
    rw [fieldValue_given hg', Coerced.errors_map] at h
    rw [fieldValue_given hg, Coerced.errors_map]
    exact hv f hf d.type _ _ d.default?.isSome (hfit f hf hname) hpresent h

lemma VariablesFit.item (h : c.VariablesFit vars (.list items p) t hasDefault)
    (he : c.schema.element? t = some e) (hv : v ∈ items) : c.VariablesFit vars v e false :=
  fun name l b huses => h name l b (.item he hv huses)

lemma VariablesFit.field {n : NamedType} {declared : List InputSpec} {f : Name × Literal}
    (h : c.VariablesFit vars (.object fields p) t hasDefault) (hn : c.schema.named? t = some n)
    (hdeclared : n.inputFields? = some declared) (hd : d ∈ declared) (hf : f ∈ fields)
    (hname : f.1.text = d.name) : c.VariablesFit vars f.2 d.type d.default?.isSome :=
  fun name l b huses => h name l b (.field hn hdeclared hd hf hname huses)

/-- **Agreement**: a literal with which nothing is wrong wherever variables are left aside has nothing
wrong with it when they have values, if these are not null and fit where they are used. -/
theorem coerce_agrees (hr : c.schema.registry.WellFormed) (hs : c.scope = .unchecked)
    (hnull : ∀ name u, vars.lookup name = some u → u.isNull = false) (v : Literal) :
    c.Agrees vars v := by
  intro t path path' hasDefault hfit hpresent h
  induction v using Literal.induct generalizing t hasDefault path path' with
  | null p =>
    rw [coerce] at h ⊢
    exact coerceNull_errors h
  | var name p =>
    rw [coerce]
    exact coerceVariable_errors hnull hpresent
  | scalar kind text p =>
    rw [coerce] at h ⊢
    exact lone_errors rfl h (atNamed_nil_errors hs)
  | list items p ih =>
    rw [coerce] at h ⊢
    dsimp only at h ⊢
    cases he : c.schema.element? t with
    | none =>
      rw [he] at h
      rw [show (c.withVariables vars).schema.element? t = none from he]
      exact atNamed_nil_errors hs h
    | some e =>
      rw [he] at h
      rw [show (c.withVariables vars).schema.element? t = some e from he]
      dsimp only at h ⊢
      rw [Coerced.errors_map, coerceItems_eq, Coerced.all_errors_eq_nil] at h ⊢
      intro r hmem
      obtain ⟨⟨u, n⟩, hun, rfl⟩ := List.mem_map.mp hmem
      have hu : u ∈ items := List.fst_mem_of_mem_zipIdx hun
      exact coerceItem_errors hs (ih u hu) (hfit.item he hu)
        (h _ (List.mem_map.mpr ⟨⟨u, n⟩, hun, rfl⟩))
  | object fields p ih =>
    rw [coerce] at h ⊢
    refine lone_errors rfl h fun h => ?_
    refine atNamed_errors (c := c) rfl rfl ?_ (fun n declared d hn hdeclared hd hfield => ?_) h
    · rw [suppliedFields_names, suppliedFields_names]
    · have hn : c.schema.named? t = some n := (named?_base hr t).symm.trans hn
      exact fieldValue_errors hs ih (fun f hf hname => hfit.field hn hdeclared hd hf hname) hfield

end

end CoercionContext

end GraphQL
