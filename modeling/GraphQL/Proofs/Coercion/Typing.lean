import GraphQL.Proofs.Coercion.Parts
import GraphQL.Proofs.Value.WellTyped

/-!
Coercion makes well-typed values.

What a literal says is checked when it is coerced. What it leaves out comes from the declarations, so
that a value is well typed exactly if that is.
-/

namespace GraphQL

namespace CoercionContext

variable {c : CoercionContext} {t e base : TypeId} {v : Literal} {w : Value} {path : Path}

/-! ### Leaves -/

lemma coerceInt_legal {fromJson : Bool} {kind : LiteralKind} {text result : String}
    (h : coerceInt fromJson kind text v = .ok result) :
    ∃ k : Int, Reading.inInt32 k = true ∧ result = toString k := by
  unfold coerceInt at h
  split at h
  · split at h
    · rename_i n hn
      exact ⟨n, (Option.filter_eq_some_iff.mp hn).2, (Except.ok.inj h).symm⟩
    · simp at h
  · split at h
    · simp at h
    · split at h
      · simp at h
      · split at h
        · rename_i n hn hr
          exact ⟨n, hr, (Except.ok.inj h).symm⟩
        · simp at h
  · simp at h

lemma coerceFloat_legal {kind : LiteralKind} {text result : String}
    (h : coerceFloat kind text v = .ok result) :
    ∃ x, Reading.float? text = some x ∧ x.isFinite = true ∧ result = Layout.plain.render x := by
  unfold coerceFloat at h
  split at h
  on_goal 3 => simp at h
  all_goals
    split at h
    · simp at h
    · split at h
      · rename_i x hx hf
        exact ⟨x, hx, hf, (Except.ok.inj h).symm⟩
      · simp at h

/-- The text of a scalar is legal for its type. Booleans are taken as they are written. -/
lemma scalarText_legal {n : NamedType} {builtin : Option BuiltinScalar} {kind : LiteralKind}
    {text result : String} (hbody : n.body = .scalar builtin)
    (hproper : kind = .boolean → text = "true" ∨ text = "false")
    (h : c.scalarText n.name builtin kind text v = .ok result) : n.IsLegalText result := by
  obtain ⟨name, description, body⟩ := n
  cases hbody
  unfold scalarText at h
  rcases builtin with _ | _ | _ | _ | _ | _
  · trivial
  · exact coerceInt_legal h
  · obtain ⟨x, -, hx, rfl⟩ := coerceFloat_legal h
    exact ⟨x, hx, rfl⟩
  · trivial
  · dsimp only at h
    split at h
    · rename_i hk
      exact Except.ok.inj h ▸ hproper hk
    · simp at h
  · trivial

lemma enumText_legal {n : NamedType} {values : List EnumValueSpec} {result : String}
    (hbody : n.body = .enum values) (h : c.enumText n.name values v = .ok result) :
    n.IsLegalText result := by
  obtain ⟨name, description, body⟩ := n
  cases hbody
  unfold enumText at h
  extract_lets name? at h
  cases hname : name? with
  | none => simp [hname] at h
  | some text =>
    rw [hname] at h
    dsimp only at h
    split at h
    · rename_i hany
      obtain ⟨e, he, heq⟩ := List.any_eq_true.mp hany
      exact ⟨e, he, (beq_iff_eq.mp heq).trans (Except.ok.inj h)⟩
    · simp at h

lemma leaf_value? {text : Except CoercionErrorCause String} {p : Pos}
    (h : (leaf text p path t).value? = some w) : ∃ s, text = .ok s ∧ w = .scalar t s := by
  cases text with
  | error cause => simp [leaf, Coerced.error] at h
  | ok s => exact ⟨s, rfl, (Option.some.inj h).symm⟩

/-! ### Values of named types -/

lemma coerceNull_value? {p : Pos} (h : (c.coerceNull p path t).value? = some w) :
    w = .null t ∧ t.isNonNull = false := by
  unfold coerceNull at h
  split at h
  · simp [Coerced.error] at h
  · rename_i ht
    exact ⟨(Option.some.inj h).symm, Bool.eq_false_of_not_eq_true ht⟩

lemma lone_value? {coerce : Coercer} (h : (c.lone coerce path t).value? = some w) :
    ∃ u, (coerce path (c.schema.registry.layers t).2).value? = some u ∧
      w = (c.schema.registry.layers t).1.foldr (fun l inner => .list l [inner]) u := by
  obtain ⟨u, hu, rfl⟩ := Option.map_eq_some_iff.mp h
  exact ⟨u, hu, rfl⟩

lemma atNamed_scalar_value? {kind : LiteralKind} {text : String} {p : Pos}
    (hs : c.schema.element? t = none) (hv : (Literal.scalar kind text p).IsProper)
    (h : (c.atNamed (.scalar kind text p) [] path t).value? = some w) : WellTyped c.schema t w := by
  unfold atNamed at h
  split at h
  · simp [Coerced.error] at h
  rename_i n hn
  split at h
  · simp [Coerced.error] at h
  · rename_i builtin hbody
    obtain ⟨result, htext, rfl⟩ := leaf_value? h
    refine .scalar hs ⟨n, hn, scalarText_legal hbody ?_ htext⟩
    rintro rfl
    exact hv.boolean
  · rename_i values hbody
    obtain ⟨result, htext, rfl⟩ := leaf_value? h
    exact .scalar hs ⟨n, hn, enumText_legal hbody htext⟩
  · simp [Coerced.error] at h

lemma atNamed_list_value? {items : List Literal} {p : Pos} :
    (c.atNamed (.list items p) [] path t).value? = none := by
  unfold atNamed
  split
  · rfl
  split <;> rfl

/-- An object literal only has a value at an input object, with a part for each of its fields. -/
lemma atNamed_object_value? {fields : List (Name × Literal)} {supplied : List SuppliedField} {p : Pos}
    (h : (c.atNamed (.object fields p) supplied path t).value? = some w) :
    ∃ n declared parts, c.schema.named? t = some n ∧ n.inputFields? = some declared ∧
      w = .object t parts ∧
      List.Forall₂ (fun d f => (c.fieldValue n.name supplied p path d).value? = some f)
        declared parts := by
  unfold atNamed at h
  split at h
  · simp [Coerced.error] at h
  rename_i n hn
  split at h
  · simp [Coerced.error] at h
  · simp [Coerced.error] at h
  · obtain ⟨result, htext, -⟩ := leaf_value? h
    simp [enumText] at htext
  · rename_i declared hbody
    unfold inputObject at h
    dsimp only at h
    split at h
    · obtain ⟨parts, hparts, rfl⟩ := Option.map_eq_some_iff.mp h
      refine ⟨n, declared, parts, hn, by simp [NamedType.inputFields?, hbody], rfl, ?_⟩
      exact Coerced.all_map_value?_iff.mp hparts
    · simp at h

section

variable {typeName : String} {fields : List (Name × Literal)} {p : Pos} {d : InputSpec}
  {f : String × Value}

/-- A field that is left out has a value only where it may be: the one that its declaration says. -/
lemma fieldValue_missing_value? (hg : c.given fields d.name = none)
    (h : (c.fieldValue typeName (suppliedFields c fields) p path d).value? = some f) :
    d.isRequired = false ∧ f = (d.name, d.fallback) := by
  rw [fieldValue_missing hg] at h
  split at h
  · simp [Coerced.error] at h
  · rename_i hreq
    exact ⟨Bool.eq_false_of_not_eq_true hreq, (Option.some.inj h).symm⟩

/-- A field that is given has the value that its literal comes to. -/
lemma fieldValue_given_value? (hg : c.given fields d.name = some v)
    (h : (c.fieldValue typeName (suppliedFields c fields) p path d).value? = some f) :
    ∃ w, (coerce c v (path ++ [.key d.name]) d.type).value? = some w ∧ f = (d.name, w) := by
  rw [fieldValue_given hg] at h
  obtain ⟨w, hw, rfl⟩ := Option.map_eq_some_iff.mp h
  exact ⟨w, hw, rfl⟩

end

/-- An item is null, for a variable without a value, or what its literal comes to. -/
lemma coerceItem_value? (h : (c.coerceItem v path e).value? = some w) :
    (w = .null e ∧ e.isNonNull = false) ∨
      (c.isAbsent v = false ∧ (coerce c v path e).value? = some w) := by
  unfold coerceItem at h
  split at h
  · exact .inl (coerceNull_value? h)
  · rename_i hpresent
    exact .inr ⟨Bool.eq_false_of_not_eq_true hpresent, h⟩

/-! ### Values of all types -/

lemma named?_base (hr : c.schema.registry.WellFormed) (t : TypeId) :
    c.schema.named? (c.schema.registry.layers t).2 = c.schema.named? t := by
  rw [Schema.named?, Schema.named?, TypeRegistry.innermost_base hr]

/-- What holds of null and of the leaves, and of lists and objects if it holds of their parts, for all
literals that are good. -/
structure Compositional (c : CoercionContext) (Good : Literal → Prop) (P : TypeId → Value → Prop) : Prop where
  item {items : List Literal} {p : Pos} (good : Good (.list items p)) : ∀ v ∈ items, Good v
  field {fields : List (Name × Literal)} {p : Pos} (good : Good (.object fields p)) : ∀ f ∈ fields, Good f.2
  null {t : TypeId} (nullable : t.isNonNull = false) : P t (.null t)
  leaf {kind : LiteralKind} {text : String} {p : Pos} {path : Path} {t : TypeId} {w : Value}
    (good : Good (.scalar kind text p)) (single : c.schema.element? t = none)
    (coerced : (c.atNamed (.scalar kind text p) [] path t).value? = some w) : P t w
  list {t e : TypeId} {items : List Value} (element : c.schema.element? t = some e)
    (holds : ∀ v ∈ items, P e v) : P t (.list t items)
  object {t : TypeId} {n : NamedType} {declared : List InputSpec} {fields : List (String × Value)}
    (single : c.schema.element? t = none) (named : c.schema.named? t = some n)
    (isInput : n.inputFields? = some declared)
    (holds : List.Forall₂ (fun d f => d.name = f.1 ∧ P d.type f.2) declared fields) : P t (.object t fields)

section Compositional

variable {Good : Literal → Prop} {P : TypeId → Value → Prop}

/-- A value below list layers, with lists of one around it. -/
lemma Compositional.layers (hP : c.Compositional Good P) (hr : c.schema.registry.WellFormed)
    (h : P (c.schema.registry.layers t).2 w) :
    P t ((c.schema.registry.layers t).1.foldr (fun l inner => .list l [inner]) w) := by
  induction t using TypeRegistry.typeInduction hr with
  | single t ht => rwa [TypeRegistry.layers_single ht] at h ⊢
  | list t e ht ih =>
    rw [TypeRegistry.layers_list hr ht] at h ⊢
    exact hP.list ht (by simpa using ih h)

/-- **Induction along coercion**: what is passed on from parts to values holds of a coerced literal if it
holds of its variables and of the declarations of the fields that it leaves out. -/
theorem Compositional.coerce (hP : c.Compositional Good P) (hr : c.schema.registry.WellFormed) (hv : Good v)
    (hasDefault : Bool) (h : (CoercionContext.coerce c v path t).value? = some w)
    (hvars : ∀ name l b, UsesVariable c.schema v t hasDefault name l b → ∀ p path u,
      (c.coerceVariable name p path l).value? = some u → P l u)
    (hleft : ∀ n d, LeavesOut c v t n d → d.isRequired = false → P d.type d.fallback) : P t w := by
  induction v using Literal.induct generalizing t hasDefault path w with
  | null p =>
    obtain ⟨rfl, ht⟩ := coerceNull_value? (by rwa [CoercionContext.coerce] at h)
    exact hP.null ht
  | var name p => exact hvars name t hasDefault .here p path w (by rwa [CoercionContext.coerce] at h)
  | scalar kind text p =>
    rw [CoercionContext.coerce] at h
    obtain ⟨u, hu, rfl⟩ := lone_value? h
    exact hP.layers hr (hP.leaf hv (TypeRegistry.element?_base hr t) hu)
  | list items p ih =>
    rw [CoercionContext.coerce] at h
    dsimp only at h
    split at h
    · rename_i e he
      obtain ⟨ws, hws, rfl⟩ := Option.map_eq_some_iff.mp h
      rw [coerceItems_eq, Coerced.all_map_value?_iff] at hws
      refine hP.list he fun w hw => ?_
      obtain ⟨⟨u, n⟩, hu, huw⟩ := forall₂_exists_left hws hw
      have hmem : u ∈ items := List.fst_mem_of_mem_zipIdx hu
      obtain ⟨rfl, hnull⟩ | ⟨hpresent, huw⟩ := coerceItem_value? huw
      · exact hP.null hnull
      · exact ih u hmem (hP.item hv u hmem) false huw
          (fun name l b hu => hvars name l b (.item he hmem hu))
          fun n d hd => hleft n d (.item he hmem hpresent hd)
    · simp [atNamed_list_value?] at h
  | object fields p ih =>
    rw [CoercionContext.coerce] at h
    obtain ⟨u, hu, rfl⟩ := lone_value? h
    obtain ⟨n, declared, parts, hn, hd, rfl, hparts⟩ := atNamed_object_value? hu
    have hn' : c.schema.named? t = some n := (named?_base hr t).symm.trans hn
    obtain ⟨hlen, hzip⟩ := List.forall₂_iff_zip.mp hparts
    refine hP.layers hr (hP.object (TypeRegistry.element?_base hr t) hn hd ?_)
    refine List.forall₂_iff_zip.mpr ⟨hlen, fun {d f} hmem => ?_⟩
    have hdmem : d ∈ declared := (List.of_mem_zip hmem).1
    cases hg : c.given fields d.name with
    | none =>
      obtain ⟨hreq, rfl⟩ := fieldValue_missing_value? hg (hzip hmem)
      exact ⟨rfl, hleft n.name d (.here hn' hd hdmem hg) hreq⟩
    | some v =>
      obtain ⟨w, hw, rfl⟩ := fieldValue_given_value? hg (hzip hmem)
      obtain ⟨⟨f, hfmem, hname, rfl⟩, -⟩ := given_spec hg
      exact ⟨rfl, ih f hfmem (hP.field hv f hfmem) _ hw
        (fun name l b hu => hvars name l b (.field hn' hd hdmem hfmem hname hu))
        fun m e he => hleft m e (.field hn' hd hdmem hg he)⟩

end Compositional

lemma wellTyped_compositional (c : CoercionContext) : c.Compositional Literal.IsProper (WellTyped c.schema) where
  item hv _ := hv.item
  field hv _ := hv.field
  null := .null
  leaf hv single := atNamed_scalar_value? single hv
  list := .list
  object {t n declared fields} single named isInput parts := by
    have hinput : c.schema.inputTypes? t = some (declared.map fun d => (d.name, d.type)) := by
      simp [Schema.inputTypes?, named, isInput]
    rwa [Schema.wellTyped_object_iff single hinput, List.forall₂_map_left_iff]

/-- **Typing of coercion**: a coerced literal is well typed if its variables are, and if so are the
declarations of the fields that it leaves out. -/
theorem coerce_wellTyped (hr : c.schema.registry.WellFormed) (hv : v.IsProper) (hasDefault : Bool)
    (h : (coerce c v path t).value? = some w)
    (hvars : ∀ name l b, UsesVariable c.schema v t hasDefault name l b → ∀ p path u,
      (c.coerceVariable name p path l).value? = some u → WellTyped c.schema l u)
    (hleft : ∀ n d, LeavesOut c v t n d → d.isRequired = false → WellTyped c.schema d.type d.fallback) :
    WellTyped c.schema t w :=
  c.wellTyped_compositional.coerce hr hv hasDefault h hvars hleft

/-- The parts of a well-typed object, each with its declaration and its coercion. -/
lemma object_parts (hr : c.schema.registry.WellFormed) {fields : List (Name × Literal)} {p : Pos}
    {n : NamedType} {declared : List InputSpec} (hn : c.schema.named? t = some n)
    (hd : n.inputFields? = some declared) (h : (coerce c (.object fields p) path t).value? = some w)
    (hw : WellTyped c.schema t w) {d : InputSpec} (hmem : d ∈ declared) :
    ∃ f, (c.fieldValue n.name (suppliedFields c fields) p path d).value? = some f
      ∧ WellTyped c.schema d.type f.2 := by
  rw [coerce] at h
  obtain ⟨u, hu, rfl⟩ := lone_value? h
  rw [Schema.wellTyped_layers_iff hr] at hw
  obtain ⟨n', declared', parts, hn', hd', rfl, hparts⟩ := atNamed_object_value? hu
  rw [named?_base hr, hn] at hn'
  cases hn'
  rw [hd] at hd'
  cases hd'
  have hinput : c.schema.inputTypes? (c.schema.registry.layers t).2
      = some (declared.map fun d => (d.name, d.type)) := by
    simp [Schema.inputTypes?, named?_base hr, hn, hd]
  rw [Schema.wellTyped_object_iff (TypeRegistry.element?_base hr t) hinput,
    List.forall₂_map_left_iff] at hw
  obtain ⟨f, -, hf, -, htyped⟩ := forall₂_exists_right (forall₂_and hparts hw) hmem
  exact ⟨f, hf, htyped⟩

/-- What a well-typed value takes from declarations is well typed as well. -/
theorem leavesOut_wellTyped (hr : c.schema.registry.WellFormed) {n : String} {d : InputSpec}
    (hd : LeavesOut c v t n d) (h : (coerce c v path t).value? = some w)
    (hw : WellTyped c.schema t w) : d.isRequired = false ∧ WellTyped c.schema d.type d.fallback := by
  induction hd generalizing path w with
  | item element mem present below ih =>
    rw [coerce] at h
    simp only [element] at h
    obtain ⟨ws, hws, rfl⟩ := Option.map_eq_some_iff.mp h
    rw [coerceItems_eq, Coerced.all_map_value?_iff] at hws
    obtain ⟨k, hk⟩ := exists_mem_zipIdx mem
    obtain ⟨u, hu, huw⟩ := forall₂_exists_right hws hk
    simp only [coerceItem, present, Bool.false_eq_true, if_false] at huw
    exact ih huw ((Schema.wellTyped_list_iff element).mp hw u hu)
  | here named isInput mem missing =>
    obtain ⟨f, hf, htyped⟩ := object_parts hr named isInput h hw mem
    obtain ⟨hreq, rfl⟩ := fieldValue_missing_value? missing hf
    exact ⟨hreq, htyped⟩
  | field named isInput mem given below ih =>
    obtain ⟨f, hf, htyped⟩ := object_parts hr named isInput h hw mem
    obtain ⟨u, hu, rfl⟩ := fieldValue_given_value? given hf
    exact ih hu htyped

end CoercionContext

end GraphQL
