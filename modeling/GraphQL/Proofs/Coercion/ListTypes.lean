import GraphQL.Proofs.Schema.Accepting

/-!
The types of lists in the values of variables.

A schema need not have the lists that a variable is written with. Each list then gets the first of the types
that accept it, and so do its items, each level for itself. The levels fit together wherever the element of the
one type takes the other: always where the schema has the written type, but not always where two types accept an
item and neither of them is tighter.
-/

namespace GraphQL

/-- At every depth, the types of the items of a list fit the element of the list's own type. -/
inductive ItemsFit (s : Schema) (fits : TypeId → TypeId → Prop) : Value → Prop where
  | null {t : TypeId} : ItemsFit s fits (.null t)
  | scalar {t : TypeId} {text : String} : ItemsFit s fits (.scalar t text)
  | list {t e : TypeId} {items : List Value} (element : s.element? t = some e)
      (types : ∀ v ∈ items, fits e v.type) (below : ∀ v ∈ items, ItemsFit s fits v) : ItemsFit s fits (.list t items)
  | object {t : TypeId} {fields : List (String × Value)} (below : ∀ f ∈ fields, ItemsFit s fits f.2) :
      ItemsFit s fits (.object t fields)

/-- Items are of types that may stand where the element of their list is wanted. -/
def Value.HasHonestLists (s : Schema) (v : Value) : Prop := ItemsFit s (fun e t => s.accepts e t = true) v

variable {s s' : Schema} {fits fits' : TypeId → TypeId → Prop} {t e l : TypeId} {v w : Value}

namespace ItemsFit

lemma imp (himp : ∀ e t, fits e t → fits' e t) (h : ItemsFit s fits v) : ItemsFit s fits' v := by
  induction h with
  | null => exact .null
  | scalar => exact .scalar
  | list element types _ ih => exact .list element (fun v hv => himp _ _ (types v hv)) ih
  | object _ ih => exact .object ih

lemma list_iff {items : List Value} (he : s.element? t = some e) :
    ItemsFit s fits (.list t items) ↔ ∀ v ∈ items, fits e v.type ∧ ItemsFit s fits v := by
  constructor
  · intro h v hv
    cases h with
    | list element types below =>
      obtain rfl : e = _ := Option.some.inj (he.symm.trans element)
      exact ⟨types v hv, below v hv⟩
  · exact fun h => .list he (fun v hv => (h v hv).1) fun v hv => (h v hv).2

/-- The mark of a list's type does not matter. -/
lemma withType_iff (hl : s.element? l = s.element? v.type) : ItemsFit s fits (v.withType l) ↔ ItemsFit s fits v := by
  cases v with
  | null => exact ⟨fun _ => .null, fun _ => .null⟩
  | scalar => exact ⟨fun _ => .scalar, fun _ => .scalar⟩
  | list t items =>
    have hl : s.element? l = s.element? t := hl
    constructor
    · rintro (_ | _ | ⟨element, types, below⟩)
      exact .list (hl ▸ element) types below
    · rintro (_ | _ | ⟨element, types, below⟩)
      exact .list (hl ▸ element) types below
  | object t fields =>
    constructor
    · rintro (_ | _ | _ | below)
      exact .object below
    · rintro (_ | _ | _ | below)
      exact .object below

lemma of_elements (h : ∀ t e, s.element? t = some e → s'.element? t = some e) (hv : ItemsFit s fits v) :
    ItemsFit s' fits v := by
  induction hv with
  | null => exact .null
  | scalar => exact .scalar
  | list element types _ ih => exact .list (h _ _ element) types ih
  | object _ ih => exact .object ih

end ItemsFit

/-! ### Values at types of the schema -/

/-- A value of the type of its place, and so are the items of its lists. -/
def Value.IsExact (s : Schema) (t : TypeId) (v : Value) : Prop := v.type = t ∧ ItemsFit s Eq v

/-- The defaults of a schema are of the types of their places. -/
def Schema.DefaultsExact (s : Schema) : Prop :=
  ∀ q ∈ s.ownedInputs, ∀ v, q.2.default? = some v → v.IsExact s q.2.type

namespace CoercionContext

variable {c : CoercionContext} {lit : Literal} {path : Path}

lemma atNamed_leaf_exact {kind : LiteralKind} {text : String} {p : Pos}
    (h : (c.atNamed (.scalar kind text p) [] path t).value? = some w) : w.IsExact c.schema t := by
  unfold atNamed at h
  split at h
  · simp [Coerced.error] at h
  split at h
  · simp [Coerced.error] at h
  · obtain ⟨result, -, rfl⟩ := leaf_value? h
    exact ⟨rfl, .scalar⟩
  · obtain ⟨result, -, rfl⟩ := leaf_value? h
    exact ⟨rfl, .scalar⟩
  · simp [Coerced.error] at h

lemma exact_compositional (c : CoercionContext) : c.Compositional (fun _ => True) fun t w => w.IsExact c.schema t where
  item _ _ _ := trivial
  field _ _ _ := trivial
  null _ := ⟨rfl, .null⟩
  leaf _ _ := atNamed_leaf_exact
  list element holds := ⟨rfl, .list element (fun v hv => (holds v hv).1.symm) fun v hv => (holds v hv).2⟩
  object _ _ _ holds := ⟨rfl, .object fun f hf => by
    obtain ⟨d, -, -, hfield⟩ := forall₂_exists_left holds hf
    exact hfield.2⟩

/-- A constant comes to a value of the type that it is coerced to, with items of the types of elements. -/
lemma coerce_exact (hr : c.schema.registry.WellFormed) (hc : c.scope = .forbidden) (hdefaults : c.schema.DefaultsExact)
    (h : (coerce c lit path t).value? = some w) : w.IsExact c.schema t := by
  refine c.exact_compositional.coerce hr trivial false h (fun name l b _ p path u hu => ?_) fun n d hd hreq => ?_
  · rw [coerceVariable_forbidden hc] at hu
    cases hu
  · exact InputSpec.fallback_holds (fun _ => ⟨rfl, .null⟩) (hdefaults _ hd.owned) hreq

end CoercionContext

namespace Schema

variable {ds : List SchemaDocument} {id : Nat}

lemma SameTypes.isExact (h : SameTypes s s') (hv : v.IsExact s t) : v.IsExact s' t :=
  ⟨hv.1, hv.2.of_elements fun _ _ he => h.element?.trans he⟩

lemma DefaultsExact.setDefault (hs : s.DefaultsExact) {owner : InputOwner}
    (htype : ∀ q ∈ s.ownedInputs, q.1 = owner → q.2.type = t) (hv : v.IsExact s t) :
    (s.setDefault owner v).DefaultsExact := by
  have hsame := sameTypes_setDefault s owner v
  intro p hp u hu
  rw [ownedInputs_setDefault] at hp
  obtain ⟨q, hq, rfl⟩ := List.mem_map.mp hp
  unfold withDefault at hu ⊢
  by_cases hown : q.1 = owner
  · rw [if_pos hown] at hu ⊢
    obtain rfl := Option.some.inj hu
    rw [htype q hq hown]
    exact hsame.isExact hv
  · rw [if_neg hown] at hu ⊢
    exact hsame.isExact (hs q hq u hu)

/-- Null stands for defaults that are not yet applied, which is of their type as well. So the order in which
they are applied does not matter. -/
lemma Applies.defaultsExact {ps : List PendingDefault} (h : Applies s ps s') (hr : s.registry.WellFormed)
    (hs : s.DefaultsExact) (hnodup : (s.ownedTypes.map (·.1)).Nodup) (hkeys : ∀ p ∈ ps, p.key ∈ s.ownedTypes) :
    s'.DefaultsExact := by
  induction h with
  | nil => exact hs
  | @cons s s' p ps v coerced rest ih =>
    obtain ⟨hkey, hkeys⟩ := List.forall_mem_cons.mp hkeys
    have hv : v.IsExact s p.type :=
      CoercionContext.coerce_exact (c := s.constant) hr rfl hs (Coerced.result_ok_iff.mp coerced).1
    refine ih hr (hs.setDefault (fun q hq hown => ownedTypes_unique hnodup hkey hq hown) hv) ?_ ?_
    · rwa [ownedTypes_setDefault]
    · rwa [ownedTypes_setDefault]

lemma build_defaultsExact (hd : ∀ d ∈ ds, d.IsProper) (h : build ds id = .ok s) : s.DefaultsExact := by
  obtain ⟨s₀, st, hr, hst, happlies⟩ := build_applies h
  have hres := resolve_resolved hd hr hst
  refine happlies.defaultsExact hres.wellFormed.registry (fun q hq v hv => ?_) ?_ hres.ordered_keys
  · obtain rfl := hres.placeholder q hq v hv
    exact ⟨rfl, .null⟩
  · simpa [ownedTypes, Function.comp_def] using hres.wellFormed.owners_nodup

lemma WithLists.defaultsExact (h : s.WithLists s') (hr : s.registry.WellFormed) (hs : s.DefaultsExact) :
    s'.DefaultsExact := by
  have howned : s'.ownedInputs = s.ownedInputs := by rw [ownedInputs, ownedInputs, h.types]
  intro q hq v hv
  obtain ⟨htype, hfit⟩ := hs q (howned ▸ hq) v hv
  exact ⟨htype, hfit.of_elements fun t e he => (h.element? hr (TypeRegistry.has_of_element? he)).trans he⟩

/-! ### Levels of written types -/

/-- The list that is taken for a written list has an element that takes what is taken for its items. -/
def levelFits (s : Schema) (t : TypeRef) : Bool :=
  ((s.typesAccepting (.list t .start)).head?.bind s.element?).all fun e =>
    (s.typesAccepting t).head?.all fun item => s.accepts e item

lemma levelFits_eq {ref : TypeRef} {p : Pos} {list e item : TypeId}
    (hlist : (s.typesAccepting (.list ref p)).head? = some list) (he : s.element? list = some e)
    (hitem : (s.typesAccepting ref).head? = some item) : s.levelFits ref = s.accepts e item := by
  have hlist : (s.typesAccepting (.list ref .start)).head? = some list := hlist
  rw [levelFits, hlist, Option.bind_some, he, hitem]
  rfl

/-- Where the schema has the list as it is written, all is as written. -/
lemma levelFits_of_exact (hr : s.registry.WellFormed) {ref : TypeRef} {p : Pos}
    (h : s.typeOfRef? (.list ref p) = some t) : s.levelFits ref = true := by
  obtain ⟨e, he, hlist⟩ := Option.bind_eq_some_iff.mp h
  rw [levelFits_eq (typesAccepting_head? h) (TypeRegistry.element?_listOf? hlist) (typesAccepting_head? he)]
  exact accepts_self hr e

lemma exists_element_of_head? {ref : TypeRef} {p : Pos} (h : (s.typesAccepting (.list ref p)).head? = some t) :
    ∃ e, s.element? t = some e := by
  obtain ⟨e, -, hlist⟩ := List.mem_filterMap.mp (List.mem_of_head? h)
  exact ⟨e, TypeRegistry.element?_listOf? hlist⟩

end Schema

/-- The items of the list that a literal stands for where a list is wanted. -/
def Literal.asItems : Literal → List Literal
  | null _ => []
  | list items _ => items
  | v => [v]

/-- The written types of the items that a literal has in lists, at every depth. -/
def TypeRef.itemTypes : TypeRef → Literal → List TypeRef
  | named _, _ => []
  | nonNull t _, v => t.itemTypes v
  | list t _, v => v.asItems.flatMap fun item => t :: t.itemTypes item

lemma TypeRef.mem_itemTypes_list {ref u : TypeRef} {p : Pos} {lit : Literal} :
    u ∈ (list ref p).itemTypes lit ↔ ∃ item ∈ lit.asItems, u = ref ∨ u ∈ ref.itemTypes item := by
  simp only [itemTypes, List.mem_flatMap, List.mem_cons]

lemma Schema.levelFits_of_mem (hr : s.registry.WellFormed) {ref u : TypeRef} {lit : Literal}
    (href : s.typeOfRef? ref = some t) (hu : u ∈ ref.itemTypes lit) : s.levelFits u = true := by
  induction ref generalizing t lit with
  | named n => cases hu
  | list ref p ih =>
    obtain ⟨e, he, -⟩ := Option.bind_eq_some_iff.mp href
    obtain ⟨item, -, rfl | hu⟩ := TypeRef.mem_itemTypes_list.mp hu
    · exact levelFits_of_exact hr href
    · exact ih he hu
  | nonNull ref p ih =>
    obtain ⟨e, he, -⟩ := Option.map_eq_some_iff.mp href
    exact ih he hu

namespace CoercionContext

variable {c : CoercionContext} {ref : TypeRef} {lit : Literal} {path : Path} {p : Pos}

/-- A value of a written list is null, or a list of what its items come to. -/
lemma coerceDeclared_list (h : (c.coerceDeclared (.list ref p) path lit).value? = some w) :
    ∃ list, (c.schema.typesAccepting (.list ref p)).head? = some list ∧
      (w = .null list ∧ lit.asItems = [] ∨ ∃ ws, w = .list list ws ∧
        List.Forall₂ (fun item u => ∃ path, (c.coerceDeclared ref path item).value? = some u) lit.asItems ws) := by
  rw [coerceDeclared] at h
  split at h
  · simp [Coerced.error] at h
  rename_i list hlist
  refine ⟨list, hlist, ?_⟩
  split at h
  · exact .inl ⟨(Option.some.inj h).symm, rfl⟩
  · rename_i items q
    obtain ⟨ws, hws, rfl⟩ := Option.map_eq_some_iff.mp h
    rw [Coerced.all_map_value?_iff] at hws
    refine .inr ⟨ws, rfl, ?_⟩
    rw [Literal.asItems, ← List.zipIdx_map_fst 0 items, List.forall₂_map_left_iff]
    exact hws.imp fun x u hu => ⟨_, hu⟩
  · rename_i hnull hnoList
    obtain ⟨u, hu, rfl⟩ := Option.map_eq_some_iff.mp h
    have hitems : lit.asItems = [lit] := by
      cases lit with
      | null q => exact absurd rfl (hnull q)
      | list items q => exact absurd rfl (hnoList items q)
      | _ => rfl
    exact .inr ⟨[u], rfl, hitems ▸ .cons ⟨path, hu⟩ .nil⟩

/-- What a constant comes to has the first type that accepts the written one. -/
lemma coerceDeclared_type (hr : c.schema.registry.WellFormed) (hc : c.scope = .forbidden)
    (hdefaults : c.schema.DefaultsExact) (h : (c.coerceDeclared ref path lit).value? = some w) :
    (c.schema.typesAccepting ref).head? = some w.type := by
  induction ref generalizing w with
  | named n =>
    rw [coerceDeclared] at h
    split at h
    · rename_i t ht
      rw [Schema.typesAccepting, ht, (coerce_exact hr hc hdefaults h).1]
      rfl
    · simp [Coerced.error] at h
  | list ref p _ =>
    obtain ⟨list, hlist, ⟨rfl, -⟩ | ⟨ws, rfl, -⟩⟩ := coerceDeclared_list h
    · exact hlist
    · exact hlist
  | nonNull ref p ih =>
    rw [coerceDeclared] at h
    split at h
    · simp [Coerced.error] at h
    · obtain ⟨u, hu, rfl⟩ := Option.map_eq_some_iff.mp h
      obtain ⟨rest, hrest⟩ := List.head?_eq_some_iff.mp (ih hu)
      rw [Schema.typesAccepting, hrest, Value.type_withType]
      rfl

/-- **Lists are honest exactly where levels fit**: the items in the value of a constant are of types that may stand
in their lists if and only if the levels of the written type fit, at which the constant has items. -/
theorem coerceDeclared_honest_iff (hr : c.schema.registry.WellFormed) (hc : c.scope = .forbidden)
    (hdefaults : c.schema.DefaultsExact) (h : (c.coerceDeclared ref path lit).value? = some w) :
    w.HasHonestLists c.schema ↔ ∀ u ∈ ref.itemTypes lit, c.schema.levelFits u = true := by
  induction ref generalizing path lit w with
  | named n =>
    rw [coerceDeclared] at h
    split at h
    · have hexact := (coerce_exact hr hc hdefaults h).2
      refine ⟨fun _ u hu => absurd hu List.not_mem_nil, fun _ => hexact.imp fun e t heq => ?_⟩
      rw [heq]
      exact Schema.accepts_self hr t
    · simp [Coerced.error] at h
  | list ref p ih =>
    obtain ⟨list, hlist, ⟨rfl, hnone⟩ | ⟨ws, rfl, hws⟩⟩ := coerceDeclared_list h
    · refine ⟨fun _ u hu => ?_, fun _ => .null⟩
      obtain ⟨item, hitem, -⟩ := TypeRef.mem_itemTypes_list.mp hu
      exact absurd (hnone ▸ hitem) List.not_mem_nil
    · obtain ⟨e, he⟩ := Schema.exists_element_of_head? hlist
      -- All items have the type that is taken for what is written, so that one test decides for all of them.
      have hfits {item : Literal} {x : Value} {path : Path} (hitem : (c.coerceDeclared ref path item).value? = some x) :
          c.schema.levelFits ref = c.schema.accepts e x.type :=
        Schema.levelFits_eq hlist he (coerceDeclared_type hr hc hdefaults hitem)
      rw [Value.HasHonestLists, ItemsFit.list_iff he]
      constructor
      · intro hhonest u hu
        obtain ⟨item, hmem, hu⟩ := TypeRef.mem_itemTypes_list.mp hu
        obtain ⟨x, hx, path, hitem⟩ := forall₂_exists_right hws hmem
        obtain ⟨haccepts, hbelow⟩ := hhonest x hx
        rcases hu with rfl | hu
        · rw [hfits hitem, haccepts]
        · exact (ih hitem).mp hbelow u hu
      · intro hlevels x hx
        obtain ⟨item, hmem, path, hitem⟩ := forall₂_exists_left hws hx
        have hlevels (u : TypeRef) (hu : u = ref ∨ u ∈ ref.itemTypes item) : c.schema.levelFits u = true :=
          hlevels u (TypeRef.mem_itemTypes_list.mpr ⟨item, hmem, hu⟩)
        refine ⟨?_, (ih hitem).mpr fun u hu => hlevels u (.inr hu)⟩
        rw [← hfits hitem]
        exact hlevels ref (.inl rfl)
  | nonNull ref p ih =>
    rw [coerceDeclared] at h
    split at h
    · simp [Coerced.error] at h
    · obtain ⟨u, hu, rfl⟩ := Option.map_eq_some_iff.mp h
      rw [Value.HasHonestLists, ItemsFit.withType_iff (l := u.type.nonNull) rfl]
      exact ih hu

end CoercionContext

namespace Schema

variable {ds : List SchemaDocument} {id : Nat} {before after : List VariableDefinition} {d : VariableDefinition}
  {supplied : List (String × Literal)} {vars : Variables} {lit : Literal}

lemma coerceVariable_supplied {o : Option Value} (h : s.coerceVariable (some lit) d = .ok o) :
    ∃ w, o = some w ∧ (CoercionContext.coerceDeclared ⟨s, true, .forbidden⟩ d.type [] lit).value? = some w := by
  unfold coerceVariable at h
  split at h
  · cases h
  · have hgiven : s.coerceGiven d true lit = .ok o := h
    unfold coerceGiven at hgiven
    split at hgiven
    · rename_i w hw
      exact ⟨w, (Except.ok.inj hgiven).symm, (Coerced.result_ok_iff.mp hw).1⟩
    · cases hgiven

/-- A variable has the value that its last definition gives to what is supplied. -/
lemma coerceVariables_last (h : s.coerceVariables (before ++ d :: after) supplied = .ok vars)
    (hlast : d.name.text ∉ after.map (·.name.text)) (hlit : supplied.lookup d.name.text = some lit) :
    ∃ w, vars.lookup d.name.text = some w ∧
      (CoercionContext.coerceDeclared ⟨s, true, .forbidden⟩ d.type [] lit).value? = some w := by
  rw [coerceVariables_eq, List.foldl_append, List.foldl_cons] at h
  split at h
  · rename_i hnone
    -- Nothing is reported, so the definition has a value, and those behind it leave it alone.
    have herrors := foldl_coerceNext_errors _ (List.isEmpty_iff.mp hnone)
    rw [← Except.ok.inj h, foldl_coerceNext_other _ hlast]
    unfold coerceNext at herrors ⊢
    rw [hlit] at herrors ⊢
    cases hvalue : s.coerceVariable (some lit) d with
    | error es =>
      rw [hvalue] at herrors
      exact absurd (List.append_eq_nil_iff.mp herrors).2 (coerceVariable_ne_nil hvalue)
    | ok o =>
      obtain ⟨w, rfl, hw⟩ := coerceVariable_supplied hvalue
      exact ⟨w, by rw [lookup_putMember, if_pos rfl], hw⟩
  · cases h

/-- **The types of lists in variables**: where the value that is supplied for a variable has items in lists, the
types of the items may stand in the lists if and only if that holds of the types that are taken for the levels of
the written type, each for itself. It holds of all of them if the schema has the type as it is written. Of two
definitions of a variable the last one counts. -/
theorem coerceVariables_honest_iff (hds : ∀ d ∈ ds, ∃ file text, SchemaDocument.load file text = .ok d)
    (h : build ds id = .ok s) (hlists : s.WithLists s')
    (hvars : s'.coerceVariables (before ++ d :: after) supplied = .ok vars)
    (hlast : d.name.text ∉ after.map (·.name.text)) (hlit : supplied.lookup d.name.text = some lit) :
    ∃ w, vars.lookup d.name.text = some w ∧
      (w.HasHonestLists s' ↔ ∀ t ∈ d.type.itemTypes lit, s'.levelFits t = true) ∧
      ((s'.typeOfRef? d.type).isSome → w.HasHonestLists s') := by
  have hr := (build_wellFormed hds h).registry
  have hr' := (hlists.registry hr).1
  have hdefaults := hlists.defaultsExact hr (build_defaultsExact (SchemaDocument.loaded_isProper hds) h)
  obtain ⟨w, hw, hcoerced⟩ := coerceVariables_last hvars hlast hlit
  have hiff : w.HasHonestLists s' ↔ ∀ t ∈ d.type.itemTypes lit, s'.levelFits t = true :=
    CoercionContext.coerceDeclared_honest_iff hr' rfl hdefaults hcoerced
  refine ⟨w, hw, hiff, fun hexact => hiff.mpr fun u hu => ?_⟩
  obtain ⟨t, ht⟩ := Option.isSome_iff_exists.mp hexact
  exact levelFits_of_mem hr' ht hu

/-- One number in a row of one. -/
def oneRow : Literal := .list [.list [.scalar .int "1" .start] .start] .start

/-- The rows that are supplied come to a list, though not of the type that is written for them. -/
def readsRows (run : Schema × Document) : Bool :=
  run.2.operations.any fun op =>
    match op.variableDefinitions with
    | [rows, layers] =>
      rows.name.text == "r" && layers.name.text == "v" && (run.1.typeOfRef? rows.type).isNone &&
        (rows.type.itemTypes oneRow).all run.1.levelFits &&
        match run.1.coerceVariables [rows, layers] [("r", oneRow)] with
        | .ok vars => (vars.lookup "r").any fun w => run.1.typeName w.type == "[[Int]!]"
        | .error _ => false
    | _ => false

/-- Rows for which the schema only has the type with numbers that can be left out. -/
theorem coerceVariables_honest_iff_of_rows : ∃ doc s request op rows layers vars w,
    SchemaDocument.load none gridsText = .ok doc ∧ build [doc] 0 = .ok s ∧
    (Document.parse gridsQuery).document? = some request ∧ op ∈ request.operations ∧
    op.variableDefinitions = [rows, layers] ∧ s.coerceVariables [rows, layers] [("r", oneRow)] = .ok vars ∧
    rows.name.text ∉ [layers].map (·.name.text) ∧ [("r", oneRow)].lookup rows.name.text = some oneRow ∧
    s.typeOfRef? rows.type = none ∧ vars.lookup rows.name.text = some w ∧ s.typeName w.type = "[[Int]!]" ∧
    w.HasHonestLists s := by
  have hrun : (Sample.readChars? gridsChars.1 gridsQueryChars.1).any readsRows = true := by
    decide +kernel
  obtain ⟨s, request, hs, hrequest, hcheck⟩ := Sample.exists_of_chars gridsChars.2 gridsQueryChars.2 hrun
  obtain ⟨doc, hload, hbuild⟩ := ofText_eq_ok.mp hs
  obtain ⟨op, hop, hcheck⟩ := List.any_eq_true.mp hcheck
  split at hcheck
  · rename_i rows layers hdefinitions
    simp only [Bool.and_eq_true, beq_iff_eq, Option.isNone_iff_eq_none, List.all_eq_true] at hcheck
    obtain ⟨⟨⟨⟨hname, hother⟩, hnone⟩, hlevels⟩, hcheck⟩ := hcheck
    split at hcheck
    · rename_i vars hvars
      have hlast : rows.name.text ∉ [layers].map (·.name.text) := by simp [hname, hother]
      have hlit : [("r", oneRow)].lookup rows.name.text = some oneRow := by rw [hname]; rfl
      have hfirst : s.coerceVariables ([] ++ rows :: [layers]) [("r", oneRow)] = .ok vars := hvars
      obtain ⟨w, hw, hiff, -⟩ := coerceVariables_honest_iff (List.forall_mem_singleton.mpr ⟨none, _, hload⟩) hbuild .refl
        hfirst hlast hlit
      have htype : s.typeName w.type = "[[Int]!]" := by simpa [← hname, hw] using hcheck
      exact ⟨doc, s, request, op, rows, layers, vars, w, hload, hbuild, hrequest, hop, hdefinitions, hvars, hlast, hlit,
        hnone, hw, htype, hiff.mpr hlevels⟩
    · cases hcheck
  · cases hcheck

/-- The layers that are supplied come to a list whose item is of a type that may not stand in it. -/
def misplacesRows (run : Schema × Document) : Bool :=
  run.2.operations.any fun op =>
    match run.1.coerceVariables op.variableDefinitions [("v", .list [oneRow] .start)] with
    | .ok [(_, .list layers [rows])] =>
      run.1.typeName layers == "[[[Int!]]]" && run.1.typeName rows.type == "[[Int]!]" &&
        (run.1.element? layers).any fun e => !run.1.accepts e rows.type
    | _ => false

/-- Layers of rows with numbers, in which the rows are of a type with numbers that can be left out. -/
theorem coerceVariables_misplaces : ∃ s request op name layers rows, ofText gridsText 0 = .ok s ∧
    (Document.parse gridsQuery).document? = some request ∧ op ∈ request.operations ∧
    s.coerceVariables op.variableDefinitions [("v", .list [oneRow] .start)] = .ok [(name, .list layers [rows])] ∧
    s.typeName layers = "[[[Int!]]]" ∧ s.typeName rows.type = "[[Int]!]" ∧
    ¬ (Value.list layers [rows]).HasHonestLists s := by
  have hrun : (Sample.readChars? gridsChars.1 gridsQueryChars.1).any misplacesRows = true := by
    decide +kernel
  obtain ⟨s, request, hs, hrequest, hcheck⟩ := Sample.exists_of_chars gridsChars.2 gridsQueryChars.2 hrun
  obtain ⟨op, hop, hcheck⟩ := List.any_eq_true.mp hcheck
  split at hcheck
  · rename_i name layers rows hvars
    simp only [Bool.and_eq_true, beq_iff_eq, Option.any_eq_true, Bool.not_eq_true'] at hcheck
    obtain ⟨⟨hlayers, hrows⟩, e, he, haccepts⟩ := hcheck
    refine ⟨s, request, op, name, layers, rows, hs, hrequest, hop, hvars, hlayers, hrows, fun hhonest => ?_⟩
    obtain ⟨hitem, -⟩ := (ItemsFit.list_iff he).mp hhonest rows (List.mem_singleton_self rows)
    rw [haccepts] at hitem
    cases hitem
  · cases hcheck

end Schema

end GraphQL
