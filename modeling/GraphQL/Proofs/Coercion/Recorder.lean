import GraphQL.Proofs.Coercion.Errors

/-!
Coercion as a walk with a state.

A walk over a literal keeps the path to the value at hand and the errors found so far. A list fails if
one of its items did, an object if an error was added since it was entered, anything else where it
reports. From every state such a walk does what coercion at the path of the state says: its value is
the one of the coercion, whose errors are added behind those from before.
-/

namespace GraphQL

/-- What a walk over a literal keeps. -/
structure CoercionState where
  path : Path
  errors : List CoercionError

/-- A part of a walk over a literal. -/
abbrev Recorder (α : Type) := StateM CoercionState α

namespace Recorder

variable {α β : Type}

def report (cause : CoercionErrorCause) (p : Pos) : Recorder Unit :=
  modify fun st => { st with errors := st.errors ++ [⟨cause, p, st.path⟩] }

def reject (cause : CoercionErrorCause) (p : Pos) : Recorder (Option α) := do
  report cause p
  return none

def errorCount : Recorder Nat := return (← get).errors.length

/-- One step further down. -/
def within (s : PathSegment) (run : Recorder α) : Recorder α := do
  modify fun st => { st with path := st.path ++ [s] }
  let a ← run
  modify fun st => { st with path := st.path.dropLast }
  return a

/-- One walk after the other, each at an index, of which the first is `n`: what the walks came to, and
whether one of them failed. -/
def each (n : Nat) : List (Recorder (Option α)) → Recorder (List α × Bool)
  | [] => return ([], false)
  | run :: runs => do
    let item ← within (.index n) run
    let (items, failed) ← each (n + 1) runs
    match item with
    | some a => return (a :: items, failed)
    | none => return (items, true)

/-- A list of what walks come to. -/
def listOf (t : TypeId) (runs : List (Recorder (Option Value))) : Recorder (Option Value) := do
  let (items, failed) ← each 0 runs
  return if failed then none else some (.list t items)

/-- One walk after the other: what they came to, without those that failed. -/
def gather : List (Recorder (Option α)) → Recorder (List α)
  | [] => return []
  | run :: runs => do
    match ← run with
    | some a => return a :: (← gather runs)
    | none => gather runs

end Recorder

namespace CoercionContext

open Recorder

/-- A field of an object literal, with the walk over its value. -/
structure RecordedField where
  name : Name
  value : Literal
  run : TypeId → Recorder (Option Value)

def recordNull (c : CoercionContext) (p : Pos) (t : TypeId) : Recorder (Option Value) :=
  if t.isNonNull then reject (.nullForNonNull (c.schema.typeName t)) p else return some (.null t)

def recordVariable (c : CoercionContext) (name : String) (p : Pos) (t : TypeId) :
    Recorder (Option Value) :=
  match c.scope with
  | .forbidden => reject (.variableNotAllowed name) p
  | .unchecked => return some (.null t.nullable)
  | .bound vars =>
    match vars.lookup name with
    | none | some (.null _) => c.recordNull p t
    | some v => return some (adapt c.schema t v)

def recordLeaf (text : Except CoercionErrorCause String) (p : Pos) (t : TypeId) :
    Recorder (Option Value) :=
  match text with
  | .ok s => return some (.scalar t s)
  | .error cause => reject cause p

/-- Reports fields that the type does not have or that were supplied before. -/
def recordNames (typeName : String) (declared : List InputSpec) (seen : List String) :
    List RecordedField → Recorder Unit
  | [] => return
  | f :: fs => do
    let name := f.name.text
    if !declared.any fun d => d.name == name then
      report (.unknownInputField typeName name) f.name.pos
      recordNames typeName declared seen fs
    else if seen.contains name then
      report (.duplicateInputField typeName name) f.name.pos
      recordNames typeName declared seen fs
    else recordNames typeName declared (name :: seen) fs

def recordField (c : CoercionContext) (typeName : String) (supplied : List RecordedField) (p : Pos)
    (d : InputSpec) : Recorder (Option (String × Value)) := do
  let given := (supplied.find? fun f => f.name.text == d.name).filter fun f => !c.isAbsent f.value
  match given with
  | some f =>
    let v ← within (.key d.name) (f.run d.type)
    return v.map fun v => (d.name, v)
  | none =>
    if d.isRequired then reject (.missingField typeName d.name (c.schema.typeName d.type)) p
    else return some (d.name, d.fallback)

/-- An object fails if there are more errors behind its fields than there were in front of them. -/
def recordObject (c : CoercionContext) (typeName : String) (declared : List InputSpec)
    (supplied : List RecordedField) (p : Pos) (t : TypeId) : Recorder (Option Value) := do
  let before ← errorCount
  recordNames typeName declared [] supplied
  let fields ← gather (declared.map (c.recordField typeName supplied p))
  let behind ← errorCount
  return if behind = before then some (.object t fields) else none

def recordLone (c : CoercionContext) (run : TypeId → Recorder (Option Value)) (t : TypeId) :
    Recorder (Option Value) := do
  let (layers, base) := c.schema.registry.layers t
  let v ← run base
  return v.map fun v => layers.foldr (fun l inner => .list l [inner]) v

def recordNamed (c : CoercionContext) (v : Literal) (supplied : List RecordedField) (t : TypeId) :
    Recorder (Option Value) :=
  match c.schema.named? t with
  | none => reject (.notAnInputType (c.schema.typeName t)) v.pos
  | some named =>
    match named.body with
    | .object _ => reject (.notAnInputType (c.schema.typeName t)) v.pos
    | .scalar builtin =>
      match v with
      | .scalar kind text _ => recordLeaf (c.scalarText named.name builtin kind text v) v.pos t
      | _ => reject (.invalidScalar named.name v) v.pos
    | .enum values => recordLeaf (c.enumText named.name values v) v.pos t
    | .inputObject declared =>
      match v with
      | .object .. => c.recordObject named.name declared supplied v.pos t
      | _ => reject (.expectedInputObject named.name v) v.pos

mutual

/-- The walk over a literal. -/
def record (c : CoercionContext) : Literal → TypeId → Recorder (Option Value)
  | .null p => c.recordNull p
  | .var name p => c.recordVariable name p
  | .scalar kind text p => c.recordLone (c.recordNamed (.scalar kind text p) [])
  | .list items p => fun t =>
    match c.schema.element? t with
    | some e => listOf t (recordedItems c e items)
    | none => c.recordNamed (.list items p) [] t
  | .object fields p => c.recordLone (c.recordNamed (.object fields p) (recordedFields c fields))

def recordedItems (c : CoercionContext) (e : TypeId) : List Literal → List (Recorder (Option Value))
  | [] => []
  | v :: vs => (if c.isAbsent v then c.recordNull v.pos e else record c v e) :: recordedItems c e vs

def recordedFields (c : CoercionContext) : List (Name × Literal) → List RecordedField
  | [] => []
  | (n, v) :: fs => ⟨n, v, record c v⟩ :: recordedFields c fs

end

/-- The walk over a literal at a type as it is written. -/
def recordDeclared (c : CoercionContext) : TypeRef → Literal → Recorder (Option Value)
  | .named n, v =>
    match c.schema.typeId? n.text with
    | some t => c.record v t
    | none => reject (.notAnInputType n.text) v.pos
  | .nonNull t p, v =>
    if v.isNull then reject (.nullForNonNull (TypeRef.nonNull t p).render) v.pos
    else return (← c.recordDeclared t v).map fun w => w.withType w.type.nonNull
  | .list t p, v =>
    match (c.schema.typesAccepting (.list t p)).head? with
    | none => reject (.unacceptedListType (TypeRef.list t p).render) v.pos
    | some list =>
      match v with
      | .null _ => return some (.null list)
      | .list items _ => listOf list (items.map (c.recordDeclared t))
      | v => return (← c.recordDeclared t v).map fun w => .list list [w]

end CoercionContext

namespace Coerced

lemma all_value? {α : Type} (cs : List (Coerced α)) :
    (all cs).value? = if cs.any (·.value?.isNone) then none else some (cs.filterMap (·.value?)) := by
  induction cs with
  | nil => rfl
  | cons c cs ih =>
    show (c.value?.bind fun a => (all cs).value?.map (a :: ·)) = _
    rw [ih, List.any_cons, List.filterMap_cons]
    cases c.value? with
    | none => rfl
    | some a => cases cs.any (·.value?.isNone) <;> rfl

end Coerced

namespace Recorder

variable {α β : Type} {run : Recorder (Option α)} {coercion : Path → Coerced α}

lemma bind_run (run : Recorder β) (f : β → Recorder α) (st : CoercionState) :
    (run >>= f) st = f (run st).1 (run st).2 := rfl

/-- A walk that does what a coercion says, at whatever path it begins. -/
def Records (run : Recorder (Option α)) (coercion : Path → Coerced α) : Prop :=
  ∀ st, run st = ((coercion st.path).value?, ⟨st.path, st.errors ++ (coercion st.path).errors⟩)

lemma Records.ok (a : α) : Records (return some a) fun _ => .ok a := fun st => by
  show (some a, st) = (some a, ⟨st.path, st.errors ++ []⟩)
  rw [List.append_nil]

lemma Records.error (cause : CoercionErrorCause) (p : Pos) :
    Records (reject cause p : Recorder (Option α)) fun path => .error cause p path := fun _ => rfl

lemma Records.map {f : α → β} (h : Records run coercion) :
    Records (do return (← run).map f) fun path => (coercion path).map f := fun st => by
  show ((run st).1.map f, (run st).2) = _
  rw [h st]
  rfl

lemma Records.within (h : Records run coercion) (s : PathSegment) :
    Records (within s run) fun path => coercion (path ++ [s]) := fun st => by
  show ((run ⟨st.path ++ [s], st.errors⟩).1, (⟨(run ⟨st.path ++ [s], st.errors⟩).2.path.dropLast,
    (run ⟨st.path ++ [s], st.errors⟩).2.errors⟩ : CoercionState)) = _
  rw [h, List.dropLast_concat]

variable {γ : Type} {xs : List γ} {runs : γ → Recorder (Option α)} {coercions : γ → Path → Coerced α}

lemma each_run (h : ∀ x ∈ xs, Records (runs x) (coercions x)) (n : Nat) (st : CoercionState) :
    each n (xs.map runs) st =
      let results := (xs.zipIdx n).map fun x => coercions x.1 (st.path ++ [.index x.2])
      ((results.filterMap (·.value?), results.any (·.value?.isNone)),
        ⟨st.path, st.errors ++ (Coerced.all results).errors⟩) := by
  induction xs generalizing n st with
  | nil =>
    show (([], false), st) = (([], false), ⟨st.path, st.errors ++ []⟩)
    rw [List.append_nil]
  | cons x xs ih =>
    obtain ⟨hx, hxs⟩ := List.forall_mem_cons.mp h
    have hfirst := hx.within (.index n) st
    have hrest := ih hxs (n + 1) ⟨st.path, st.errors ++ (coercions x (st.path ++ [.index n])).errors⟩
    rw [List.map_cons, each, bind_run, hfirst, bind_run, hrest, List.zipIdx_cons, List.map_cons]
    dsimp only
    rw [List.filterMap_cons, List.any_cons, List.append_assoc]
    cases (coercions x (st.path ++ [.index n])).value? <;> rfl

/-- A walk over the items of a list. -/
lemma Records.listOf {runs : γ → Recorder (Option Value)} {coercions : γ → Path → Coerced Value}
    (h : ∀ x ∈ xs, Records (runs x) (coercions x)) (t : TypeId) :
    Records (listOf t (xs.map runs)) fun path =>
      (Coerced.all (xs.zipIdx.map fun x => coercions x.1 (path ++ [.index x.2]))).map (.list t) := by
  intro st
  rw [Recorder.listOf, bind_run, each_run h]
  dsimp only
  rw [Coerced.map, Coerced.all_value?]
  split <;> rfl

lemma gather_run (h : ∀ x ∈ xs, Records (runs x) (coercions x)) (st : CoercionState) :
    gather (xs.map runs) st =
      let results := xs.map fun x => coercions x st.path
      (results.filterMap (·.value?), ⟨st.path, st.errors ++ (Coerced.all results).errors⟩) := by
  induction xs generalizing st with
  | nil =>
    show ([], st) = ([], ⟨st.path, st.errors ++ []⟩)
    rw [List.append_nil]
  | cons x xs ih =>
    obtain ⟨hx, hxs⟩ := List.forall_mem_cons.mp h
    have hrest := ih hxs ⟨st.path, st.errors ++ (coercions x st.path).errors⟩
    dsimp only at hrest
    rw [List.append_assoc] at hrest
    rw [List.map_cons, gather, bind_run, hx]
    dsimp only
    rw [List.map_cons, List.filterMap_cons]
    cases (coercions x st.path).value? with
    | none => exact hrest
    | some a =>
      dsimp only
      rw [bind_run, hrest]
      rfl

end Recorder

namespace CoercionContext

open Recorder

variable {c : CoercionContext} {p : Pos} {t : TypeId}

lemma recordNull_records : Records (c.recordNull p t) fun path => c.coerceNull p path t := by
  unfold recordNull coerceNull
  split
  · exact .error _ _
  · exact .ok _

lemma recordVariable_records {name : String} :
    Records (c.recordVariable name p t) fun path => c.coerceVariable name p path t := by
  unfold recordVariable coerceVariable
  cases c.scope with
  | forbidden => exact .error _ _
  | unchecked => exact .ok _
  | bound vars =>
    dsimp only
    cases vars.lookup name with
    | none => exact recordNull_records
    | some v =>
      cases v with
      | null => exact recordNull_records
      | _ => exact .ok _

lemma recordLeaf_records {text : Except CoercionErrorCause String} :
    Records (recordLeaf text p t) fun path => leaf text p path t := by
  cases text with
  | ok s => exact .ok _
  | error cause => exact .error cause p

lemma recordLone_records {run : TypeId → Recorder (Option Value)} {coercer : Coercer}
    (h : ∀ t, Records (run t) fun path => coercer path t) :
    Records (c.recordLone run t) fun path => c.lone coercer path t :=
  (h (c.schema.registry.layers t).2).map

lemma recordedItems_eq (e : TypeId) (items : List Literal) :
    recordedItems c e items =
      items.map fun v => if c.isAbsent v then c.recordNull v.pos e else record c v e := by
  induction items with
  | nil => rfl
  | cons v vs ih => rw [recordedItems, ih, List.map_cons]

lemma recordedFields_eq (fields : List (Name × Literal)) :
    recordedFields c fields = fields.map fun f => ⟨f.1, f.2, record c f.2⟩ := by
  induction fields with
  | nil => rfl
  | cons f fs ih =>
    obtain ⟨n, v⟩ := f
    rw [recordedFields, ih, List.map_cons]

variable {typeName : String} {declared : List InputSpec} {fields : List (Name × Literal)}

lemma recordNames_run (seen : List String) (st : CoercionState) :
    recordNames typeName declared seen (recordedFields c fields) st =
      ((), ⟨st.path, st.errors ++ fieldErrors typeName declared st.path seen (suppliedFields c fields)⟩) := by
  induction fields generalizing seen st with
  | nil =>
    show ((), st) = ((), ⟨st.path, st.errors ++ []⟩)
    rw [List.append_nil]
  | cons f fs ih =>
    obtain ⟨n, v⟩ := f
    have hreported : ∀ e : CoercionError,
        recordNames typeName declared seen (recordedFields c fs) ⟨st.path, st.errors ++ [e]⟩ =
          ((), ⟨st.path, st.errors ++
            e :: fieldErrors typeName declared st.path seen (suppliedFields c fs)⟩) := by
      intro e
      rw [ih, List.append_assoc, List.singleton_append]
    rw [recordedFields, suppliedFields, recordNames, fieldErrors]
    dsimp only
    split
    · exact hreported _
    split
    · exact hreported _
    · exact ih _ _

lemma recordField_records {d : InputSpec}
    (h : ∀ f ∈ fields, ∀ t, Records (record c f.2 t) fun path => coerce c f.2 path t) :
    Records (c.recordField typeName (recordedFields c fields) p d) fun path =>
      c.fieldValue typeName (suppliedFields c fields) p path d := by
  have hfound : (recordedFields c fields).find? (fun f => f.name.text == d.name) =
      (fields.find? fun f => f.1.text == d.name).map fun f => ⟨f.1, f.2, record c f.2⟩ := by
    rw [recordedFields_eq, List.find?_map]
    rfl
  cases hg : c.given fields d.name with
  | some v =>
    obtain ⟨hv, ha⟩ := Option.filter_eq_some_iff.mp hg
    obtain ⟨f, hf, rfl⟩ := Option.map_eq_some_iff.mp hv
    simp only [fieldValue_given hg]
    unfold recordField
    rw [hfound, hf]
    simp only [Option.map_some, Option.filter, ha, if_true]
    exact ((h f (List.mem_of_find?_eq_some hf) d.type).within (.key d.name)).map
  | none =>
    have hmissing : ((recordedFields c fields).find? fun f => f.name.text == d.name).filter
        (fun f => !c.isAbsent f.value) = none := by
      rw [hfound]
      cases hf : fields.find? fun f => f.1.text == d.name with
      | none => rfl
      | some f =>
        have ha : c.isAbsent f.2 = true := by simpa [given, hf, Option.filter] using hg
        simp [Option.filter, ha]
    simp only [fieldValue_missing hg]
    unfold recordField
    rw [hmissing]
    cases d.isRequired with
    | true => exact .error _ _
    | false => exact .ok _

lemma recordObject_run
    (h : ∀ f ∈ fields, ∀ t, Records (record c f.2 t) fun path => coerce c f.2 path t) (st : CoercionState) :
    c.recordObject typeName declared (recordedFields c fields) p t st =
      let wrong := fieldErrors typeName declared st.path [] (suppliedFields c fields)
      let results := declared.map (c.fieldValue typeName (suppliedFields c fields) p st.path)
      let errors := st.errors ++ wrong ++ (Coerced.all results).errors
      (if errors.length = st.errors.length then some (.object t (results.filterMap (·.value?))) else none,
        ⟨st.path, errors⟩) := by
  have hfields : ∀ d ∈ declared, Records (c.recordField typeName (recordedFields c fields) p d)
      fun path => c.fieldValue typeName (suppliedFields c fields) p path d :=
    fun d _ => recordField_records h
  show (if (gather _ (recordNames _ _ _ _ st).2).2.errors.length = st.errors.length then
      some (Value.object t (gather _ (recordNames _ _ _ _ st).2).1) else none,
    (gather _ (recordNames _ _ _ _ st).2).2) = _
  rw [recordNames_run, gather_run hfields]

/-- That no error was added says that every field has a value. -/
lemma recordObject_records
    (h : ∀ f ∈ fields, ∀ t, Records (record c f.2 t) fun path => coerce c f.2 path t) :
    Records (c.recordObject typeName declared (recordedFields c fields) p t) fun path =>
      c.inputObject typeName declared (suppliedFields c fields) p path t := by
  intro st
  rw [recordObject_run h]
  unfold inputObject
  dsimp only
  generalize hresults : declared.map (c.fieldValue typeName (suppliedFields c fields) p st.path) = results
  have hsettled : (Coerced.all results).IsSettled st.path := .all fun r hr => by
    obtain ⟨d, -, rfl⟩ := List.mem_map.mp (hresults ▸ hr)
    exact fieldValue_isSettled fun f _ => coerce_isSettled f.2
  have hcount : ∀ errors : List CoercionError,
      (st.errors ++ errors).length = st.errors.length ↔ errors.isEmpty = true := fun errors => by simp
  simp only [List.append_assoc, hcount]
  split
  · rename_i hempty
    have hvalue := hsettled.succeeds.mpr (List.append_eq_nil_iff.mp (List.isEmpty_iff.mp hempty)).2
    rw [Coerced.all_value?] at hvalue ⊢
    split at hvalue
    · cases hvalue
    · rename_i hall
      rw [if_neg hall]
      rfl
  · rfl

lemma recordNamed_records {v : Literal} {supplied : List RecordedField} {given : List SuppliedField}
    (h : ∀ typeName declared, Records (c.recordObject typeName declared supplied v.pos t) fun path =>
      c.inputObject typeName declared given v.pos path t) :
    Records (c.recordNamed v supplied t) fun path => c.atNamed v given path t := by
  unfold recordNamed atNamed
  cases c.schema.named? t with
  | none => exact .error _ _
  | some named =>
    dsimp only
    cases named.body with
    | object => exact .error _ _
    | scalar =>
      cases v with
      | scalar => exact recordLeaf_records
      | _ => exact .error _ _
    | enum => exact recordLeaf_records
    | inputObject declared =>
      cases v with
      | object => exact h _ _
      | _ => exact .error _ _

lemma recordNamed_leaf {v : Literal} :
    Records (c.recordNamed v [] t) fun path => c.atNamed v [] path t := by
  refine recordNamed_records fun typeName declared => ?_
  have hnone : ∀ f ∈ ([] : List (Name × Literal)), ∀ t,
      Records (record c f.2 t) fun path => coerce c f.2 path t := by simp
  -- Without the equations the empty lists are not seen to be those of no fields.
  have hrecorded : ([] : List RecordedField) = recordedFields c [] := rfl
  have hsupplied : ([] : List SuppliedField) = suppliedFields c [] := rfl
  rw [hrecorded, hsupplied]
  exact recordObject_records hnone

/-- **The walk over a literal does what its coercion says.** -/
lemma record_records (v : Literal) (t : TypeId) : Records (c.record v t) fun path => c.coerce v path t := by
  induction v using Literal.induct generalizing t with
  | null p =>
    rw [record]
    simp only [coerce]
    exact recordNull_records
  | var name p =>
    rw [record]
    simp only [coerce]
    exact recordVariable_records
  | scalar kind text p =>
    rw [record]
    simp only [coerce]
    exact recordLone_records fun _ => recordNamed_leaf
  | list items p ih =>
    rw [record]
    simp only [coerce, coerceItems_eq]
    cases c.schema.element? t with
    | none => exact recordNamed_leaf
    | some e =>
      dsimp only
      rw [recordedItems_eq]
      refine @Records.listOf _ _ _ (fun v path => c.coerceItem v path e) (fun v hv => ?_) t
      unfold coerceItem
      cases c.isAbsent v with
      | true => exact recordNull_records
      | false => exact ih v hv e
  | object fields p ih =>
    rw [record]
    simp only [coerce]
    exact recordLone_records fun _ => recordNamed_records fun _ _ => recordObject_records ih

lemma recordDeclared_records (t : TypeRef) (v : Literal) :
    Records (c.recordDeclared t v) fun path => c.coerceDeclared t path v := by
  induction t generalizing v with
  | named n =>
    unfold recordDeclared coerceDeclared
    cases c.schema.typeId? n.text with
    | none => exact .error _ _
    | some t => exact record_records v t
  | nonNull t p ih =>
    unfold recordDeclared coerceDeclared
    cases v.isNull with
    | true => exact .error _ _
    | false => exact (ih v).map
  | list t p ih =>
    unfold recordDeclared coerceDeclared
    cases (c.schema.typesAccepting (.list t p)).head? with
    | none => exact .error _ _
    | some list =>
      cases v with
      | null => exact .ok _
      | list items q => exact Records.listOf (fun u _ => ih u) list
      | _ => exact (ih _).map

end CoercionContext

/-- How a walk ended that began in a state. -/
structure CoercionState.Tells (st : CoercionState) (run : Option Value × CoercionState) : Prop where
  /-- There is a value exactly if no error was added. -/
  succeeds : run.1.isSome = true ↔ run.2.errors = st.errors
  earlier : st.errors <+: run.2.errors
  path : run.2.path = st.path
  /-- What was added is at the path where the walk began, or below it. -/
  below : ∀ e ∈ run.2.errors.drop st.errors.length, st.path <+: e.path

lemma Recorder.Records.tells {run : Recorder (Option Value)} {coercion : Path → Coerced Value}
    (h : Records run coercion) (hsettled : ∀ path, (coercion path).IsSettled path) (st : CoercionState) :
    st.Tells (run st) := by
  rw [h st]
  refine ⟨(hsettled st.path).succeeds.trans ?_, List.prefix_append _ _, rfl, fun e he => ?_⟩
  · rw [List.append_right_eq_self]
  · exact (hsettled st.path).below e (by simpa using he)

namespace Schema

/-- What a check finds in a literal without variables is what stands against its coercion. -/
lemma literalErrors_eq_nil_iff (s : Schema) (t : TypeId) {v : Literal} (hv : v.containsVariables = false)
    (values : Option Variables) : s.literalErrors t v = [] ↔ ∃ w, s.coerceLiteral t v values = .ok w := by
  have hnone : v.variableUses = [] := by simpa [Literal.containsVariables] using hv
  have hsame : CoercionContext.coerce ⟨s, false, .unchecked⟩ v =
      CoercionContext.coerce ⟨s, false, scopeOf values⟩ v :=
    CoercionContext.coerce_scope (c := ⟨s, false, scopeOf values⟩) .unchecked v hnone
  have hsettled := CoercionContext.coerce_isSettled (c := ⟨s, false, scopeOf values⟩) v [] t
  unfold literalErrors coerceLiteral
  rw [hsame]
  simp only [Coerced.result_ok_iff]
  rw [exists_and_right, ← Option.isSome_iff_exists, hsettled.succeeds, and_self]

open Recorder in
/-- What is said of coercion by the types of a schema, of literals and of what came as JSON, whatever
variables mean. -/
structure TellsFailures (s : Schema) : Prop where
  literal : ∀ fromJson scope v t st,
    CoercionState.Tells st (CoercionContext.record ⟨s, fromJson, scope⟩ v t st)
  declared : ∀ fromJson scope t v st,
    CoercionState.Tells st (CoercionContext.recordDeclared ⟨s, fromJson, scope⟩ t v st)
  /-- Such walks and coercion are the same. -/
  literal_same : ∀ fromJson scope v t, Records (CoercionContext.record ⟨s, fromJson, scope⟩ v t)
    fun path => CoercionContext.coerce ⟨s, fromJson, scope⟩ v path t
  declared_same : ∀ fromJson scope t v, Records (CoercionContext.recordDeclared ⟨s, fromJson, scope⟩ t v)
    fun path => CoercionContext.coerceDeclared ⟨s, fromJson, scope⟩ t path v
  /-- A check finds nothing wrong with a literal without variables exactly if it can be coerced. -/
  checked : ∀ t v, v.containsVariables = false → ∀ values,
    s.literalErrors t v = [] ↔ ∃ w, s.coerceLiteral t v values = .ok w

/-- **Coercion fails exactly when it reports.** -/
theorem coercion_tellsFailures (s : Schema) : s.TellsFailures where
  literal _ _ v t := (CoercionContext.record_records v t).tells
    fun path => CoercionContext.coerce_isSettled v path t
  declared _ _ t v := (CoercionContext.recordDeclared_records t v).tells
    fun path => CoercionContext.coerceDeclared_isSettled t path v
  literal_same _ _ v t := CoercionContext.record_records v t
  declared_same _ _ t v := CoercionContext.recordDeclared_records t v
  checked t _ hv values := s.literalErrors_eq_nil_iff t hv values

end Schema

end GraphQL
