import GraphQL.Coercion
import GraphQL.Proofs.Document.Literal
import GraphQL.Proofs.Lists

/-!
The parts of a literal that a coercion looks at.

A literal is coerced at every place where it has a variable, and where it leaves out a field of an
input object the declaration of the field counts.
-/

namespace GraphQL

namespace Coerced

variable {α β : Type}

lemma all_value?_iff {cs : List (Coerced α)} {as : List α} :
    (all cs).value? = some as ↔ List.Forall₂ (fun c a => c.value? = some a) cs as := by
  induction cs generalizing as with
  | nil =>
    rw [List.forall₂_nil_left_iff]
    exact ⟨fun h => (Option.some.inj h).symm, fun h => congrArg some h.symm⟩
  | cons c cs ih =>
    show (c.value?.bind fun a => (all cs).value?.map (a :: ·)) = some as ↔ _
    rw [List.forall₂_cons_left_iff, Option.bind_eq_some_iff]
    constructor
    · rintro ⟨a, ha, hrest⟩
      obtain ⟨rest, hall, rfl⟩ := Option.map_eq_some_iff.mp hrest
      exact ⟨a, rest, ha, ih.mp hall, rfl⟩
    · rintro ⟨a, rest, ha, hall, rfl⟩
      exact ⟨a, ha, Option.map_eq_some_iff.mpr ⟨rest, ih.mpr hall, rfl⟩⟩

lemma all_errors (cs : List (Coerced α)) : (all cs).errors = cs.flatMap (·.errors) := by
  induction cs with
  | nil => rfl
  | cons c cs ih =>
    show c.errors ++ (all cs).errors = _
    rw [ih, List.flatMap_cons]

lemma all_errors_eq_nil {cs : List (Coerced α)} :
    (all cs).errors = [] ↔ ∀ c ∈ cs, c.errors = [] := by
  rw [all_errors, List.flatMap_eq_nil_iff]

lemma all_map_value?_iff {f : β → Coerced α} {bs : List β} {as : List α} :
    (all (bs.map f)).value? = some as ↔ List.Forall₂ (fun b a => (f b).value? = some a) bs as := by
  rw [all_value?_iff, List.forall₂_map_left_iff]

lemma result_ok_iff {c : Coerced α} {a : α} :
    c.result = .ok a ↔ c.value? = some a ∧ c.errors = [] := by
  obtain ⟨value, errors⟩ := c
  cases value <;> cases errors <;> simp [result]

end Coerced

/-- What stands for an input that is not supplied is its default, or null if it takes null. -/
lemma InputSpec.fallback_holds {P : Value → Prop} {i : InputSpec}
    (hnull : i.type.isNonNull = false → P (.null i.type)) (hdefault : ∀ v, i.default? = some v → P v)
    (hreq : i.isRequired = false) : P i.fallback := by
  cases hv : i.default? with
  | none =>
    rw [fallback, hv, Option.getD_none]
    exact hnull (by simpa [isRequired, hv] using hreq)
  | some v =>
    rw [fallback, hv, Option.getD_some]
    exact hdefault v hv

lemma NamedType.body_of_inputFields? {n : NamedType} {declared : List InputSpec} (h : n.inputFields? = some declared) :
    n.body = .inputObject declared := by
  obtain ⟨name, description, body⟩ := n
  cases body <;> cases h
  rfl

namespace CoercionContext

variable {c : CoercionContext}

/-- The literal for a field of an object, unless it is a variable without a value. -/
def given (c : CoercionContext) (fields : List (Name × Literal)) (name : String) : Option Literal :=
  ((fields.find? fun f => f.1.text == name).map (·.2)).filter fun v => !c.isAbsent v

lemma given_spec {fields : List (Name × Literal)} {name : String} {v : Literal}
    (h : c.given fields name = some v) :
    (∃ f ∈ fields, f.1.text = name ∧ f.2 = v) ∧ c.isAbsent v = false := by
  obtain ⟨hv, ha⟩ := Option.filter_eq_some_iff.mp h
  obtain ⟨f, hf, rfl⟩ := Option.map_eq_some_iff.mp hv
  refine ⟨⟨f, List.mem_of_find?_eq_some hf, ?_, rfl⟩, by simpa using ha⟩
  simpa using List.find?_some hf

lemma suppliedFields_eq (c : CoercionContext) (fields : List (Name × Literal)) :
    suppliedFields c fields = fields.map fun f => ⟨f.1, f.2, coerce c f.2⟩ := by
  induction fields with
  | nil => rfl
  | cons f fs ih =>
    obtain ⟨n, v⟩ := f
    rw [suppliedFields, ih, List.map_cons]

/-- Nothing is wrong with the names of fields that are declared and there once. -/
lemma fieldErrors_eq_nil_iff {typeName : String} {declared : List InputSpec} {path : Path} {seen : List String}
    {fs : List SuppliedField} : fieldErrors typeName declared path seen fs = [] ↔
      (fs.map (·.name.text)).Nodup ∧
        ∀ name ∈ fs.map (·.name.text), name ∈ declared.map (·.name) ∧ name ∉ seen := by
  induction fs generalizing seen with
  | nil => simp [fieldErrors]
  | cons f fs ih =>
    have hknown : (declared.any fun d => d.name == f.name.text) = true ↔ f.name.text ∈ declared.map (·.name) := by
      simp [List.any_eq_true]
    rw [fieldErrors, List.map_cons, List.nodup_cons, List.forall_mem_cons, ← hknown]
    split
    · simp_all
    split
    · simp_all
    rw [ih]
    grind

lemma find?_suppliedFields (fields : List (Name × Literal)) (name : String) :
    ((suppliedFields c fields).find? fun f => f.name.text == name)
      = (fields.find? fun f => f.1.text == name).map fun f => ⟨f.1, f.2, coerce c f.2⟩ := by
  rw [suppliedFields_eq, List.find?_map]
  rfl

lemma fieldValue_given {typeName : String} {fields : List (Name × Literal)} {p : Pos} {path : Path}
    {d : InputSpec} {v : Literal} (h : c.given fields d.name = some v) :
    c.fieldValue typeName (suppliedFields c fields) p path d
      = (coerce c v (path ++ [.key d.name]) d.type).map fun w => (d.name, w) := by
  obtain ⟨hv, ha⟩ := Option.filter_eq_some_iff.mp h
  obtain ⟨f, hf, rfl⟩ := Option.map_eq_some_iff.mp hv
  unfold fieldValue
  rw [find?_suppliedFields, hf]
  simp [Option.filter, ha]

lemma fieldValue_missing {typeName : String} {fields : List (Name × Literal)} {p : Pos} {path : Path}
    {d : InputSpec} (h : c.given fields d.name = none) :
    c.fieldValue typeName (suppliedFields c fields) p path d
      = if d.isRequired then
          .error (.missingField typeName d.name (c.schema.typeName d.type)) p path
        else .ok (d.name, d.fallback) := by
  unfold fieldValue
  rw [find?_suppliedFields]
  cases hf : fields.find? fun f => f.1.text == d.name with
  | none => simp
  | some f =>
    have ha : c.isAbsent f.2 = true := by
      simpa [given, hf, Option.filter] using h
    simp [Option.filter, ha]

/-- The value of an item of a list: a variable without a value stands for null. -/
def coerceItem (c : CoercionContext) (v : Literal) : Coercer :=
  if c.isAbsent v then c.coerceNull v.pos else coerce c v

lemma coerceItems_eq (path : Path) (e : TypeId) (n : Nat) (items : List Literal) :
    coerceItems c path e n items
      = (items.zipIdx n).map fun p => c.coerceItem p.1 (path ++ [.index p.2]) e := by
  induction items generalizing n with
  | nil => rfl
  | cons v vs ih => rw [coerceItems, List.zipIdx_cons, List.map_cons, ih (n + 1)]; rfl

/-- A literal of a type leaves out a field of an input object, at whatever depth. -/
inductive LeavesOut (c : CoercionContext) : Literal → TypeId → String → InputSpec → Prop where
  | here {fields : List (Name × Literal)} {p : Pos} {t : TypeId} {n : NamedType}
      {declared : List InputSpec} {d : InputSpec} (named : c.schema.named? t = some n)
      (isInput : n.inputFields? = some declared) (mem : d ∈ declared)
      (missing : c.given fields d.name = none) : LeavesOut c (.object fields p) t n.name d
  | field {fields : List (Name × Literal)} {p : Pos} {t : TypeId} {n : NamedType}
      {declared : List InputSpec} {d e : InputSpec} {v : Literal} {typeName : String}
      (named : c.schema.named? t = some n) (isInput : n.inputFields? = some declared)
      (mem : d ∈ declared) (given : c.given fields d.name = some v)
      (below : LeavesOut c v d.type typeName e) : LeavesOut c (.object fields p) t typeName e
  | item {items : List Literal} {p : Pos} {t e : TypeId} {v : Literal} {d : InputSpec}
      {typeName : String} (element : c.schema.element? t = some e) (mem : v ∈ items)
      (present : c.isAbsent v = false) (below : LeavesOut c v e typeName d) :
      LeavesOut c (.list items p) t typeName d

/-- A literal of a type has a variable at a place, which may have a default of its own. -/
inductive UsesVariable (s : Schema) : Literal → TypeId → Bool → String → TypeId → Bool → Prop where
  | here {name : String} {p : Pos} {t : TypeId} {hasDefault : Bool} :
      UsesVariable s (.var name p) t hasDefault name t hasDefault
  | item {items : List Literal} {p : Pos} {t e location : TypeId} {hasDefault ownDefault : Bool}
      {v : Literal} {name : String} (element : s.element? t = some e) (mem : v ∈ items)
      (below : UsesVariable s v e false name location ownDefault) :
      UsesVariable s (.list items p) t hasDefault name location ownDefault
  | field {fields : List (Name × Literal)} {p : Pos} {t location : TypeId}
      {hasDefault ownDefault : Bool} {n : NamedType} {declared : List InputSpec} {d : InputSpec}
      {f : Name × Literal} {name : String} (named : s.named? t = some n)
      (isInput : n.inputFields? = some declared) (mem : d ∈ declared) (field : f ∈ fields)
      (isNamed : f.1.text = d.name)
      (below : UsesVariable s f.2 d.type d.default?.isSome name location ownDefault) :
      UsesVariable s (.object fields p) t hasDefault name location ownDefault

end CoercionContext

end GraphQL
