import GraphQL.Proofs.Coercion.Variables
import GraphQL.Proofs.Schema.Members
import GraphQL.Proofs.Schema.MoreLists
import GraphQL.Value.Rendering

/-!
What is behind a value that was coerced.

A constant that has a value has it because nothing is wrong with it at any depth: its objects supply what
their types declare, and the value is well typed.
-/

namespace GraphQL

variable {s s' : Schema} {t e : TypeId} {v : Literal} {w : Value}

/-- The objects of a literal, at whatever depth, supply fields that their types declare, and none of the
fields twice. -/
inductive SuppliesDeclared (s : Schema) : TypeId → Literal → Prop where
  | null {t : TypeId} {p : Pos} : SuppliesDeclared s t (.null p)
  | scalar {t : TypeId} {kind : LiteralKind} {text : String} {p : Pos} :
      SuppliesDeclared s t (.scalar kind text p)
  | list {t e : TypeId} {items : List Literal} {p : Pos} (element : s.element? t = some e)
      (below : ∀ v ∈ items, SuppliesDeclared s e v) : SuppliesDeclared s t (.list items p)
  | object {t : TypeId} {declared : List (String × TypeId)} {fields : List (Name × Literal)} {p : Pos}
      (isInput : s.inputTypes? t = some declared) (once : (fields.map (·.1.text)).Nodup)
      (known : ∀ f ∈ fields, f.1.text ∈ declared.map (·.1))
      (below : ∀ d ∈ declared, ∀ f ∈ fields, f.1.text = d.1 → SuppliesDeclared s d.2 f.2) :
      SuppliesDeclared s t (.object fields p)

namespace CoercionContext

variable {c : CoercionContext} {path : Path}

/-! ### The fields of objects -/

/-- An object has no value where something is wrong with the names of its fields. -/
lemma atNamed_fieldErrors {fields : List (Name × Literal)} {supplied : List SuppliedField} {p : Pos}
    {n : NamedType} {declared : List InputSpec} (hn : c.schema.named? t = some n)
    (hd : n.inputFields? = some declared) (h : (c.atNamed (.object fields p) supplied path t).value? = some w) :
    fieldErrors n.name declared path [] supplied = [] := by
  unfold atNamed at h
  rw [hn] at h
  dsimp only at h
  rw [NamedType.body_of_inputFields? hd] at h
  dsimp only [inputObject] at h
  split at h
  · rename_i hempty
    exact (List.append_eq_nil_iff.mp (List.isEmpty_iff.mp hempty)).1
  · cases h

lemma given_of_once (hc : c.scope = .forbidden) {fields : List (Name × Literal)} {f : Name × Literal}
    (honce : (fields.map (·.1.text)).Nodup) (hf : f ∈ fields) : c.given fields f.1.text = some f.2 := by
  rw [given, find?_of_nodup_keys honce hf]
  simp [isAbsent_of_forbidden hc]

/-! ### Constants -/

/-- Where a constant has a value, its objects supply what their types declare. -/
theorem coerce_suppliesDeclared (hr : c.schema.registry.WellFormed) (hc : c.scope = .forbidden)
    (h : (coerce c v path t).value? = some w) : SuppliesDeclared c.schema t v := by
  induction v using Literal.induct generalizing t path w with
  | null p => exact .null
  | var name p =>
    rw [coerce, coerceVariable_forbidden hc] at h
    cases h
  | scalar kind text p => exact .scalar
  | list items p ih =>
    rw [coerce] at h
    dsimp only at h
    split at h
    · rename_i e he
      obtain ⟨ws, hws, rfl⟩ := Option.map_eq_some_iff.mp h
      rw [coerceItems_eq, Coerced.all_map_value?_iff] at hws
      refine .list he fun v hv => ?_
      obtain ⟨k, hk⟩ := exists_mem_zipIdx hv
      obtain ⟨u, -, hvu⟩ := forall₂_exists_right hws hk
      simp only [coerceItem, isAbsent_of_forbidden hc] at hvu
      exact ih v hv hvu
    · simp [atNamed_list_value?] at h
  | object fields p ih =>
    rw [coerce] at h
    obtain ⟨u, hu, rfl⟩ := lone_value? h
    obtain ⟨n, declared, parts, hn, hd, rfl, hparts⟩ := atNamed_object_value? hu
    obtain ⟨honce, hknown⟩ := fieldErrors_eq_nil_iff.mp (atNamed_fieldErrors hn hd hu)
    rw [suppliedFields_eq, List.map_map] at honce hknown
    have hinput : c.schema.inputTypes? t = some (declared.map fun d => (d.name, d.type)) := by
      simp [Schema.inputTypes?, (named?_base hr t).symm.trans hn, hd]
    refine .object hinput honce (fun f hf => ?_) fun d hmem f hf hname => ?_
    · rw [List.map_map]
      exact (hknown _ (List.mem_map_of_mem hf)).1
    · obtain ⟨spec, hspec, rfl⟩ := List.mem_map.mp hmem
      obtain ⟨part, -, hpart⟩ := forall₂_exists_right hparts hspec
      obtain ⟨u, hu, -⟩ := fieldValue_given_value? (hname ▸ given_of_once hc honce hf) hpart
      exact ih f hf hu

/-- What a constant comes to is well typed, if the defaults of the schema are. -/
lemma coerce_constant_wellTyped (hr : c.schema.registry.WellFormed) (hdefaults : c.schema.DefaultsWellTyped)
    (hc : c.scope = .forbidden) (hv : v.IsProper) (h : (coerce c v path t).value? = some w) :
    WellTyped c.schema t w := by
  refine coerce_wellTyped hr hv false h (fun name l b _ p path u hu => ?_) fun n d hd => leavesOut_fallback hdefaults hd
  rw [coerceVariable_forbidden hc] at hu
  cases hu

end CoercionContext

namespace Schema

variable {ds : List SchemaDocument} {id : ℕ}

/-- **Coercion makes well-typed values only**: in a schema whose defaults are well typed, what a literal or a
value of JSON comes to is of the type that it is coerced to, at every depth, and no field was supplied for it
twice or without being declared. The boolean literals are `true` and `false`, as all are that come from a text or
from JSON. -/
theorem coerced_wellTyped (hds : ∀ d ∈ ds, ∃ file text, SchemaDocument.load file text = .ok d)
    (hs : build ds id = .ok s) (hlists : s.WithLists s') (hdefaults : s.DefaultsWellTyped) (hv : v.IsProper)
    (h : s'.coerceLiteral t v none = .ok w ∨ s'.coerceJson t v = .ok w) :
    WellTyped s' t w ∧ SuppliesDeclared s' t v := by
  have hwf := build_wellFormed hds hs
  have hr := (hlists.wellFormed hwf).registry
  have hdefaults' : s'.DefaultsWellTyped := fun i hi u hu =>
    hlists.wellTyped hwf.registry (hdefaults i (hlists.inputs ▸ hi) u hu)
  have hvalue (fromJson : Bool) (h : (CoercionContext.coerce ⟨s', fromJson, .forbidden⟩ v [] t).value? = some w) :
      WellTyped s' t w ∧ SuppliesDeclared s' t v :=
    ⟨CoercionContext.coerce_constant_wellTyped (c := ⟨s', fromJson, .forbidden⟩) hr hdefaults' rfl hv h,
      CoercionContext.coerce_suppliesDeclared (c := ⟨s', fromJson, .forbidden⟩) hr rfl h⟩
  rcases h with h | h
  · exact hvalue false (Coerced.result_ok_iff.mp h).1
  · exact hvalue true (Coerced.result_ok_iff.mp h).1

def rangesText : String := "type Query \x7b f(in: [Range!]): Int \x7d "
  ++ "input Range \x7b low: Int! = 1, high: Float, unit: Unit \x7d enum Unit \x7b CELL ROW \x7d"

/-- A single range for a list of them, with an enum value by its JSON string. -/
def ranges : Literal := .object [(⟨"unit", .start⟩, .scalar .string "ROW" .start)] .start

/-- A schema by its text, with the defaults that are pending when it is resolved, one of its inputs and what a
value of JSON comes to there. -/
def coerceAsInput? (schemaText name : String) (l : Literal) :
    Option (SchemaDocument × List PendingDefault × Schema × InputSpec × Value) := do
  let d ← (SchemaDocument.load none schemaText).toOption
  let resolved ← (resolve [d] 0).toOption
  let s ← (build [d] 0).toOption
  let i ← s.inputs.find? fun i => i.name == name
  let w ← (s.coerceJson i.type l).toOption
  return (d, resolved.2.pending, s, i, w)

lemma coerceAsInput?_eq_some {schemaText name : String} {d : SchemaDocument} {pending : List PendingDefault}
    {i : InputSpec} (h : coerceAsInput? schemaText name v = some (d, pending, s, i, w))
    (hflat : ∀ p ∈ pending, isFlat p.literal = true) : SchemaDocument.load none schemaText = .ok d ∧
      build [d] 0 = .ok s ∧ s.DefaultsWellTyped ∧ i ∈ s.inputs ∧ s.coerceJson i.type v = .ok w := by
  obtain ⟨d', hd, h⟩ := Option.bind_eq_some_iff.mp h
  obtain ⟨⟨s₀, st⟩, hr, h⟩ := Option.bind_eq_some_iff.mp h
  obtain ⟨s', hs, h⟩ := Option.bind_eq_some_iff.mp h
  obtain ⟨i', hi, h⟩ := Option.bind_eq_some_iff.mp h
  obtain ⟨w', hw, heq⟩ := Option.bind_eq_some_iff.mp h
  cases heq
  have hload := toOption_eq_some.mp hd
  have hbuild := toOption_eq_some.mp hs
  have hproper := SchemaDocument.load_isProper hload
  exact ⟨hload, hbuild,
    build_wellTyped_of_flat (List.forall_mem_singleton.mpr hproper) (toOption_eq_some.mp hr) hbuild hflat,
    List.mem_of_find?_eq_some hi, toOption_eq_some.mp hw⟩

/-- The one that is supplied is a list of one, with the default of what it leaves out. -/
theorem coerced_wellTyped_of_ranges : ∃ d s i w, SchemaDocument.load none rangesText = .ok d ∧
    build [d] 0 = .ok s ∧ s.DefaultsWellTyped ∧ i ∈ s.inputs ∧ ranges.IsProper ∧
    s.coerceJson i.type ranges = .ok w ∧ (w.toLiteral s).render = "[\x7blow: 1, high: null, unit: ROW\x7d]" ∧
    WellTyped s i.type w ∧ SuppliesDeclared s i.type ranges := by
  have hrun : (coerceAsInput? rangesText "in" ranges).any (fun (_, pending, s, _, w) =>
      pending.all (fun p => isFlat p.literal) &&
        (w.toLiteral s).render == "[\x7blow: 1, high: null, unit: ROW\x7d]") = true := by
    decide +kernel
  obtain ⟨⟨d, pending, s, i, w⟩, hrun, hcheck⟩ := (Option.any_eq_true _ _).mp hrun
  simp only [Bool.and_eq_true, List.all_eq_true, beq_iff_eq] at hcheck
  obtain ⟨hflat, htext⟩ := hcheck
  obtain ⟨hload, hbuild, hdefaults, hi, hw⟩ := coerceAsInput?_eq_some hrun hflat
  have hproper : ranges.IsProper := .object _ (by simp [Literal.IsProper.scalar])
  obtain ⟨htyped, hsupplied⟩ := coerced_wellTyped (List.forall_mem_singleton.mpr ⟨_, _, hload⟩) hbuild .refl
    hdefaults hproper (.inr hw)
  exact ⟨d, s, i, w, hload, hbuild, hdefaults, hi, hproper, hw, htext, htyped, hsupplied⟩

end Schema

end GraphQL
