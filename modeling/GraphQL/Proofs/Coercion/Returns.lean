import GraphQL.Proofs.Coercion.Typing
import GraphQL.Proofs.Schema.Members
import GraphQL.Proofs.Schema.MoreLists
import GraphQL.Proofs.Value.Written

/-!
Values that come back when they are written and coerced again.

A leaf is kept in a form that its type reads as itself. Lists come back as lists, never as lone values,
and objects have all their fields, so that nothing is filled in. What was null is written as null, which
no default replaces.
-/

namespace GraphQL

/-- A value is what it is written as comes to, in any spelling. -/
def Schema.Returns (s : Schema) (t : TypeId) (v : Value) : Prop :=
  ∀ kind, s.Suits kind → ∀ path, s.constant.coerce (v.write kind) path t = .ok v

namespace Coerced

variable {α β : Type}

@[simp] lemma map_ok (f : α → β) (a : α) : (ok a).map f = ok (f a) := rfl

lemma all_ok (as : List α) : all (as.map ok) = ok as := by
  induction as with
  | nil => rfl
  | cons a as ih =>
    show (⟨(all (as.map ok)).value?.map (a :: ·), [] ++ (all (as.map ok)).errors⟩ : Coerced (List α)) = _
    rw [ih]
    rfl

end Coerced

namespace CoercionContext

variable {c c' : CoercionContext} {t e : TypeId} {n : NamedType} {w : Literal} {kind kind' : LiteralKind}
  {text result : String}

/-! ### Leaves -/

/-- The text that a scalar is kept as is taken as it is. -/
lemma scalarText_again {builtin : Option BuiltinScalar} (hbody : n.body = .scalar builtin)
    (h : c.scalarText n.name builtin kind text w = .ok result)
    (hkind : kind'.Spells n.leafKind) (w' : Literal) :
    c'.scalarText n.name builtin kind' result w' = .ok result := by
  obtain ⟨name, description, body⟩ := n
  cases hbody
  unfold scalarText at h ⊢
  unfold LiteralKind.Spells NamedType.leafKind at hkind
  rcases builtin with _ | _ | _ | _ | _ | _
  · rfl
  · obtain ⟨k, hk, rfl⟩ := coerceInt_legal h
    obtain rfl : kind' = .int := by simpa using hkind
    simp only [coerceInt, Reading.int32?_toString hk]
  · obtain ⟨x, hx, hfinite, rfl⟩ := coerceFloat_legal h
    have hread := Layout.float?_render (Reading.float?_representable hx hfinite)
    rcases hkind with rfl | ⟨-, rfl⟩ <;> simp [coerceFloat, hread, hfinite]
  · obtain rfl : kind' = .string := by simpa using hkind
    rfl
  · obtain rfl : kind' = .boolean := by simpa using hkind
    rfl
  · obtain rfl : kind' = .string := by simpa using hkind
    rfl

lemma enumText_again {values : List EnumValueSpec} (hbody : n.body = .enum values)
    (h : c.enumText n.name values w = .ok result)
    (hkind : kind'.Spells n.leafKind) (p : Pos) :
    c'.enumText n.name values (.scalar kind' result p) = .ok result := by
  have hlegal := enumText_legal hbody h
  obtain ⟨name, description, body⟩ := n
  cases hbody
  obtain ⟨v, hv, rfl⟩ := hlegal
  obtain rfl : kind' = .enum := by simpa [LiteralKind.Spells, NamedType.leafKind] using hkind
  exact if_pos (List.any_eq_true.mpr ⟨v, hv, by simp⟩)

/-- A leaf comes back from a literal of its kind. -/
lemma atNamed_again {p : Pos} {path : Path} {u : Value}
    (h : (c.atNamed (.scalar kind text p) [] path t).value? = some u) :
    ∃ n result, c.schema.named? t = some n ∧ u = .scalar t result ∧
      ∀ c' : CoercionContext, c'.schema.named? t = some n →
        ∀ kind', kind'.Spells n.leafKind → ∀ path' p',
          c'.atNamed (.scalar kind' result p') [] path' t = .ok u := by
  unfold atNamed at h
  split at h
  · simp [Coerced.error] at h
  rename_i n hn
  split at h
  · simp [Coerced.error] at h
  · rename_i builtin hbody
    obtain ⟨result, htext, rfl⟩ := leaf_value? h
    refine ⟨n, result, hn, rfl, fun c' hn' kind' hkind path' p' => ?_⟩
    simp [atNamed, hn', hbody, scalarText_again hbody htext hkind, leaf, Coerced.ok]
  · rename_i values hbody
    obtain ⟨result, htext, rfl⟩ := leaf_value? h
    refine ⟨n, result, hn, rfl, fun c' hn' kind' hkind path' p' => ?_⟩
    simp [atNamed, hn', hbody, enumText_again hbody htext hkind, leaf, Coerced.ok]
  · simp [Coerced.error] at h

end CoercionContext

namespace Schema

open CoercionContext

variable {s s' : Schema} {t e : TypeId} {n : NamedType} {declared : List InputSpec}

lemma constant_isAbsent (s : Schema) (v : Literal) : s.constant.isAbsent v = false := by
  cases v <;> rfl

lemma lone_single {coerce : Coercer} (hs : s.element? t = none) (path : Path) :
    s.constant.lone coerce path t = coerce path t := by
  have hlayers : s.registry.layers t = ([], t) := TypeRegistry.layers_single hs
  unfold lone
  rw [show s.constant.schema = s from rfl, hlayers]
  simp [Coerced.map]

lemma returns_null (ht : t.isNonNull = false) : s.Returns t (.null t) := by
  intro kind _ path
  rw [Value.write, coerce, coerceNull, ht]
  rfl

lemma returns_list (he : s.element? t = some e) {items : List Value} (h : ∀ v ∈ items, s.Returns e v) :
    s.Returns t (.list t items) := by
  intro kind hkind path
  have hitems (i : Nat) : coerceItems s.constant path e i (Value.writeItems kind items) = items.map .ok := by
    induction items generalizing i with
    | nil => rfl
    | cons v vs ih =>
      obtain ⟨hv, hvs⟩ := List.forall_mem_cons.mp h
      rw [Value.writeItems, coerceItems, constant_isAbsent, List.map_cons, ih hvs]
      exact congrArg (· :: vs.map Coerced.ok) (hv kind hkind _)
  rw [Value.write, coerce]
  simp only [show s.constant.schema = s from rfl, he]
  rw [hitems, Coerced.all_ok, Coerced.map_ok]

/-! ### Objects -/

lemma given_writeFields {kind : TypeId → String → LiteralKind} {fields : List (String × Value)}
    (hnodup : (fields.map (·.1)).Nodup) {f : String × Value} (hf : f ∈ fields) {name : String}
    (hname : name = f.1) :
    s.constant.given (Value.writeFields kind fields) name = some (f.2.write kind) := by
  subst hname
  unfold given
  rw [Value.writeFields_eq, List.find?_map]
  simp only [Function.comp_def]
  rw [find?_of_nodup_keys hnodup hf]
  simp [constant_isAbsent]

lemma returns_object (hs : s.element? t = none) (hn : s.named? t = some n)
    (hd : n.inputFields? = some declared) (hnodup : (declared.map (·.name)).Nodup)
    {fields : List (String × Value)}
    (h : List.Forall₂ (fun d f => d.name = f.1 ∧ s.Returns d.type f.2) declared fields) :
    s.Returns t (.object t fields) := by
  intro kind hkind path
  have hnames : fields.map (·.1) = declared.map (·.name) :=
    (forall₂_map_eq h fun _ _ hdf => hdf.1).symm
  rw [Value.write, coerce, lone_single hs]
  unfold atNamed
  rw [show s.constant.schema = s from rfl, hn]
  dsimp only
  rw [NamedType.body_of_inputFields? hd]
  dsimp only
  have hsupplied : suppliedFields s.constant (Value.writeFields kind fields)
      = fields.map fun f => ⟨⟨f.1, .start⟩, f.2.write kind, coerce s.constant (f.2.write kind)⟩ := by
    rw [Value.writeFields_eq, suppliedFields_eq, List.map_map]
    rfl
  have hunknown : fieldErrors n.name declared path [] (suppliedFields s.constant (Value.writeFields kind fields))
      = [] := by
    rw [hsupplied, fieldErrors_eq_nil_iff, List.map_map]
    refine ⟨hnames ▸ hnodup, fun name hname => ⟨hnames ▸ hname, List.not_mem_nil⟩⟩
  have hvalues (p : Pos) : declared.map (s.constant.fieldValue n.name
      (suppliedFields s.constant (Value.writeFields kind fields)) p path) = fields.map .ok := by
    obtain ⟨hlen, hzip⟩ := List.forall₂_iff_zip.mp h
    have hpairs : List.Forall₂ (fun d f => f ∈ fields ∧ d.name = f.1 ∧ s.Returns d.type f.2) declared fields :=
      List.forall₂_iff_zip.mpr ⟨hlen, fun hmem => ⟨(List.of_mem_zip hmem).2, hzip hmem⟩⟩
    refine forall₂_map_eq hpairs ?_
    rintro d f ⟨hf, hname, hreturns⟩
    rw [fieldValue_given (given_writeFields (hnames ▸ hnodup) hf hname), hreturns kind hkind, Coerced.map_ok, hname]
  simp only [inputObject, hunknown, hvalues, Coerced.all_ok]
  rfl

/-! ### What coercion makes -/

/-- **Coerced values come back**, also where lists were added to the schema. -/
theorem returns_compositional (hs : s.WellFormed) : s.constant.Compositional (fun _ => True)
    fun t v => ∀ s', s.WithLists s' → s'.Returns t v where
  item _ _ _ := trivial
  field _ _ _ := trivial
  null nullable _ _ := returns_null nullable
  leaf _ single coerced s' hs' := by
    obtain ⟨n, result, hn, rfl, hagain⟩ := atNamed_again coerced
    have hn' := hs'.named? hs.registry hn
    intro kind hkind path
    rw [Value.write, coerce, lone_single ((hs'.element? hs.registry (has_of_named? hn)).trans single)]
    exact hagain s'.constant hn' _ (leafKind_eq hn' ▸ hkind _ _) path .start
  list element holds s' hs' :=
    returns_list ((hs'.element? hs.registry (TypeRegistry.has_of_element? element)).trans element)
      fun v hv => holds v hv s' hs'
  object single named isInput holds s' hs' :=
    returns_object ((hs'.element? hs.registry (has_of_named? named)).trans single) (hs'.named? hs.registry named)
      isInput (inputFields_nodup hs named isInput) (holds.imp fun _ _ h => ⟨h.1, h.2 s' hs'⟩)

end Schema

end GraphQL
