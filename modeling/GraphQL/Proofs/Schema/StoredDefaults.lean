import GraphQL.Proofs.Coercion.Returns
import GraphQL.Proofs.Schema.DefaultFinal

/-!
What holds of the defaults that a schema stores.

Each of them is what a literal comes to. What that literal leaves out has a default of its own, of an input
object further down. So what coercion passes on from parts to values holds of all of them.
-/

namespace GraphQL

open CoercionContext

variable {ds : List SchemaDocument} {id : ℕ}

namespace SchemaDocument

/-- The defaults of proper documents are proper. -/
lemma ownedInputs_isProper (hd : ∀ d ∈ ds, d.IsProper) {p : InputOwner × InputDefinition}
    (hp : p ∈ ownedInputs ds) {l : Literal} (hl : p.2.default? = some l) : l.IsProper := by
  obtain ⟨t, ht, hp⟩ := List.mem_flatMap.mp hp
  obtain ⟨d, hmem, ht⟩ := List.mem_flatMap.mp ht
  refine List.forall_mem_cons.mpr ⟨introspection_isProper, hd⟩ d hmem t ht l ?_
  obtain ⟨description, name, directives, body, pos⟩ := t
  cases body with
  | scalar => simp [TypeDefinition.ownedInputs, TypeBody.ownedInputs] at hp
  | enum values => simp [TypeDefinition.ownedInputs, TypeBody.ownedInputs] at hp
  | input fields =>
    obtain ⟨f, hf, rfl⟩ := List.mem_map.mp hp
    exact List.mem_filterMap.mpr ⟨f, hf, hl⟩
  | object fields =>
    obtain ⟨f, hf, hp⟩ := List.mem_flatMap.mp hp
    obtain ⟨a, ha, rfl⟩ := List.mem_map.mp hp
    exact List.mem_flatMap.mpr ⟨f, hf, List.mem_filterMap.mpr ⟨a, ha, hl⟩⟩

end SchemaDocument

namespace Schema

variable {s s₀ : Schema} {t : TypeId} {v w : Value} {l : Literal} {Good : Literal → Prop}
  {P : TypeId → Value → Prop}

/-! ### Literals behind defaults -/

/-- Each default is what a proper literal comes to. -/
def StoresLiterals (s : Schema) : Prop :=
  ∀ i ∈ s.inputs, ∀ v, i.default? = some v → ∃ l : Literal, l.IsProper ∧ s.coerceLiteral i.type l none = .ok v

lemma SameTypes.named?_scalar (h : SameTypes s₀ s) {b : BuiltinScalar} (hn : s₀.named? t = some b.namedType) :
    s.named? t = some b.namedType := by
  have hbare := h.named? (t := t)
  rw [hn, Option.map_some] at hbare
  obtain ⟨⟨name, description, body⟩, hn', heq⟩ := Option.map_eq_some_iff.mp hbare
  rw [hn']
  cases body <;> cases heq
  rfl

/-- A string is what it is at the type of strings. -/
lemma coerceLiteral_string (hs : s.element? t = none) (hn : s.named? t = some BuiltinScalar.string.namedType)
    (text : String) : s.coerceLiteral t (.scalar .string text .start) none = .ok (.scalar t text) := by
  have hcoerce : s.constant.coerce (.scalar .string text .start) [] t = .ok (.scalar t text) := by
    rw [coerce, lone_single hs]
    unfold atNamed
    rw [show s.constant.schema = s from rfl, hn]
    rfl
  exact congrArg Coerced.result hcoerce

lemma build_storesLiterals (hd : ∀ d ∈ ds, d.IsProper) (h : build ds id = .ok s) (hrec : s.NoInputRecursion) :
    s.StoresLiterals := by
  intro i hi v hv
  rw [inputs, List.append_assoc, List.mem_append] at hi
  rcases hi with hi | hi
  · obtain ⟨q, hq, rfl⟩ := List.mem_map.mp hi
    obtain ⟨p, hp, hholds⟩ := forall₂_exists_left (build_holdsDefaults hd h hrec) hq
    have hdefault := hholds.default
    rw [hv, Option.map_some, eq_comm, Option.map_eq_some_iff] at hdefault
    obtain ⟨l, hl, hcoerced⟩ := hdefault
    exact ⟨l, SchemaDocument.ownedInputs_isProper hd hp hl, hcoerced⟩
  · obtain ⟨s₀, st, hr, hst, happlies⟩ := build_applies h
    obtain ⟨r, hbuiltins⟩ := (resolve_resolved hd hr hst).builtins
    obtain ⟨hdirectives, hmeta, -⟩ := happlies.frame
    rw [hdirectives, hmeta] at hi
    obtain ⟨⟨text, rfl⟩, hsingle, hnamed⟩ := hbuiltins.default_string hi hv
    exact ⟨.scalar .string text .start, .scalar _ (by simp), coerceLiteral_string
      (happlies.sameTypes.element?.trans hsingle) (happlies.sameTypes.named?_scalar hnamed) text⟩

/-! ### From literals to defaults -/

/-- A constant has what is passed on, if so do the defaults of the fields that it leaves out. -/
lemma coerceLiteral_holds (hr : s.registry.WellFormed) (hP : s.constant.Compositional Good P) (hl : Good l)
    (hleft : ∀ n d, s.constant.LeavesOut l t n d → ∀ v, d.default? = some v → P d.type v)
    (h : s.coerceLiteral t l none = .ok w) : P t w := by
  refine hP.coerce hr hl false (Coerced.result_ok_iff.mp h).1 ?_ fun n d hd hreq =>
    InputSpec.fallback_holds hP.null (hleft n d hd) hreq
  intro name e b _ p path u hu
  cases hu

/-- A default as if it was still to be applied. -/
def pendingOf (q : InputOwner × InputSpec) (l : Literal) : PendingDefault := ⟨q.1, q.2.type, l, ⟨none, ⟨1, 1⟩⟩⟩

/-- **Induction along defaults**: what coercion passes on from parts to values holds of all defaults. -/
theorem StoresLiterals.holds (hstores : s.StoresLiterals) (hs : s.WellFormed) (hrec : s.NoInputRecursion)
    (hP : s.constant.Compositional Good P) (hgood : ∀ l : Literal, l.IsProper → Good l) :
    ∀ i ∈ s.inputs, ∀ v, i.default? = some v → P i.type v := by
  -- What a literal leaves out belongs to an input object with a smaller place in the order.
  have howned : ∀ q ∈ s.ownedInputs, ∀ v, q.2.default? = some v → P q.2.type v := by
    intro q hq
    generalize hplace : rank s.inputOrder (pendingOf q (.null .start)) = place
    induction place using Nat.strong_induction_on generalizing q with
    | _ place ih =>
      intro v hv
      obtain ⟨l, hl, hcoerced⟩ := hstores q.2 (mem_inputs_of_owned hq) v hv
      refine coerceLiteral_holds hs.registry hP (hgood l hl) (fun n d hd => ?_) hcoerced
      refine ih _ ?_ (.inputField n d.name, d) hd.owned rfl
      have hkey : (pendingOf q l).key ∈ s.ownedTypes := List.mem_map.mpr ⟨q, hq, rfl⟩
      rw [← hplace]
      exact rank_lt_of_needs (p := pendingOf q l) (q := pendingOf (.inputField n d.name, d) (.null .start))
        hs hrec hkey ⟨n, d, hd, rfl⟩
  intro i hi v hv
  obtain ⟨l, hl, hcoerced⟩ := hstores i hi v hv
  exact coerceLiteral_holds hs.registry hP (hgood l hl) (fun n d hd => howned _ hd.owned) hcoerced

end Schema

end GraphQL
