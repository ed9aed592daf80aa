import GraphQL.Proofs.Coercion.Errors
import GraphQL.Proofs.Document.Unplaced

/-!
Coercion does not look at places.

Where a literal is written only counts for the errors that are reported. So equivalent literals have the
same value, or both of them none, and arguments have the same values in whatever order they are written.
-/

namespace GraphQL

namespace Coerced

variable {α β : Type}

/-- Two outcomes with the same value, if they have one, and with errors in both or in neither. -/
structure Alike (x y : Coerced α) : Prop where
  value : x.value? = y.value?
  errors : x.errors = [] ↔ y.errors = []

namespace Alike

variable {x y z : Coerced α}

lemma refl (x : Coerced α) : Alike x x := ⟨rfl, Iff.rfl⟩

lemma symm (h : Alike x y) : Alike y x := ⟨h.value.symm, h.errors.symm⟩

lemma trans (h : Alike x y) (h' : Alike y z) : Alike x z :=
  ⟨h.value.trans h'.value, h.errors.trans h'.errors⟩

lemma error (cause cause' : CoercionErrorCause) (p q : Pos) (path : Path) :
    Alike (.error cause p path : Coerced α) (.error cause' q path) := ⟨rfl, by simp [Coerced.error]⟩

lemma map (f : α → β) (h : Alike x y) : Alike (x.map f) (y.map f) :=
  ⟨congrArg (Option.map f) h.value, h.errors⟩

lemma all {xs ys : List (Coerced α)} (h : List.Forall₂ Alike xs ys) :
    Alike (Coerced.all xs) (Coerced.all ys) := by
  induction h with
  | nil => exact .refl _
  | @cons x y xs ys hfirst _ ih =>
    refine ⟨?_, ?_⟩
    · show (x.value?.bind fun a => (Coerced.all xs).value?.map (a :: ·))
        = y.value?.bind fun a => (Coerced.all ys).value?.map (a :: ·)
      rw [hfirst.value, ih.value]
    · show x.errors ++ (Coerced.all xs).errors = [] ↔ y.errors ++ (Coerced.all ys).errors = []
      rw [List.append_eq_nil_iff, List.append_eq_nil_iff, hfirst.errors, ih.errors]

lemma toOption (h : Alike x y) : x.result.toOption = y.result.toOption := by
  obtain ⟨v, es⟩ := x
  obtain ⟨w, es'⟩ := y
  obtain ⟨rfl, herrors⟩ : v = w ∧ (es = [] ↔ es' = []) := ⟨h.value, h.errors⟩
  cases v <;> cases es <;> cases es' <;> simp_all [result, Except.toOption]

end Alike

end Coerced

namespace CoercionContext

open Coerced (Alike)

variable {c : CoercionContext} {t : TypeId} {path : Path} {p q : Pos} {v w : Literal}

/-! ### Leaves -/

lemma leaf_alike {text text' : Except CoercionErrorCause String}
    (h : text.toOption = text'.toOption) : Alike (leaf text p path t) (leaf text' q path t) := by
  cases text <;> cases text'
  · exact .error _ _ _ _ _
  · simp [Except.toOption] at h
  · simp [Except.toOption] at h
  · obtain rfl := Option.some.inj h
    exact .refl _

/-- The literal itself only stands in the error. -/
lemma scalarText_toOption (typeName : String) (builtin : Option BuiltinScalar) (kind : LiteralKind)
    (text : String) : (c.scalarText typeName builtin kind text v).toOption
      = (c.scalarText typeName builtin kind text w).toOption := by
  unfold scalarText coerceInt coerceFloat
  rcases builtin with _ | _ | _ | _ | _ | _
  · rfl
  · cases kind
    · rfl
    · dsimp only
      split
      · rfl
      · cases (Reading.float? text).bind (·.toInt?) <;> rfl
    all_goals rfl
  · cases kind
    · cases Reading.float? text <;> rfl
    · cases Reading.float? text <;> rfl
    all_goals rfl
  all_goals
    dsimp only
    split <;> rfl

lemma enumText_toOption (enumName : String) (values : List EnumValueSpec) (v : Literal) :
    (c.enumText enumName values v).toOption = (c.enumText enumName values v.unplaced).toOption := by
  unfold enumText
  cases v with
  | scalar kind text p =>
    rw [Literal.unplaced]
    cases kind
    case string => cases c.fromJson <;> rfl
    all_goals rfl
  | _ => rfl

lemma coerceNull_alike : Alike (c.coerceNull p path t) (c.coerceNull q path t) := by
  unfold coerceNull
  split
  · exact .error _ _ _ _ _
  · exact .refl _

lemma coerceVariable_alike (name : String) :
    Alike (c.coerceVariable name p path t) (c.coerceVariable name q path t) := by
  unfold coerceVariable
  split
  · exact .error _ _ _ _ _
  · exact .refl _
  · split
    · exact coerceNull_alike
    · exact coerceNull_alike
    · exact .refl _

lemma lone_alike {coerce coerce' : Coercer} (h : ∀ t, Alike (coerce path t) (coerce' path t)) :
    Alike (c.lone coerce path t) (c.lone coerce' path t) := (h _).map _

/-! ### Objects -/

lemma isAbsent_unplaced (v : Literal) : c.isAbsent v.unplaced = c.isAbsent v := by
  cases v with
  | var name p => cases h : c.scope <;> simp [isAbsent, Literal.unplaced, h]
  | _ => rfl

lemma given_unplaced (fields : List (Name × Literal)) (name : String) :
    c.given (Literal.unplacedFields fields) name = (c.given fields name).map Literal.unplaced := by
  unfold given
  rw [Literal.unplacedFields_eq, List.find?_map, Option.map_map, Function.comp_def,
    Function.comp_def]
  dsimp only
  cases fields.find? fun f => f.1.text == name with
  | none => rfl
  | some f => simp [Option.filter, isAbsent_unplaced, apply_ite (Option.map Literal.unplaced)]

lemma fieldValue_alike {typeName : String} {fields : List (Name × Literal)} {d : InputSpec}
    (h : ∀ f ∈ fields, ∀ path t, Alike (coerce c f.2 path t) (coerce c f.2.unplaced path t)) :
    Alike (c.fieldValue typeName (suppliedFields c fields) p path d)
      (c.fieldValue typeName (suppliedFields c (Literal.unplacedFields fields)) q path d) := by
  cases hg : c.given fields d.name with
  | some v =>
    obtain ⟨⟨f, hf, -, rfl⟩, -⟩ := given_spec hg
    have hg' : c.given (Literal.unplacedFields fields) d.name = some f.2.unplaced := by
      rw [given_unplaced, hg, Option.map_some]
    rw [fieldValue_given hg, fieldValue_given hg']
    exact (h f hf _ _).map _
  | none =>
    have hg' : c.given (Literal.unplacedFields fields) d.name = none := by
      rw [given_unplaced, hg, Option.map_none]
    rw [fieldValue_missing hg, fieldValue_missing hg']
    split
    · exact .error _ _ _ _ _
    · exact .refl _

lemma names_unplaced (fields : List (Name × Literal)) :
    (suppliedFields c fields).map (·.name.text)
      = (suppliedFields c (Literal.unplacedFields fields)).map (·.name.text) := by
  have htexts (fs : List (Name × Literal)) :
      (suppliedFields c fs).map (·.name.text) = fs.map (·.1.text) := by
    simpa [Function.comp_def] using congrArg (List.map Name.text) (suppliedFields_names c fs)
  rw [htexts, htexts, Literal.unplacedFields_eq, List.map_map]
  rfl

lemma inputObject_alike {typeName : String} {declared : List InputSpec}
    {fields : List (Name × Literal)}
    (h : ∀ f ∈ fields, ∀ path t, Alike (coerce c f.2 path t) (coerce c f.2.unplaced path t)) :
    Alike (c.inputObject typeName declared (suppliedFields c fields) p path t)
      (c.inputObject typeName declared (suppliedFields c (Literal.unplacedFields fields)) q path t) := by
  have hfields : Alike
      (Coerced.all (declared.map (c.fieldValue typeName (suppliedFields c fields) p path)))
      (Coerced.all (declared.map
        (c.fieldValue typeName (suppliedFields c (Literal.unplacedFields fields)) q path))) := by
    refine .all ?_
    rw [List.forall₂_map_left_iff, List.forall₂_map_right_iff]
    exact List.forall₂_same.mpr fun d _ => fieldValue_alike h
  have herrors : (c.inputObject typeName declared (suppliedFields c fields) p path t).errors = [] ↔
      (c.inputObject typeName declared (suppliedFields c (Literal.unplacedFields fields)) q path
        t).errors = [] := by
    unfold inputObject
    dsimp only
    rw [List.append_eq_nil_iff, List.append_eq_nil_iff, hfields.errors]
    exact and_congr_left' ⟨fieldErrors_names (names_unplaced fields),
      fieldErrors_names (names_unplaced fields).symm⟩
  refine ⟨?_, herrors⟩
  unfold inputObject at herrors ⊢
  dsimp only at herrors ⊢
  simp only [List.isEmpty_iff, herrors, hfields.value]

/-- A literal at a type that is no list. -/
lemma atNamed_alike {supplied supplied' : List SuppliedField}
    (h : ∀ typeName declared, Alike (c.inputObject typeName declared supplied v.pos path t)
      (c.inputObject typeName declared supplied' v.unplaced.pos path t)) :
    Alike (c.atNamed v supplied path t) (c.atNamed v.unplaced supplied' path t) := by
  unfold atNamed
  split
  · exact .error _ _ _ _ _
  split
  · exact .error _ _ _ _ _
  · cases v <;> try exact .error _ _ _ _ _
    exact leaf_alike (scalarText_toOption ..)
  · exact leaf_alike (enumText_toOption ..)
  · cases v with
    | object fields p => exact h _ _
    | _ => exact .error _ _ _ _ _

/-- A literal without fields at a type that is no list. -/
lemma atNamed_nil_alike : Alike (c.atNamed v [] path t) (c.atNamed v.unplaced [] path t) := by
  have hnone : ∀ f ∈ ([] : List (Name × Literal)), ∀ path t,
      Alike (coerce c f.2 path t) (coerce c f.2.unplaced path t) := by simp
  exact atNamed_alike fun _ _ => inputObject_alike hnone

lemma coerceItems_alike {items : List Literal} (path : Path) (e : TypeId) (n : Nat)
    (h : ∀ v ∈ items, ∀ path t, Alike (coerce c v path t) (coerce c v.unplaced path t)) :
    List.Forall₂ Alike (coerceItems c path e n items)
      (coerceItems c path e n (Literal.unplacedItems items)) := by
  induction items generalizing n with
  | nil => exact .nil
  | cons v vs ih =>
    obtain ⟨hv, hvs⟩ := List.forall_mem_cons.mp h
    rw [Literal.unplacedItems, coerceItems, coerceItems, isAbsent_unplaced]
    refine .cons ?_ (ih (n + 1) hvs)
    split
    · exact coerceNull_alike
    · exact hv _ _

/-! ### Literals and arguments -/

/-- **Places do not count**: a literal has the value that it has anywhere else, or none. -/
theorem coerce_unplaced (v : Literal) (path : Path) (t : TypeId) :
    Alike (coerce c v path t) (coerce c v.unplaced path t) := by
  induction v using Literal.induct generalizing path t with
  | null p =>
    rw [Literal.unplaced, coerce, coerce]
    exact coerceNull_alike
  | var name p =>
    rw [Literal.unplaced, coerce, coerce]
    exact coerceVariable_alike name
  | scalar kind text p =>
    rw [Literal.unplaced, coerce, coerce]
    exact lone_alike fun t => atNamed_nil_alike
  | list items p ih =>
    rw [Literal.unplaced, coerce, coerce]
    dsimp only
    split
    · exact (Alike.all (coerceItems_alike path _ 0 ih)).map _
    · exact atNamed_nil_alike
  | object fields p ih =>
    rw [Literal.unplaced, coerce, coerce]
    exact lone_alike fun t => atNamed_alike fun _ _ => inputObject_alike ih

lemma argumentValue_alike {args args' : List Argument} (h : SameArguments args args') (p q : Pos)
    (d : InputSpec) : Alike (Schema.argumentValue c args p d) (Schema.argumentValue c args' q d) := by
  have hfind := sameArguments_iff.mp h d.name
  unfold Schema.argumentValue
  dsimp only
  cases ha : Argument.find? args d.name with
  | none =>
    rw [ha, Option.map_none, eq_comm, Option.map_eq_none_iff] at hfind
    rw [hfind]
    simp only [Option.filter_none]
    split
    · exact .error _ _ _ _ _
    · exact .refl _
  | some a =>
    rw [ha, Option.map_some, eq_comm, Option.map_eq_some_iff] at hfind
    obtain ⟨b, hb, hvalue⟩ := hfind
    have habsent : c.isAbsent b.value = c.isAbsent a.value := by
      rw [← isAbsent_unplaced, hvalue, isAbsent_unplaced]
    rw [hb]
    cases hgiven : c.isAbsent a.value with
    | true =>
      simp only [Option.filter_some, habsent, hgiven, Bool.not_true, Bool.false_eq_true, if_false]
      split
      · exact .error _ _ _ _ _
      · exact .refl _
    | false =>
      simp only [Option.filter_some, habsent, hgiven, Bool.not_false, if_true]
      have hb := (coerce_unplaced (c := c) b.value [.key d.name] d.type).symm
      rw [hvalue] at hb
      exact ((coerce_unplaced a.value _ _).trans hb).map _

end CoercionContext

/-- **Arguments without places**: arguments with the same literals have the same values, or none. -/
theorem Schema.coerceArguments_same {s : Schema} {declared : List InputSpec}
    {args args' : List Argument} (h : SameArguments args args') (values : Option Variables)
    (p q : Pos) : (s.coerceArguments declared args values p).toOption
      = (s.coerceArguments declared args' values q).toOption := by
  refine Coerced.Alike.toOption (.all ?_)
  rw [List.forall₂_map_left_iff, List.forall₂_map_right_iff]
  exact List.forall₂_same.mpr fun d _ => CoercionContext.argumentValue_alike h p q d

/-- Where a literal is written makes no difference for what it comes to. -/
lemma Schema.coerceLiteral_unplaced {s : Schema} {v w : Literal} {t : TypeId} {values : Option Variables}
    (h : v.unplaced = w.unplaced) :
    (s.coerceLiteral t v values).toOption = (s.coerceLiteral t w values).toOption := by
  refine Coerced.Alike.toOption ((CoercionContext.coerce_unplaced v [] t).trans ?_)
  exact h ▸ (CoercionContext.coerce_unplaced w [] t).symm

end GraphQL
