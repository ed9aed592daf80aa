import GraphQL.Execution
import GraphQL.Proofs.Sample
import GraphQL.Proofs.Value.LegalText

/-!
What an execution returns, against the types of the schema.

The host decides what every field holds. Whatever it answers, null stays out of the places that
exclude it, and a value that does not fit its type does not come through.
-/

namespace GraphQL

/-- `v` is a result of type `t` for a field with the selections `below`. -/
inductive Conforms (s : Schema) : Option (List SelectedField) → TypeId → Value → Prop where
  | null {below : Option (List SelectedField)} {t : TypeId}
      (nullable : t.isNonNull = false) : Conforms s below t (.null t)
  | leaf {below : Option (List SelectedField)} {t : TypeId} {text : String}
      (single : s.element? t = none) (isLeaf : s.isLeaf t = true) (legal : LegalText s t text) :
      Conforms s below t (.scalar t text)
  | list {below : Option (List SelectedField)} {t e : TypeId} {items : List Value}
      (element : s.element? t = some e) (conform : ∀ v ∈ items, Conforms s below e v) :
      Conforms s below t (.list t items)
  | object {below : List SelectedField} {t : TypeId} {fields : List (String × Value)}
      (single : s.element? t = none) (notLeaf : s.isLeaf t = false)
      (keys : fields.map (·.1) = below.map (·.call.key))
      (conform : ∀ p ∈ below.zip fields, Conforms s p.1.below? p.1.call.type p.2.2) :
      Conforms s (some below) t (.object t fields)

/-- The fields of an object are the selected ones, in their order, each with a result of its type. -/
def FieldsConform (s : Schema) (selected : List SelectedField) (fields : List (String × Value)) :
    Prop :=
  fields.map (·.1) = selected.map (·.call.key) ∧
    ∀ p ∈ selected.zip fields, Conforms s p.1.below? p.1.call.type p.2.2

lemma fieldsConform_nil (s : Schema) : FieldsConform s [] [] := ⟨rfl, by simp⟩

lemma fieldsConform_cons {s : Schema} {f : SelectedField} {fs : List SelectedField} {v : Value}
    {fields : List (String × Value)} (hv : Conforms s f.below? f.call.type v)
    (h : FieldsConform s fs fields) : FieldsConform s (f :: fs) ((f.call.key, v) :: fields) := by
  refine ⟨by rw [List.map_cons, List.map_cons, h.1], ?_⟩
  intro p hp
  rw [List.zip_cons_cons, List.mem_cons] at hp
  rcases hp with rfl | hp
  · exact hv
  · exact h.2 p hp

namespace ExecutionContext

variable {ρ : Type} {c : ExecutionContext ρ} {call : FieldCall} {below : Option (List SelectedField)}
  {execute : Option (ObjectExecution ρ)} {t : TypeId} {path : Path} {w : Value}

/-- Executing the selections below a field gives objects that have these fields. -/
def ExecutesBelow (s : Schema) (below : Option (List SelectedField))
    (execute : Option (ObjectExecution ρ)) : Prop :=
  ∀ run, execute = some run → ∃ selected, below = some selected ∧
    ∀ path t r v, (run path t r).value? = some v →
      ∃ fields, v = .object t fields ∧ FieldsConform s selected fields

lemma nullAt_conforms (h : nullAt t = some w) : Conforms c.schema below t w := by
  unfold nullAt at h
  split at h
  · simp at h
  · rename_i ht
    rw [← Option.some.inj h]
    exact .null (Bool.eq_false_of_not_eq_true ht)

lemma failed_conforms {e : FieldError} (h : (failed call t path e).value? = some w) :
    Conforms c.schema below t w :=
  nullAt_conforms h

lemma orNull_conforms {o : Outcome Value} (h : (orNull t o).value? = some w)
    (ho : ∀ v, o.value? = some v → Conforms c.schema below t v) : Conforms c.schema below t w := by
  unfold orNull at h
  dsimp only at h
  split at h
  · rename_i v hv
    rw [← Option.some.inj h]
    exact ho v hv
  · exact nullAt_conforms h

lemma completeLeaf_conforms {v : HostScalar} (hs : c.schema.element? t = none)
    (hl : c.schema.isLeaf t = true) (h : (c.completeLeaf call t path v).value? = some w) :
    Conforms c.schema below t w := by
  unfold completeLeaf at h
  split at h
  · rename_i text ht
    rw [← Option.some.inj h]
    exact .leaf hs hl (HostScalar.toLeaf_legal hl ht)
  · exact failed_conforms h

lemma completeAtNamed_conforms {v : HostValue ρ} (hb : ExecutesBelow c.schema below execute)
    (hs : c.schema.element? t = none)
    (h : (c.completeAtNamed call execute t path v).value? = some w) :
    Conforms c.schema below t w := by
  unfold completeAtNamed at h
  split at h
  · rename_i hl
    split at h
    · exact completeLeaf_conforms hs hl h
    · exact failed_conforms h
  · rename_i hl
    split at h
    · rename_i r run
      obtain ⟨selected, rfl, hrun⟩ := hb run rfl
      refine orNull_conforms h fun o ho => ?_
      obtain ⟨fields, rfl, hf⟩ := hrun path t r o ho
      exact .object hs (Bool.eq_false_of_not_eq_true hl) hf.1 hf.2
    · exact failed_conforms h
    · exact failed_conforms h

lemma completeSingle_conforms {v : HostValue ρ} (hb : ExecutesBelow c.schema below execute)
    (h : (c.completeSingle call execute t path v).value? = some w) :
    Conforms c.schema below t w := by
  unfold completeSingle at h
  split at h
  · exact failed_conforms h
  · rename_i hl
    exact completeAtNamed_conforms hb (by simpa [Schema.isList] using hl) h

mutual

/-- A completed answer is a result of its type, by induction on the answer. -/
theorem complete_conforms (hb : ExecutesBelow c.schema below execute) :
    ∀ (v : HostValue ρ) (t : TypeId) (path : Path) (w : Value),
      (complete c call execute v t path).value? = some w → Conforms c.schema below t w
  | .null, t, path, w, h => by
    rw [complete] at h
    dsimp only at h
    split at h
    · exact failed_conforms h
    · rename_i ht
      rw [← Option.some.inj h]
      exact .null (Bool.eq_false_of_not_eq_true ht)
  | .list items, t, path, w, h => by
    rw [complete] at h
    dsimp only at h
    split at h
    · rename_i e he
      refine orNull_conforms h fun o ho => ?_
      obtain ⟨vs, hvs, rfl⟩ := Option.map_eq_some_iff.mp ho
      exact .list he (completeItems_conform hb items e path 0 vs hvs)
    · rename_i he
      exact completeAtNamed_conforms hb he h
  | .scalar x, t, path, w, h => completeSingle_conforms hb (by rwa [complete] at h)
  | .object r, t, path, w, h => completeSingle_conforms hb (by rwa [complete] at h)

theorem completeItems_conform (hb : ExecutesBelow c.schema below execute) :
    ∀ (items : List (HostValue ρ)) (e : TypeId) (path : Path) (n : Nat) (ws : List Value),
      (completeItems c call execute e path n items).value? = some ws →
        ∀ w ∈ ws, Conforms c.schema below e w
  | [], e, path, n, ws, h => by
    rw [completeItems] at h
    rw [← Option.some.inj h]
    simp
  | v :: vs, e, path, n, ws, h => by
    rw [completeItems] at h
    dsimp only at h
    split at h
    · simp at h
    · rename_i w hw
      obtain ⟨rest, hrest, rfl⟩ := Option.map_eq_some_iff.mp h
      intro x hx
      rcases List.mem_cons.mp hx with rfl | hx
      · exact complete_conforms hb v e _ x hw
      · exact completeItems_conform hb vs e path (n + 1) rest hrest x hx

end

lemma executeField_conforms {parent : TypeId} {r : ρ} {f : SelectedField}
    (hb : ExecutesBelow c.schema f.below? execute)
    (h : (c.executeField execute parent path r f).value? = some w) :
    Conforms c.schema f.below? f.call.type w := by
  unfold executeField at h
  dsimp only at h
  split at h
  · exact complete_conforms hb _ _ _ _ h
  · exact failed_conforms h

mutual

/-- An executed field has a result of its type, by induction on the selections. -/
theorem executeSelected_conforms :
    ∀ (f : SelectedField) (parent : TypeId) (path : Path) (r : ρ) (w : Value),
      (executeSelected c parent path r f).value? = some w →
        Conforms c.schema f.below? f.call.type w
  | .leaf call, parent, path, r, w, h => by
    rw [executeSelected] at h
    exact executeField_conforms (fun run hrun => by simp at hrun) h
  | .object call below, parent, path, r, w, h => by
    rw [executeSelected] at h
    refine executeField_conforms (fun run hrun => ⟨below, rfl, ?_⟩) h
    intro path t r v hv
    rw [← Option.some.inj hrun] at hv
    obtain ⟨fields, hf, rfl⟩ := Option.map_eq_some_iff.mp hv
    exact ⟨fields, rfl, executeFields_conform below t.nullable path r fields hf⟩

theorem executeFields_conform :
    ∀ (fs : List SelectedField) (parent : TypeId) (path : Path) (r : ρ)
      (fields : List (String × Value)),
      (executeFields c parent path r fs).value? = some fields → FieldsConform c.schema fs fields
  | [], parent, path, r, fields, h => by
    rw [executeFields] at h
    rw [← Option.some.inj h]
    exact fieldsConform_nil c.schema
  | f :: fs, parent, path, r, fields, h => by
    rw [executeFields, consField] at h
    obtain ⟨v, hv, h⟩ := Option.bind_eq_some_iff.mp h
    obtain ⟨rest, hrest, rfl⟩ := Option.map_eq_some_iff.mp h
    exact fieldsConform_cons (executeSelected_conforms f parent path r v hv)
      (executeFields_conform fs parent path r rest hrest)

end

end ExecutionContext

namespace PreparedOperation

variable {ρ : Type}

/-- **Conformance**: whatever the host answers, the data of an operation is an object with the
selected fields, and every value in it is a result of its declared type. -/
theorem execute_conforms (p : PreparedOperation) (host : Host ρ) (root : ρ) (isCancelled : Bool)
    (v : Value) (h : (p.execute host root isCancelled).value? = some v) :
    ∃ fields, v = .object p.root fields ∧ FieldsConform p.schema p.fields fields := by
  obtain ⟨fields, hf, rfl⟩ := Option.map_eq_some_iff.mp h
  exact ⟨fields, rfl, ExecutionContext.executeFields_conform _ _ _ _ _ hf⟩

theorem execute_conforms_of_sample : ∃ p v fields, Sample.operation? = some p ∧
    (p.execute Sample.host "" false).value? = some v ∧
    v = .object p.root fields ∧ FieldsConform p.schema p.fields fields := by
  have hrun : (Sample.operationChars? Sample.schemaChars.1 Sample.queryChars.1).any (fun p =>
      (p.execute Sample.host "" false).value?.isSome) = true := by
    decide +kernel
  obtain ⟨p, hp, hv⟩ := Sample.exists_operation hrun
  obtain ⟨v, h⟩ := Option.isSome_iff_exists.mp hv
  obtain ⟨fields, rfl, hfields⟩ := execute_conforms p Sample.host "" false v h
  exact ⟨p, _, fields, hp, h, rfl, hfields⟩

end PreparedOperation

end GraphQL
