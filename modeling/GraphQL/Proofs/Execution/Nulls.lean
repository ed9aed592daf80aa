import GraphQL.Proofs.Execution.Place
import GraphQL.Proofs.Sample
import GraphQL.Proofs.Schema.Build

/-!
Nulls and errors of an execution, which account for each other.

An error is reported once, where it happens. Its null climbs from there through places that exclude
null, and stays at the first that does not. So the path of an error comes to null, and a null that the
host did not answer has an error behind it.
-/

namespace GraphQL

lemma Value.MeetsNull.of_isNull {v : Value} (h : v.isNull = true) (path : Path) :
    v.MeetsNull path := ⟨[], v, List.nil_prefix, rfl, h⟩

lemma Value.MeetsNull.child {v w : Value} {s : PathSegment} {path : Path} (hs : v.child? s = some w)
    (h : w.MeetsNull path) : v.MeetsNull (s :: path) := by
  obtain ⟨front, u, hfront, hu, hnull⟩ := h
  exact ⟨s :: front, u, List.cons_prefix_cons.mpr ⟨rfl, hfront⟩, by rw [at?, hs, Option.bind_some, hu], hnull⟩

namespace ExecutionContext

variable {ρ β γ : Type} {c : ExecutionContext ρ} {places : Path → Option (Place ρ)}
  {path more : Path} {s : PathSegment} {p : Place ρ}

/-- On the way down from a place, every place behind it excludes null. -/
def ExcludesNull (places : Path → Option (Place ρ)) (path more : Path) : Prop :=
  ∀ front, front ≠ [] → front <+: more → ∃ p, places (path ++ front) = some p ∧ p.type.isNonNull = true

lemma excludesNull_nil : ExcludesNull places path [] := by
  intro front hne hprefix
  exact absurd (List.prefix_nil.mp hprefix) hne

lemma excludesNull_cons (hp : places (path ++ [s]) = some p) (hnull : p.type.isNonNull = true)
    (h : ExcludesNull places (path ++ [s]) more) : ExcludesNull places path (s :: more) := by
  intro front hne hprefix
  cases front with
  | nil => exact absurd rfl hne
  | cons first front =>
    obtain ⟨rfl, hrest⟩ := List.cons_prefix_cons.mp hprefix
    by_cases hnil : front = []
    · subst hnil
      exact ⟨p, hp, hnull⟩
    · obtain ⟨q, hq, hq'⟩ := h front hnil hrest
      exact ⟨q, by simpa using hq, hq'⟩

/-- An error whose null has climbed to `path` and not past any place that takes null. -/
def Explained (places : Path → Option (Place ρ)) (errors : List ResponseError) (path : Path) : Prop :=
  ∃ e ∈ errors, ∃ more, e.path = some (path ++ more) ∧ ExcludesNull places path more

lemma Explained.mono {es es' : List ResponseError} (h : Explained places es path) (hsub : es ⊆ es') :
    Explained places es' path := by
  obtain ⟨e, he, more, hpath, hnull⟩ := h
  exact ⟨e, hsub he, more, hpath, hnull⟩

/-- The host answered null, or an error took the place of what it answered. -/
def Accounted (places : Path → Option (Place ρ)) (errors : List ResponseError) (path : Path) : Prop :=
  ∃ p, places path = some p ∧ (p.answer = .ok .null ∨ Explained places errors path)

lemma Accounted.mono {es es' : List ResponseError} (h : Accounted places es path) (hsub : es ⊆ es') :
    Accounted places es' path := by
  obtain ⟨p, hp, hnull⟩ := h
  exact ⟨p, hp, hnull.imp_right fun h => h.mono hsub⟩

/-- **What a completion says of nulls and errors.** The value stands at `path`. -/
structure Accounts (places : Path → Option (Place ρ)) (path : Path) (o : Outcome Value) : Prop where
  distinct : (o.errors.map (·.path)).Nodup
  meets : ∀ e ∈ o.errors, ∃ more, e.path = some (path ++ more) ∧
    ∀ v, o.value? = some v → v.MeetsNull more
  climbs : o.value? = none → (∃ p, places path = some p ∧ p.type.isNonNull = true) ∧
    Explained places o.errors path
  accounted : ∀ v, o.value? = some v → ∀ more w, v.at? more = some w → w.isNull = true →
    Accounted places o.errors (path ++ more)

/-- What the completion of the values below `path` says, which stand at the steps `steps`; `child`
tells which value stands where. -/
structure AccountsBelow (places : Path → Option (Place ρ)) (path : Path) (steps : PathSegment → Prop)
    (child : β → PathSegment → Option Value) (o : Outcome β) : Prop where
  distinct : (o.errors.map (·.path)).Nodup
  meets : ∀ e ∈ o.errors, ∃ s more, steps s ∧ e.path = some (path ++ s :: more) ∧
    ∀ b, o.value? = some b → ∃ v, child b s = some v ∧ v.MeetsNull more
  climbs : o.value? = none → Explained places o.errors path
  accounted : ∀ b, o.value? = some b → ∀ s v, child b s = some v → ∀ more w, v.at? more = some w →
    w.isNull = true → Accounted places o.errors (path ++ s :: more)

lemma AccountsBelow.steps_mono {steps steps' : PathSegment → Prop}
    {child : β → PathSegment → Option Value} {o : Outcome β}
    (h : AccountsBelow places path steps child o) (hsteps : ∀ s, steps s → steps' s) :
    AccountsBelow places path steps' child o where
  distinct := h.distinct
  meets e he := by
    obtain ⟨s, more, hs, hmeets⟩ := h.meets e he
    exact ⟨s, more, hsteps s hs, hmeets⟩
  climbs := h.climbs
  accounted := h.accounted

/-! ### One value -/

variable {call : FieldCall} {t : TypeId} {o : Outcome Value}

lemma nullAt_eq_some {v : Value} (h : nullAt t = some v) : v = .null t := by
  unfold nullAt at h
  split at h
  · simp at h
  · exact (Option.some.inj h).symm

lemma nullAt_eq_none (h : nullAt t = none) : t.isNonNull = true := by
  unfold nullAt at h
  split at h
  · assumption
  · simp at h

lemma at?_null {v : Value} (h : v.isNull = true) {w : Value} (hw : v.at? more = some w) : more = [] := by
  cases v with
  | null t =>
    cases more with
    | nil => rfl
    | cons s more => simp [Value.at?, Value.child?] at hw
  | scalar t x => simp [Value.isNull] at h
  | list t vs => simp [Value.isNull] at h
  | object t fs => simp [Value.isNull] at h

lemma failed_accounts (hp : places path = some p) (e : FieldError) :
    Accounts places path (failed call p.type path e) where
  distinct := by simp [failed]
  meets := by
    intro e he
    obtain rfl := List.mem_singleton.mp he
    refine ⟨[], by simp, fun v hv => ?_⟩
    exact .of_isNull (by rw [nullAt_eq_some hv]; rfl) []
  climbs hnone := ⟨⟨p, hp, nullAt_eq_none hnone⟩,
    ⟨_, List.mem_singleton_self _, [], by simp, excludesNull_nil⟩⟩
  accounted := by
    intro v hv more w hw _
    obtain rfl := at?_null (by rw [nullAt_eq_some hv]; rfl) hw
    rw [List.append_nil]
    exact ⟨p, hp, .inr ⟨_, List.mem_singleton_self _, [], by simp, excludesNull_nil⟩⟩

/-- A value without an error, which is null only where the host answered null. -/
lemma plain_accounts {v : Value} (hv : ∀ s, v.child? s = none) (hp : places path = some p)
    (hnull : v.isNull = true → p.answer = .ok .null) : Accounts places path ⟨some v, []⟩ where
  distinct := List.nodup_nil
  meets := by simp
  climbs h := nomatch h
  accounted := by
    intro u hu more w hw hwnull
    obtain rfl := Option.some.inj hu
    cases more with
    | nil =>
      obtain rfl := Option.some.inj hw
      rw [List.append_nil]
      exact ⟨p, hp, .inl (hnull hwnull)⟩
    | cons s more => simp [Value.at?, hv] at hw

/-- **Climbing**: the value around others is null where one of them cannot be. -/
lemma AccountsBelow.orNull {steps : PathSegment → Prop} {child : β → PathSegment → Option Value}
    {o : Outcome β} {wrap : β → Value} (h : AccountsBelow places path steps child o)
    (hp : places path = some p) (hwrap : ∀ b, (wrap b).isNull = false)
    (hchild : ∀ b s, (wrap b).child? s = child b s) :
    Accounts places path (orNull p.type (o.map wrap)) := by
  have hvalue : ∀ v, (ExecutionContext.orNull p.type (o.map wrap)).value? = some v →
      (∃ b, o.value? = some b ∧ v = wrap b) ∨ (o.value? = none ∧ v = .null p.type) := by
    intro v hv
    unfold ExecutionContext.orNull Outcome.map at hv
    cases hb : o.value? with
    | none =>
      simp only [hb, Option.map_none] at hv
      exact .inr ⟨rfl, nullAt_eq_some hv⟩
    | some b =>
      simp only [hb, Option.map_some, Option.some.injEq] at hv
      exact .inl ⟨b, rfl, hv.symm⟩
  refine ⟨h.distinct, fun e he => ?_, fun hnone => ?_, fun v hv more w hw hnull => ?_⟩
  · obtain ⟨s, more, -, hpath, hb⟩ := h.meets e he
    refine ⟨s :: more, hpath, fun v hv => ?_⟩
    rcases hvalue v hv with ⟨b, hsome, rfl⟩ | ⟨-, rfl⟩
    · obtain ⟨u, hu, hmeets⟩ := hb b hsome
      exact hmeets.child ((hchild b s).trans hu)
    · exact .of_isNull rfl _
  · unfold ExecutionContext.orNull Outcome.map at hnone
    cases hb : o.value? with
    | none =>
      simp only [hb, Option.map_none] at hnone
      exact ⟨⟨p, hp, nullAt_eq_none hnone⟩, h.climbs hb⟩
    | some b => simp [hb] at hnone
  · rcases hvalue v hv with ⟨b, hsome, rfl⟩ | ⟨hnone, rfl⟩
    · cases more with
      | nil =>
        obtain rfl := Option.some.inj hw
        simp [hwrap] at hnull
      | cons s more =>
        rw [Value.at?, hchild] at hw
        obtain ⟨u, hu, hw⟩ := Option.bind_eq_some_iff.mp hw
        exact h.accounted b hsome s u hu more w hw hnull
    · obtain rfl := at?_null rfl hw
      rw [List.append_nil]
      exact ⟨p, hp, .inr (h.climbs hnone)⟩

/-! ### Values side by side -/

variable {steps : PathSegment → Prop} {child : β → PathSegment → Option Value}
  {childAll : γ → PathSegment → Option Value} {head : Outcome Value} {tail : Outcome β}

/-- The values behind one that makes the whole null are not looked at. -/
lemma Accounts.alone {o : Outcome γ} (h : Accounts places (path ++ [s]) head)
    (hnone : head.value? = none) (ho : o.value? = none) (herrors : o.errors = head.errors) :
    AccountsBelow places path (· = s) childAll o where
  distinct := herrors ▸ h.distinct
  meets := by
    rw [herrors]
    intro e he
    obtain ⟨more, hpath, -⟩ := h.meets e he
    exact ⟨s, more, rfl, by simpa using hpath, by simp [ho]⟩
  climbs _ := by
    rw [herrors]
    obtain ⟨⟨p, hp, hnonNull⟩, e, he, more, hpath, hexcludes⟩ := h.climbs hnone
    exact ⟨e, he, s :: more, by simpa using hpath, excludesNull_cons hp hnonNull hexcludes⟩
  accounted := by simp [ho]

/-- **A value and those behind it.** -/
lemma Accounts.cons {join : Value → β → γ} (h : Accounts places (path ++ [s]) head)
    (hs : AccountsBelow places path steps child tail) (hnew : ¬ steps s)
    (hself : ∀ v b, childAll (join v b) s = some v)
    (hrest : ∀ v b s', s' ≠ s → childAll (join v b) s' = child b s') :
    AccountsBelow places path (fun s' => s' = s ∨ steps s') childAll
      ⟨head.value?.bind fun v => tail.value?.map (join v), head.errors ++ tail.errors⟩ where
  distinct := by
    rw [List.map_append]
    refine List.nodup_append'.mpr ⟨h.distinct, hs.distinct, ?_⟩
    rintro place hhead htail
    obtain ⟨e, he, rfl⟩ := List.mem_map.mp hhead
    obtain ⟨e', he', heq⟩ := List.mem_map.mp htail
    obtain ⟨more, hpath, -⟩ := h.meets e he
    obtain ⟨s', more', hs', hpath', -⟩ := hs.meets e' he'
    rw [hpath, hpath', Option.some_inj, List.append_assoc, List.append_cancel_left_eq] at heq
    exact hnew ((List.cons.inj heq).1 ▸ hs')
  meets := by
    intro e he
    rcases List.mem_append.mp he with he | he
    · obtain ⟨more, hpath, hv⟩ := h.meets e he
      refine ⟨s, more, .inl rfl, by simpa using hpath, fun b hb => ?_⟩
      obtain ⟨v, hhead, b', -, rfl⟩ := by simpa [Option.bind_eq_some_iff] using hb
      exact ⟨v, hself v b', hv v hhead⟩
    · obtain ⟨s', more, hs', hpath, hv⟩ := hs.meets e he
      refine ⟨s', more, .inr hs', hpath, fun b hb => ?_⟩
      obtain ⟨v, -, b', htail, rfl⟩ := by simpa [Option.bind_eq_some_iff] using hb
      obtain ⟨u, hu, hmeets⟩ := hv b' htail
      have hne : s' ≠ s := fun heq => hnew (heq ▸ hs')
      exact ⟨u, (hrest v b' s' hne).trans hu, hmeets⟩
  climbs := by
    intro hnone
    cases hhead : head.value? with
    | none =>
      have halone : AccountsBelow places path (· = s) childAll ⟨none, head.errors⟩ :=
        h.alone hhead rfl rfl
      exact (halone.climbs rfl).mono (List.subset_append_left _ _)
    | some v =>
      have htail : tail.value? = none := by simpa [hhead] using hnone
      exact (hs.climbs htail).mono (List.subset_append_right _ _)
  accounted := by
    intro b hb s' u hu more w hw hnull
    obtain ⟨v, hhead, b', htail, rfl⟩ := by simpa [Option.bind_eq_some_iff] using hb
    by_cases heq : s' = s
    · subst heq
      obtain rfl := Option.some.inj ((hself v b').symm.trans hu)
      have h := h.accounted v hhead more w hw hnull
      rw [List.append_assoc, List.singleton_append] at h
      exact h.mono (List.subset_append_left _ _)
    · rw [hrest v b' s' heq] at hu
      exact (hs.accounted b' htail s' u hu more w hw hnull).mono
        (List.subset_append_right _ _)

/-! ### Completion -/

variable {below : Option (List SelectedField)} {execute : Option (ObjectExecution ρ)}

/-- The fields of the object at a path. -/
abbrev AccountsForFields (places : Path → Option (Place ρ)) (path : Path) (fs : List SelectedField)
    (o : Outcome (List (String × Value))) : Prop :=
  AccountsBelow places path (fun s => ∃ f ∈ fs, s = .key f.call.key)
    (fun fields s => (Value.object default fields).child? s) o

/-- The execution of the selections below a field accounts for its nulls wherever the places are those
of the objects that it is asked for. -/
def ExecutesAccounted (places : Path → Option (Place ρ)) (below : Option (List SelectedField))
    (execute : Option (ObjectExecution ρ)) : Prop :=
  ∀ run, execute = some run → ∀ path p r, places path = some p → p.below? = below →
    p.answer = .ok (.object r) → Accounts places path (orNull p.type (run path p.type r))

lemma completeLeaf_accounts {v : HostScalar} (hp : places path = some p) :
    Accounts places path (c.completeLeaf call p.type path v) := by
  unfold completeLeaf
  split
  · exact plain_accounts (fun _ => rfl) hp (by simp [Value.isNull])
  · exact failed_accounts hp _

lemma completeAtNamed_accounts {v : HostValue ρ} (hb : ExecutesAccounted places below execute)
    (hp : places path = some p) (hbelow : p.below? = below) (hv : p.answer = .ok v) :
    Accounts places path (c.completeAtNamed call execute p.type path v) := by
  unfold completeAtNamed
  split
  · split
    · exact completeLeaf_accounts hp
    · exact failed_accounts hp _
  · split
    · exact hb _ rfl path p _ hp hbelow hv
    · exact failed_accounts hp _
    · exact failed_accounts hp _

lemma completeSingle_accounts {v : HostValue ρ} (hb : ExecutesAccounted places below execute)
    (hp : places path = some p) (hbelow : p.below? = below) (hv : p.answer = .ok v) :
    Accounts places path (c.completeSingle call execute p.type path v) := by
  unfold completeSingle
  split
  · exact failed_accounts hp _
  · exact completeAtNamed_accounts hb hp hbelow hv

/-- The item of an index, in a list whose first item has the index `n`. -/
def itemAt (n : Nat) (vs : List Value) : PathSegment → Option Value
  | .index m => if n ≤ m then vs[m - n]? else none
  | .key _ => none

lemma itemAt_self (n : Nat) (v : Value) (vs : List Value) : itemAt n (v :: vs) (.index n) = some v := by
  simp [itemAt]

lemma itemAt_of_ne {n : Nat} {s : PathSegment} (h : s ≠ .index n) (v : Value) (vs : List Value) :
    itemAt n (v :: vs) s = itemAt (n + 1) vs s := by
  cases s with
  | key k => rfl
  | index m =>
    have hne : m ≠ n := fun heq => h (heq ▸ rfl)
    simp only [itemAt]
    by_cases hle : n + 1 ≤ m
    · rw [if_pos hle, if_pos (by omega), show m - n = m - (n + 1) + 1 by omega, List.getElem?_cons_succ]
    · rw [if_neg hle, if_neg (by omega)]

mutual

/-- A completed answer accounts for its nulls, by induction on the answer. -/
theorem complete_accounts (hplaces : c.Leads places) (hb : ExecutesAccounted places below execute) :
    ∀ (v : HostValue ρ) (path : Path) (p : Place ρ), places path = some p → p.below? = below →
      p.answer = .ok v → Accounts places path (complete c call execute v p.type path)
  | .null, path, p, hp, hbelow, hv => by
    rw [complete]
    dsimp only
    split
    · exact failed_accounts hp _
    · exact plain_accounts (fun _ => rfl) hp fun _ => hv
  | .list items, path, p, hp, hbelow, hv => by
    rw [complete]
    dsimp only
    split
    · rename_i e he
      have hitems := completeItems_account hplaces hb items path 0 e fun m v hm => by
        rw [Nat.zero_add, hplaces path p _ hp, placeBelow?_item hv he hm, hbelow]
      exact hitems.orNull hp (fun _ => rfl) fun vs s => by cases s <;> rfl
    · exact completeAtNamed_accounts hb hp hbelow hv
  | .scalar x, path, p, hp, hbelow, hv => by
    rw [complete]
    exact completeSingle_accounts hb hp hbelow hv
  | .object r, path, p, hp, hbelow, hv => by
    rw [complete]
    exact completeSingle_accounts hb hp hbelow hv

theorem completeItems_account (hplaces : c.Leads places)
    (hb : ExecutesAccounted places below execute) :
    ∀ (items : List (HostValue ρ)) (path : Path) (n : Nat) (e : TypeId),
      (∀ m v, items[m]? = some v → places (path ++ [.index (n + m)]) = some ⟨e, .ok v, below⟩) →
      AccountsBelow places path (fun s => ∃ m, n ≤ m ∧ s = .index m) (itemAt n)
        (completeItems c call execute e path n items)
  | [], path, n, e, hitems => by
    rw [completeItems]
    refine ⟨List.nodup_nil, by simp, by simp, fun vs hvs s v hv => ?_⟩
    obtain rfl := Option.some.inj hvs
    cases s <;> simp [itemAt] at hv
  | v :: vs, path, n, e, hitems => by
    have hfirst := complete_accounts hplaces hb v (path ++ [.index n]) ⟨e, .ok v, below⟩
      (hitems 0 v rfl) rfl rfl
    have hrest := completeItems_account hplaces hb vs path (n + 1) e fun m w hm => by
      rw [show n + 1 + m = n + (m + 1) by omega]
      exact hitems (m + 1) w hm
    rw [completeItems]
    dsimp only
    split
    · rename_i hnone
      have halone : AccountsBelow places path (· = .index n) (itemAt n)
          ⟨none, (complete c call execute v e (path ++ [.index n])).errors⟩ :=
        hfirst.alone hnone rfl rfl
      exact halone.steps_mono fun s hs => ⟨n, le_rfl, hs⟩
    · rename_i w hw
      have hcons := hfirst.cons hrest (by simp) (itemAt_self n) fun w ws s hs => itemAt_of_ne hs w ws
      dsimp only at hcons
      rw [hw] at hcons
      refine hcons.steps_mono fun s hs => ?_
      rcases hs with rfl | ⟨m, hm, rfl⟩
      · exact ⟨n, le_rfl, rfl⟩
      · exact ⟨m, by omega, rfl⟩

end

lemma executeField_accounts {parent : TypeId} {r : ρ} {f : SelectedField} (hplaces : c.Leads places)
    (hb : ExecutesAccounted places f.below? execute)
    (hp : places (path ++ [.key f.call.key]) = some (c.fieldPlace parent path r f)) :
    Accounts places (path ++ [.key f.call.key]) (c.executeField execute parent path r f) := by
  unfold executeField
  dsimp only
  split
  · rename_i v hv
    exact complete_accounts hplaces hb v _ _ hp rfl hv
  · exact failed_accounts hp _

mutual

/-- An executed field accounts for its nulls, by induction on the selections. -/
theorem executeSelected_accounts (hplaces : c.Leads places) :
    ∀ (f : SelectedField) (parent : TypeId) (path : Path) (r : ρ),
      (∀ gs, f.below? = some gs → DistinctKeys gs) →
      places (path ++ [.key f.call.key]) = some (c.fieldPlace parent path r f) →
      Accounts places (path ++ [.key f.call.key]) (executeSelected c parent path r f)
  | .leaf call, parent, path, r, hkeys, hp => by
    rw [executeSelected]
    exact executeField_accounts hplaces (fun run hrun => by simp at hrun) hp
  | .object call below, parent, path, r, hkeys, hp => by
    rw [executeSelected]
    refine executeField_accounts hplaces (fun run hrun path p r hp hbelow hanswer => ?_) hp
    obtain rfl := Option.some.inj hrun
    have hfields := executeFields_account hplaces below p.type.nullable path r (hkeys below rfl)
      fun f hf => by
        rw [hplaces path p _ hp, placeBelow?_field hanswer hbelow (hkeys below rfl).keys hf]
    exact hfields.orNull hp (fun _ => rfl) fun fields s => by cases s <;> rfl

theorem executeFields_account (hplaces : c.Leads places) :
    ∀ (fs : List SelectedField) (parent : TypeId) (path : Path) (r : ρ), DistinctKeys fs →
      (∀ f ∈ fs, places (path ++ [.key f.call.key]) = some (c.fieldPlace parent path r f)) →
      AccountsForFields places path fs (executeFields c parent path r fs)
  | [], parent, path, r, hkeys, hp => by
    rw [executeFields]
    refine ⟨List.nodup_nil, by simp, by simp, fun fields hfields s v hv => ?_⟩
    obtain rfl := Option.some.inj hfields
    cases s <;> simp [Value.child?] at hv
  | f :: fs, parent, path, r, hkeys, hp => by
    obtain ⟨hnew, hnodup⟩ := List.nodup_cons.mp hkeys.keys
    have hfirst := executeSelected_accounts hplaces f parent path r
      (fun gs hgs => hkeys.next List.mem_cons_self hgs) (hp f List.mem_cons_self)
    have hrest := executeFields_account hplaces fs parent path r
      (.mk hnodup fun g hg gs hgs => hkeys.next (List.mem_cons_of_mem f hg) hgs)
      fun g hg => hp g (List.mem_cons_of_mem f hg)
    rw [executeFields, consField]
    refine (hfirst.cons hrest ?_ (fun v fields => ?_) fun v fields s hs => ?_).steps_mono fun s hs => ?_
    · rintro ⟨g, hg, heq⟩
      exact hnew (List.mem_map.mpr ⟨g, hg, (PathSegment.key.inj heq).symm⟩)
    · simp [Value.child?]
    · cases s with
      | index n => rfl
      | key k => exact lookup_cons_of_ne fun heq => hs (heq ▸ rfl)
    · rcases hs with rfl | ⟨g, hg, rfl⟩
      · exact ⟨f, List.mem_cons_self, rfl⟩
      · exact ⟨g, List.mem_cons_of_mem f hg, rfl⟩

end

end ExecutionContext

namespace PreparedOperation

open ExecutionContext

variable {ρ : Type}

/-- **Nulls and errors account for each other**: in an execution of fields that were selected, no two
errors have one path; the path of an error comes to null, or there is no data at all; and null that
the host did not answer has an error behind it that did not climb past a place that takes null, as
has data that is not there. -/
theorem execute_accounts (p : PreparedOperation) (host : Host ρ) (root : ρ) (isCancelled : Bool)
    (sc : SelectionContext) (parent : TypeId) (ss : SelectionSet)
    (hfields : p.fields = (sc.select parent ss).1) :
    ((p.execute host root isCancelled).errors.map (·.path)).Nodup ∧
    (∀ e ∈ (p.execute host root isCancelled).errors, ∃ path, e.path = some path ∧
      ∀ v, (p.execute host root isCancelled).value? = some v → v.MeetsNull path) ∧
    (∀ v, (p.execute host root isCancelled).value? = some v →
      ∀ path w, v.at? path = some w → w.isNull = true →
        Accounted (p.place? host root isCancelled) (p.execute host root isCancelled).errors path) ∧
    ((p.execute host root isCancelled).value? = none →
      Explained (p.place? host root isCancelled) (p.execute host root isCancelled).errors []) := by
  have hkeys : DistinctKeys p.fields := hfields ▸ SelectionContext.build_distinctKeys _ parent [ss]
  have haccounts := executeFields_account (p.place?_leads host root isCancelled) p.fields p.root []
    (.host root) hkeys fun f hf => by
      rw [List.nil_append, place?, keyPlace?_of_mem hkeys.keys hf]
      rfl
  obtain ⟨hdistinct, hmeets, hclimbs, haccounted⟩ := haccounts
  refine ⟨hdistinct, fun e he => ?_, fun v hv path w hw hnull => ?_, fun hnone => ?_⟩
  · obtain ⟨s, more, -, hpath, hfields⟩ := hmeets e he
    refine ⟨s :: more, hpath, fun v hv => ?_⟩
    obtain ⟨fields, hsome, rfl⟩ := Option.map_eq_some_iff.mp hv
    obtain ⟨u, hu, hmeets⟩ := hfields fields hsome
    exact hmeets.child (by cases s <;> exact hu)
  · obtain ⟨fields, hsome, rfl⟩ := Option.map_eq_some_iff.mp hv
    cases path with
    | nil =>
      obtain rfl := Option.some.inj hw
      simp [Value.isNull] at hnull
    | cons s more =>
      obtain ⟨u, hu, hw⟩ := Option.bind_eq_some_iff.mp hw
      exact haccounted fields hsome s u (by cases s <;> exact hu) more w hw hnull
  · exact hclimbs (Option.map_eq_none_iff.mp hnone)

end PreparedOperation

/-- What is prepared has fields that were selected. -/
lemma Schema.prepare_fields {s : Schema} {d : Document} {source : List Char} {name : Option String}
    {supplied : List (String × Literal)} {p : PreparedOperation}
    (h : s.prepare d source name supplied = .ok p) :
    ∃ sc parent ss, p.fields = (SelectionContext.select sc parent ss).1 := by
  unfold Schema.prepare at h
  obtain ⟨op, -, h⟩ := bind_eq_ok.mp h
  obtain ⟨root, -, h⟩ := bind_eq_ok.mp h
  obtain ⟨values, -, h⟩ := bind_eq_ok.mp h
  dsimp only at h
  split at h
  · obtain rfl := Except.ok.inj h
    exact ⟨_, _, _, rfl⟩
  · cases h

namespace PreparedOperation

open ExecutionContext

theorem execute_accounts_of_sample : ∃ p sc parent ss, Sample.operation? = some p ∧
    p.fields = (SelectionContext.select sc parent ss).1 ∧
    (p.execute Sample.host "" false).errors.map (·.path) = [some [.key "pet", .key "owner"]] ∧
    ((p.execute Sample.host "" false).errors.map (·.path)).Nodup ∧
    (∀ e ∈ (p.execute Sample.host "" false).errors, ∃ path, e.path = some path ∧
      ∀ v, (p.execute Sample.host "" false).value? = some v → v.MeetsNull path) ∧
    (∀ v, (p.execute Sample.host "" false).value? = some v →
      ∀ path w, v.at? path = some w → w.isNull = true →
        Accounted (p.place? Sample.host "" false) (p.execute Sample.host "" false).errors path) ∧
    ((p.execute Sample.host "" false).value? = none →
      Explained (p.place? Sample.host "" false) (p.execute Sample.host "" false).errors []) := by
  have hrun : (Sample.operationChars? Sample.schemaChars.1 Sample.queryChars.1).any (fun p =>
      (p.execute Sample.host "" false).errors.map (·.path) = [some [.key "pet", .key "owner"]]) = true := by
    decide +kernel
  obtain ⟨p, hp, hchecked⟩ := Sample.exists_operation hrun
  have herrors := of_decide_eq_true hchecked
  have hprepared := hp
  unfold Sample.operation? at hprepared
  simp only [Option.bind_eq_bind, Option.bind_eq_some_iff] at hprepared
  obtain ⟨s, -, d, -, hprepared⟩ := hprepared
  obtain ⟨sc, parent, ss, hfields⟩ := Schema.prepare_fields (toOption_eq_some.mp hprepared)
  exact ⟨p, sc, parent, ss, hp, hfields, herrors,
    execute_accounts p Sample.host "" false sc parent ss hfields⟩

end PreparedOperation

end GraphQL
