import GraphQL.Proofs.Schema.InputCycle

/-!
The order in which defaults are applied.

An input object holds others through its fields, in lists or not. Where none of them holds itself, the
order of the input objects puts each behind all that it holds, and so each default comes behind those of
all fields that it leaves out.
-/

namespace GraphQL

open Relation (ReflTransGen TransGen)

namespace Schema

variable {s s' s₀ : Schema} {a b name : String} {order visited : List String}
  {visit : List String × List String} {steps : Nat}

/-! ### What an input object holds -/

/-- A field of an input object holds an input object, through lists or not, with null or without. -/
inductive NestsInput (s : Schema) : String → String → Prop where
  | mk {t u : NamedType} {fields : List InputSpec} {f : InputSpec} (type : t ∈ s.types)
      (isInput : t.inputFields? = some fields) (field : f ∈ fields) (holds : s.named? f.type = some u)
      (holdsInput : u.inputFields?.isSome) : NestsInput s t.name u.name

/-- No input object reaches itself through its fields. -/
def NoInputRecursion (s : Schema) : Prop := ∀ name, ¬ TransGen s.NestsInput name name

lemma NestsInput.source_mem (h : s.NestsInput a b) : a ∈ s.inputNames := by
  obtain @⟨t, u, fields, f, ht, hfields, -, -, -⟩ := h
  exact List.mem_filterMap.mpr ⟨t, ht, by simp [hfields]⟩

lemma NestsInput.target_mem (h : s.NestsInput a b) : b ∈ s.inputNames := by
  obtain @⟨t, u, fields, f, -, -, -, hu, hinput⟩ := h
  obtain ⟨below, hbelow⟩ := Option.isSome_iff_exists.mp hinput
  exact List.mem_filterMap.mpr ⟨u, named?_mem hu, by simp [hbelow]⟩

lemma mem_nestedInputs (hs : (s.types.map (·.name)).Nodup) : b ∈ s.nestedInputs a ↔ s.NestsInput a b := by
  unfold nestedInputs
  constructor
  · intro h
    split at h
    · rename_i fields hfields
      obtain ⟨t, ht, hinput⟩ := Option.bind_eq_some_iff.mp hfields
      obtain ⟨hmem, rfl⟩ := type?_mem ht
      obtain ⟨f, hf, h⟩ := List.mem_filterMap.mp h
      obtain ⟨u, hu, h⟩ := Option.bind_eq_some_iff.mp h
      obtain ⟨below, hbelow, rfl⟩ := Option.map_eq_some_iff.mp h
      exact .mk hmem hinput hf hu (by simp [hbelow])
    · simp at h
  · rintro @⟨t, u, fields, f, ht, hfields, hf, hu, hinput⟩
    obtain ⟨below, hbelow⟩ := Option.isSome_iff_exists.mp hinput
    have htype : s.type? t.name = some t := find?_of_nodup_keys hs ht
    simp only [htype, Option.bind_some, hfields]
    exact List.mem_filterMap.mpr ⟨f, hf, by simp [hu, hbelow]⟩

/-- An edge without null and lists is one of those with them. -/
lemma HoldsInput.nests (h : s.HoldsInput a b) : s.NestsInput a b := by
  obtain ⟨_, @⟨t, u, fields, f, ht, hfields, hf, -, -, hu, hinput⟩, rfl, rfl⟩ := h
  exact .mk ht hfields hf hu hinput

lemma NoInputRecursion.no_cycle (h : s.NoInputRecursion) : ¬ ∃ es, s.IsInputCycle es := by
  rw [exists_inputCycle_iff]
  rintro ⟨name, hcycle⟩
  exact h name (TransGen.mono (fun _ _ h => h.nests) name name hcycle)

/-! ### The order -/

/-- Each name comes behind all that it holds. -/
def InOrder (s : Schema) (order : List String) : Prop :=
  ∀ front name rest, order = front ++ name :: rest → ∀ b, s.NestsInput name b → b ∈ front

lemma InOrder.nil : s.InOrder [] := fun front name rest h => by simp at h

lemma InOrder.concat (h : s.InOrder order) (hname : ∀ b, s.NestsInput name b → b ∈ order) :
    s.InOrder (order ++ [name]) := by
  intro front x rest heq b hb
  rcases List.append_eq_append_iff.mp heq with ⟨more, rfl, hmore⟩ | ⟨more, rfl, hmore⟩
  · cases more with
    | nil =>
      obtain ⟨rfl, -⟩ := List.cons.inj hmore
      simpa using hname b hb
    | cons y more => simp at hmore
  · cases more with
    | nil =>
      obtain ⟨rfl, -⟩ := List.cons.inj hmore
      simpa using hname b hb
    | cons y more =>
      obtain ⟨rfl, -⟩ := List.cons.inj hmore
      exact h front x more rfl b hb

lemma InOrder.idxOf_lt (h : s.InOrder order) (ha : a ∈ order) (hab : s.NestsInput a b) :
    order.idxOf b < order.idxOf a := by
  obtain ⟨front, rest, rfl, hnot⟩ := List.eq_append_cons_of_mem ha
  have hb := h front a rest rfl b hab
  rw [List.idxOf_append_of_mem hb, List.idxOf_append_of_notMem hnot, List.idxOf_cons_self]
  exact Nat.lt_add_right 0 (List.idxOf_lt_length_of_mem hb)

/-- An order that is taken further. What is visited on the way comes to stand in it. -/
structure OrderGrows (s : Schema) (visit visit' : List String × List String) : Prop where
  inOrder : s.InOrder visit'.2
  visited : visit.1 ⊆ visit'.1
  order : visit.2 ⊆ visit'.2
  new : ∀ x ∈ visit'.1, x ∈ visit'.2 ∨ x ∈ visit.1

lemma OrderGrows.refl (h : s.InOrder visit.2) : s.OrderGrows visit visit :=
  ⟨h, List.Subset.refl _, List.Subset.refl _, fun _ => .inr⟩

lemma OrderGrows.trans {visit' visit'' : List String × List String} (h : s.OrderGrows visit visit')
    (h' : s.OrderGrows visit' visit'') : s.OrderGrows visit visit'' := by
  refine ⟨h'.inOrder, List.Subset.trans h.visited h'.visited, List.Subset.trans h.order h'.order,
    fun x hx => ?_⟩
  rcases h'.new x hx with hx | hx
  · exact .inl hx
  · exact (h.new x hx).imp_left fun hx => h'.order hx

lemma foldl_grows {f : List String × List String → String → List String × List String}
    {names : List String} {start : List String × List String}
    (hf : ∀ name ∈ names, ∀ visit, s.OrderGrows start visit →
      s.OrderGrows visit (f visit name) ∧ name ∈ (f visit name).2)
    (h : s.OrderGrows start visit) :
    s.OrderGrows start (names.foldl f visit) ∧ ∀ name ∈ names, name ∈ (names.foldl f visit).2 := by
  induction names generalizing start visit with
  | nil => exact ⟨h, by simp⟩
  | cons name names ih =>
    obtain ⟨hgrows, hmem⟩ := hf name List.mem_cons_self visit h
    obtain ⟨hrest, hall⟩ := ih (fun n hn visit' h' =>
      hf n (List.mem_cons_of_mem name hn) visit' ((h.trans hgrows).trans h')) (.refl hgrows.inOrder)
    exact ⟨(h.trans hgrows).trans hrest, List.forall_mem_cons.mpr ⟨hrest.order hmem, hall⟩⟩

/-- An input object is put behind what it holds, once all of that stands in the order. -/
lemma OrderGrows.concat {visited : List String} {visit' : List String × List String}
    (h : s.OrderGrows (name :: visited, order) visit')
    (hall : ∀ b, s.NestsInput name b → b ∈ visit'.2) :
    s.OrderGrows (visited, order) (visit'.1, visit'.2 ++ [name]) where
  inOrder := h.inOrder.concat hall
  visited := List.Subset.trans (List.subset_cons_self name visited) h.visited
  order := List.Subset.trans h.order (List.subset_append_left _ _)
  new x hx := by
    rcases h.new x hx with hx | hx
    · exact .inl (List.mem_append_left _ hx)
    rcases List.mem_cons.mp hx with rfl | hx
    · exact .inl List.mem_concat_self
    · exact .inr hx

/-- How many input objects are not visited yet. -/
def unvisited (s : Schema) (visited : List String) : ℕ := (s.inputNames.toFinset \ visited.toFinset).card

lemma unvisited_anti {visited' : List String} (h : visited ⊆ visited') :
    s.unvisited visited' ≤ s.unvisited visited := by
  refine Finset.card_le_card (Finset.sdiff_subset_sdiff (Finset.Subset.refl _) fun x hx => ?_)
  exact List.mem_toFinset.mpr (h (List.mem_toFinset.mp hx))

lemma unvisited_cons_lt (hname : name ∈ s.inputNames) (hnew : name ∉ visited) :
    s.unvisited (name :: visited) < s.unvisited visited := by
  refine Finset.card_lt_card ⟨?_, fun hsub => ?_⟩
  · rw [List.toFinset_cons]
    exact Finset.sdiff_subset_sdiff (Finset.Subset.refl _) (Finset.subset_insert _ _)
  · have hmem : name ∈ s.inputNames.toFinset \ visited.toFinset := by simp [hname, hnew]
    simpa using hsub hmem

/-- An input object is put behind all that it holds. What was visited and is not yet in the order are
those that it is held by: it is none of them itself. -/
lemma addInput_grows (hs : (s.types.map (·.name)).Nodup) (hrec : s.NoInputRecursion)
    (hname : name ∈ s.inputNames) (hin : s.InOrder visit.2)
    (hopen : ∀ x ∈ visit.1, x ∈ visit.2 ∨ TransGen s.NestsInput x name)
    (hsteps : s.unvisited visit.1 ≤ steps) :
    s.OrderGrows visit (s.addInput steps visit name) ∧ name ∈ (s.addInput steps visit name).2 := by
  induction steps generalizing visit name with
  | zero =>
    have hvisited : name ∈ visit.1 := by
      by_contra hnew
      exact absurd (unvisited_cons_lt hname hnew) (by omega)
    exact ⟨.refl hin, (hopen name hvisited).resolve_right (hrec name)⟩
  | succ steps ih =>
    obtain ⟨visited, order⟩ := visit
    rw [addInput]
    split
    · rename_i hvisited
      rw [List.contains_eq_mem, decide_eq_true_eq] at hvisited
      exact ⟨.refl hin, (hopen name hvisited).resolve_right (hrec name)⟩
    · rename_i hnew
      rw [List.contains_eq_mem, decide_eq_true_eq] at hnew
      have hless := unvisited_cons_lt hname hnew
      have hheld : ∀ b ∈ s.nestedInputs name, ∀ visit, s.OrderGrows (name :: visited, order) visit →
          s.OrderGrows visit (s.addInput steps visit b) ∧ b ∈ (s.addInput steps visit b).2 := by
        intro b hb visit hgrows
        have hb := (mem_nestedInputs hs).mp hb
        refine ih hb.target_mem hgrows.inOrder (fun x hx => ?_) ?_
        · rcases hgrows.new x hx with hx | hx
          · exact .inl hx
          rcases List.mem_cons.mp hx with rfl | hx
          · exact .inr (.single hb)
          · exact (hopen x hx).imp (fun hx => hgrows.order hx) fun hx => hx.tail hb
        · have hfewer : s.unvisited visit.1 ≤ s.unvisited (name :: visited) := unvisited_anti hgrows.visited
          exact Nat.le_of_lt_succ (lt_of_le_of_lt hfewer (lt_of_lt_of_le hless hsteps))
      obtain ⟨hgrows, hall⟩ := foldl_grows hheld (.refl hin)
      exact ⟨hgrows.concat fun b hb => hall b ((mem_nestedInputs hs).mpr hb), List.mem_concat_self⟩

/-- **The order of input objects**: where none of them holds itself, all of them stand in it, and each
behind the ones that it holds. -/
theorem inputOrder_inOrder (hs : (s.types.map (·.name)).Nodup) (hrec : s.NoInputRecursion) :
    s.InOrder s.inputOrder ∧ ∀ name ∈ s.inputNames, name ∈ s.inputOrder := by
  have hsteps (visited : List String) : s.unvisited visited ≤ s.types.length := by
    refine (Finset.card_le_card Finset.sdiff_subset).trans ((List.toFinset_card_le _).trans ?_)
    exact List.length_filterMap_le _ _
  have hname : ∀ name ∈ s.inputNames, ∀ visit, s.OrderGrows ([], []) visit →
      s.OrderGrows visit (s.addInput s.types.length visit name) ∧
        name ∈ (s.addInput s.types.length visit name).2 := fun name hname visit hgrows =>
    addInput_grows hs hrec hname hgrows.inOrder
      (fun x hx => .inl ((hgrows.new x hx).resolve_right List.not_mem_nil)) (hsteps _)
  obtain ⟨hgrows, hall⟩ := foldl_grows hname (.refl InOrder.nil)
  exact ⟨hgrows.inOrder, hall⟩

/-- What becomes smaller with each step becomes smaller along a path. -/
lemma lt_of_transGen {place : String → ℕ} (hstep : ∀ a b, s.NestsInput a b → place b < place a)
    (h : TransGen s.NestsInput a b) : place b < place a := by
  induction h with
  | single h => exact hstep _ _ h
  | tail _ h ih => exact (hstep _ _ h).trans ih

lemma idxOf_inputOrder_lt (hs : (s.types.map (·.name)).Nodup) (hrec : s.NoInputRecursion)
    (h : TransGen s.NestsInput a b) : s.inputOrder.idxOf b < s.inputOrder.idxOf a := by
  obtain ⟨hin, hall⟩ := inputOrder_inOrder hs hrec
  exact lt_of_transGen (fun _ _ h => hin.idxOf_lt (hall _ h.source_mem) h) h

/-- No input object holds itself exactly if all that they hold stands in front of them in the order. -/
theorem noInputRecursion_iff (hs : (s.types.map (·.name)).Nodup) : s.NoInputRecursion ↔
    ∀ a ∈ s.inputNames, ∀ b ∈ s.nestedInputs a, s.inputOrder.idxOf b < s.inputOrder.idxOf a := by
  constructor
  · exact fun hrec a _ b hb => idxOf_inputOrder_lt hs hrec (.single ((mem_nestedInputs hs).mp hb))
  · intro hfront name hcycle
    have hstep : ∀ a b, s.NestsInput a b → s.inputOrder.idxOf b < s.inputOrder.idxOf a :=
      fun a b h => hfront a h.source_mem b ((mem_nestedInputs hs).mpr h)
    exact lt_irrefl _ (lt_of_transGen hstep hcycle)

end Schema

/-! ### What defaults leave out -/

/-- What a literal leaves out belongs to an input object that its type holds, or to its type. -/
lemma CoercionContext.LeavesOut.reaches {c : CoercionContext} {v : Literal} {t : TypeId} {n : String}
    {d : InputSpec} (hr : c.schema.registry.WellFormed) (h : LeavesOut c v t n d) :
    ∃ u, c.schema.named? t = some u ∧ u.inputFields?.isSome ∧
      ReflTransGen c.schema.NestsInput u.name n := by
  induction h with
  | @here fields p t n declared d named isInput mem missing =>
    exact ⟨n, named, by simp [isInput], .refl⟩
  | field named isInput mem given below ih =>
    obtain ⟨u, hu, hinput, hpath⟩ := ih
    exact ⟨_, named, by simp [isInput], hpath.head (.mk (Schema.named?_mem named) isInput mem hu hinput)⟩
  | item element mem present below ih =>
    obtain ⟨u, hu, hinput, hpath⟩ := ih
    refine ⟨u, ?_, hinput, hpath⟩
    rwa [Schema.named?, TypeRegistry.innermost_list hr element]

namespace Schema

variable {s : Schema} {a : String} {p q : PendingDefault} {ps : List PendingDefault} {i : InputSpec}

lemma owned_inputField {f : String} (h : (.inputField a f, i) ∈ s.ownedInputs) :
    ∃ t fields, t ∈ s.types ∧ t.name = a ∧ t.inputFields? = some fields ∧ i ∈ fields := by
  obtain ⟨t, ht, h⟩ := List.mem_flatMap.mp h
  obtain ⟨name, description, body⟩ := t
  cases body with
  | inputObject fields =>
    obtain ⟨j, hj, heq⟩ := List.mem_map.mp h
    obtain ⟨hown, rfl⟩ := Prod.mk.inj heq
    exact ⟨_, fields, ht, (InputOwner.inputField.inj hown).1, rfl, hj⟩
  | object fields =>
    obtain ⟨g, -, h⟩ := List.mem_flatMap.mp h
    obtain ⟨j, -, heq⟩ := List.mem_map.mp h
    simp at heq
  | scalar builtin => simp [NamedType.ownedInputs, NamedTypeBody.ownedInputs] at h
  | enum values => simp [NamedType.ownedInputs, NamedTypeBody.ownedInputs] at h

/-- A default leaves out the input field of an owner. -/
def Needs (s : Schema) (p : PendingDefault) (owner : InputOwner) : Prop :=
  ∃ n d, s.constant.LeavesOut p.literal p.type n d ∧ owner = .inputField n d.name

/-- What a default needs has a place in front of it. -/
lemma rank_lt_of_needs (hs : s.WellFormed) (hrec : s.NoInputRecursion) (hp : p.key ∈ s.ownedTypes)
    (h : s.Needs p q.owner) : rank s.inputOrder q < rank s.inputOrder p := by
  obtain ⟨n, d, hleaves, hq⟩ := h
  obtain ⟨⟨owner, i⟩, hi, heq⟩ := List.mem_map.mp hp
  obtain ⟨howner, htype⟩ := Prod.mk.inj heq
  unfold rank
  rw [hq, ← howner]
  cases owner with
  | argument t f a =>
    obtain ⟨u, fields, hu, rfl, hfields, -⟩ := owned_inputField hleaves.owned
    have hmem : u.name ∈ s.inputNames := List.mem_filterMap.mpr ⟨u, hu, by simp [hfields]⟩
    exact List.idxOf_lt_length_of_mem ((inputOrder_inOrder hs.types hrec).2 _ hmem)
  | inputField a f =>
    obtain ⟨t, fields, ht, rfl, hfields, hmem⟩ := owned_inputField hi
    obtain ⟨u, hu, hinput, hpath⟩ := hleaves.reaches hs.registry
    exact idxOf_inputOrder_lt hs.types hrec (.head' (.mk ht hfields hmem (htype ▸ hu) hinput) hpath)

lemma orderDefaults_pairwise (s : Schema) (ps : List PendingDefault) :
    (s.orderDefaults ps).Pairwise fun p q => rank s.inputOrder p ≤ rank s.inputOrder q := by
  have hle (p : PendingDefault) : rank s.inputOrder p ≤ s.inputOrder.length := by
    unfold rank
    split
    · exact List.idxOf_le_length
    · exact le_refl _
  unfold orderDefaults
  dsimp only
  rw [List.partition_eq_filter_filter]
  have hlast {q : PendingDefault} (hq : ∀ t f, q.owner ≠ .inputField t f) :
      rank s.inputOrder q = s.inputOrder.length := by
    unfold rank
    cases howner : q.owner with
    | inputField t f => exact absurd howner (hq t f)
    | argument t f a => rfl
  refine List.pairwise_append.mpr ⟨?_, ?_, fun p _ q hq => (hle p).trans (hlast fun t f howner => ?_).ge⟩
  · refine (List.pairwise_mergeSort (fun p q r => ?_) (fun p q => ?_) _).imp of_decide_eq_true
    · simpa using le_trans
    · simpa using le_total _ _
  · refine List.pairwise_of_forall_mem_list fun p _ q hq => (hle p).trans (hlast fun t f howner => ?_).ge
    simp [howner] at hq
  · simp [howner] at hq

/-- Each default comes behind those of all fields that it leaves out. -/
def NeedsFirst (s : Schema) : List PendingDefault → Prop
  | [] => True
  | p :: ps => (∀ q ∈ p :: ps, ¬ s.Needs p q.owner) ∧ s.NeedsFirst ps

lemma orderDefaults_needsFirst (hs : s.WellFormed) (hrec : s.NoInputRecursion)
    (hkeys : ∀ p ∈ ps, p.key ∈ s.ownedTypes) : s.NeedsFirst (s.orderDefaults ps) := by
  have hkeys : ∀ p ∈ s.orderDefaults ps, p.key ∈ s.ownedTypes := fun p hp =>
    hkeys p ((s.orderDefaults_perm ps).mem_iff.mp hp)
  have hsorted := s.orderDefaults_pairwise ps
  generalize s.orderDefaults ps = order at hkeys hsorted
  induction order with
  | nil => trivial
  | cons p order ih =>
    obtain ⟨hp, hkeys⟩ := List.forall_mem_cons.mp hkeys
    obtain ⟨hle, hsorted⟩ := List.pairwise_cons.mp hsorted
    refine ⟨fun q hq hneeds => ?_, ih hkeys hsorted⟩
    have hlt := rank_lt_of_needs hs hrec hp hneeds
    rcases List.mem_cons.mp hq with rfl | hq
    · exact lt_irrefl _ hlt
    · exact absurd (hle q hq) (not_le.mpr hlt)

end Schema

end GraphQL
