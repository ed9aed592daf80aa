import GraphQL.Proofs.Schema.Draft
import GraphQL.Schema.InputCycle

/-!
Which cycles of input objects are reported.

The fields that no value can leave open are the edges of a graph. Its simple cycles are looked for from
every type, so that each of them comes up once for every type on it, and the first time it is kept. What
tells cycles apart is the set of their edges, and an edge is known by the names of its type and field.
-/

namespace GraphQL

open Relation (ReflTransGen TransGen)

/-- A field of an input object, with the type that it belongs to and the one that it leads to. -/
structure InputEdge where
  source : String
  field : String
  target : String
deriving DecidableEq

def InputEdge.label (e : InputEdge) : String := e.source ++ "." ++ e.field

namespace Schema

variable {s : Schema} {a b start name x : String} {e e' : InputEdge} {es es' : List InputEdge}
  {onPath : List String} {steps : Nat}

/-! ### The graph -/

/-- A field of an input object that holds neither null nor a list, but an input object. -/
inductive IsInputEdge (s : Schema) : InputEdge → Prop where
  | mk {t u : NamedType} {fields : List InputSpec} {f : InputSpec} (type : t ∈ s.types)
      (isInput : t.inputFields? = some fields) (field : f ∈ fields)
      (nonNull : f.type.isNonNull = true) (single : s.isList f.type = false)
      (holds : s.named? f.type = some u) (holdsInput : u.inputFields?.isSome) :
      IsInputEdge s ⟨t.name, f.name, u.name⟩

/-- Edges that lead from one type to another. -/
inductive InputPath (s : Schema) : String → List InputEdge → String → Prop where
  | nil (name : String) : InputPath s name [] name
  | cons {b : String} {e : InputEdge} {es : List InputEdge} (edge : s.IsInputEdge e)
      (rest : InputPath s e.target es b) : InputPath s e.source (e :: es) b

/-- Edges that lead back to where they start, and through no type twice. -/
structure IsInputCycle (s : Schema) (es : List InputEdge) : Prop where
  ne_nil : es ≠ []
  closed : ∃ start, s.InputPath start es start
  simple : (es.map (·.source)).Nodup

/-- There is an edge from one type to another. -/
def HoldsInput (s : Schema) (a b : String) : Prop := ∃ e, s.IsInputEdge e ∧ e.source = a ∧ e.target = b

namespace InputPath

lemma nil_iff : s.InputPath a [] b ↔ a = b := by
  constructor
  · rintro ⟨⟩
    rfl
  · rintro rfl
    exact .nil a

lemma cons_iff : s.InputPath a (e :: es) b ↔
    e.source = a ∧ s.IsInputEdge e ∧ s.InputPath e.target es b := by
  constructor
  · rintro (_ | ⟨edge, rest⟩)
    exact ⟨rfl, edge, rest⟩
  · rintro ⟨rfl, edge, rest⟩
    exact .cons edge rest

lemma edges (h : s.InputPath a es b) : ∀ e ∈ es, s.IsInputEdge e := by
  induction h with
  | nil => simp
  | cons edge _ ih => exact List.forall_mem_cons.mpr ⟨edge, ih⟩

lemma reflTransGen (h : s.InputPath a es b) : ReflTransGen s.HoldsInput a b := by
  induction h with
  | nil => exact .refl
  | cons edge _ ih => exact ih.head ⟨_, edge, rfl, rfl⟩

lemma transGen (h : s.InputPath a es b) (hne : es ≠ []) : TransGen s.HoldsInput a b := by
  cases h with
  | nil => exact absurd rfl hne
  | cons edge rest => exact TransGen.head' ⟨_, edge, rfl, rfl⟩ rest.reflTransGen

lemma concat (h : s.InputPath a es e.source) (he : s.IsInputEdge e) :
    s.InputPath a (es ++ [e]) e.target := by
  generalize hb : e.source = b at h
  induction h with
  | nil name =>
    subst hb
    exact .cons he (.nil _)
  | cons edge _ ih => exact .cons edge (ih hb)

lemma of_transGen (h : TransGen s.HoldsInput a b) : ∃ es, es ≠ [] ∧ s.InputPath a es b := by
  induction h with
  | single hab =>
    obtain ⟨e, he, rfl, rfl⟩ := hab
    exact ⟨[e], List.cons_ne_nil _ _, .cons he (.nil _)⟩
  | tail _ hbc ih =>
    obtain ⟨es, -, hpath⟩ := ih
    obtain ⟨e, he, rfl, rfl⟩ := hbc
    exact ⟨es ++ [e], by simp, hpath.concat he⟩

/-- A path goes up to a type on it where it comes there first. -/
lemma exists_front (h : s.InputPath a es b) (hx : x ∈ es.map (·.source) ++ [b]) :
    ∃ front, front <+: es ∧ s.InputPath a front x ∧ x ∉ front.map (·.source) := by
  induction h with
  | nil name =>
    obtain rfl : x = name := by simpa using hx
    exact ⟨[], List.prefix_rfl, .nil _, by simp⟩
  | @cons b e es edge rest ih =>
    by_cases heq : x = e.source
    · subst heq
      exact ⟨[], List.nil_prefix, .nil _, by simp⟩
    · obtain ⟨front, hfront, hpath, hnot⟩ := ih (by simpa [heq] using hx)
      exact ⟨e :: front, List.cons_prefix_cons.mpr ⟨rfl, hfront⟩, .cons edge hpath, by simp [heq, hnot]⟩

/-- A path goes through no type twice, or there is a cycle. -/
lemma nodup_or_cycle (h : s.InputPath a es b) :
    (es.map (·.source) ++ [b]).Nodup ∨ ∃ cycle, s.IsInputCycle cycle := by
  induction h with
  | nil name => exact .inl (List.nodup_singleton _)
  | @cons b e es edge rest ih =>
    refine ih.elim (fun hnodup => ?_) .inr
    by_cases hmem : e.source ∈ es.map (·.source) ++ [b]
    · obtain ⟨front, hfront, hpath, hnot⟩ := rest.exists_front hmem
      refine .inr ⟨e :: front, List.cons_ne_nil _ _, ⟨e.source, .cons edge hpath⟩, ?_⟩
      rw [List.map_cons, List.nodup_cons]
      exact ⟨hnot, hnodup.sublist ((hfront.map _).sublist.trans (List.sublist_append_left _ _))⟩
    · exact .inl (List.nodup_cons.mpr ⟨hmem, hnodup⟩)

end InputPath

/-- The graph has a cycle exactly if it has one that goes through no type twice. -/
lemma exists_inputCycle_iff :
    (∃ es, s.IsInputCycle es) ↔ ∃ name, TransGen s.HoldsInput name name := by
  constructor
  · rintro ⟨es, hne, ⟨start, hpath⟩, -⟩
    exact ⟨start, hpath.transGen hne⟩
  · rintro ⟨name, hcycle⟩
    obtain ⟨es, hne, hpath⟩ := InputPath.of_transGen hcycle
    refine hpath.nodup_or_cycle.resolve_left fun hnodup => ?_
    obtain ⟨e, es, rfl⟩ := List.exists_cons_of_ne_nil hne
    obtain ⟨hsource, -⟩ := InputPath.cons_iff.mp hpath
    rw [List.map_cons, List.cons_append, List.nodup_cons] at hnodup
    exact hnodup.1 (by simp [hsource])

/-! ### Edges by their types -/

lemma split_at_point {xs ys us vs : List Char} (h : xs ++ '.' :: us = ys ++ '.' :: vs) (hx : '.' ∉ xs)
    (hy : '.' ∉ ys) : xs = ys ∧ us = vs := by
  rcases List.append_eq_append_iff.mp h with ⟨more, rfl, hmore⟩ | ⟨more, rfl, hmore⟩
  · cases more with
    | nil => exact ⟨(List.append_nil _).symm, by simpa using hmore⟩
    | cons c more =>
      obtain ⟨rfl, -⟩ := List.cons.inj hmore
      simp at hy
  · cases more with
    | nil => exact ⟨List.append_nil _, by simpa using hmore.symm⟩
    | cons c more =>
      obtain ⟨rfl, -⟩ := List.cons.inj hmore
      simp at hx

/-- An edge is known by the names of its type and field. -/
lemma HasPlainNames.edge_eq (hs : s.HasPlainNames) (he : s.IsInputEdge e) (he' : s.IsInputEdge e')
    (h : e.label = e'.label) : e = e' := by
  obtain @⟨t, u, fields, f, ht, hfields, hf, -, -, hu, -⟩ := he
  obtain @⟨t', u', fields', f', ht', hfields', hf', -, -, hu', -⟩ := he'
  have hchars : t.name.toList ++ '.' :: f.name.toList = t'.name.toList ++ '.' :: f'.name.toList := by
    simpa [InputEdge.label] using congrArg String.toList h
  obtain ⟨hname, hfield⟩ := split_at_point hchars (hs.plain t ht) (hs.plain t' ht')
  obtain rfl := List.inj_on_of_nodup_map hs.types ht ht' (String.toList_injective hname)
  obtain rfl := Option.some.inj (hfields.symm.trans hfields')
  obtain rfl := List.inj_on_of_nodup_map (hs.fields t ht _ hfields) hf hf'
    (String.toList_injective hfield)
  obtain rfl := Option.some.inj (hu.symm.trans hu')
  rfl

/-- The edges from a type, in the order of its fields. -/
def outEdges (s : Schema) (name : String) : List InputEdge :=
  match (s.type? name).bind (·.inputFields?) with
  | none => []
  | some fields =>
    fields.filterMap fun f =>
      if f.type.isNullable || s.isList f.type then none
      else (s.named? f.type).bind fun t => t.inputFields?.map fun _ => ⟨name, f.name, t.name⟩

lemma inputEdges_eq (s : Schema) (name : String) :
    s.inputEdges name = (s.outEdges name).map fun e => (e.label, e.target) := by
  unfold inputEdges outEdges
  cases (s.type? name).bind (·.inputFields?) with
  | none => rfl
  | some fields =>
    rw [List.map_filterMap]
    refine List.filterMap_congr fun f _ => ?_
    split
    · rfl
    · cases s.named? f.type with
      | none => rfl
      | some t => cases ht : t.inputFields? <;> simp [InputEdge.label, ht]

lemma mem_outEdges (hs : s.HasPlainNames) :
    e ∈ s.outEdges name ↔ e.source = name ∧ s.IsInputEdge e := by
  unfold outEdges
  constructor
  · intro h
    split at h
    · simp at h
    · rename_i fields hfields
      obtain ⟨t, ht, hinput⟩ := Option.bind_eq_some_iff.mp hfields
      obtain ⟨hmem, rfl⟩ := type?_mem ht
      obtain ⟨f, hf, h⟩ := List.mem_filterMap.mp h
      split at h
      · simp at h
      · rename_i hopen
        rw [Bool.or_eq_true, not_or] at hopen
        obtain ⟨u, hu, h⟩ := Option.bind_eq_some_iff.mp h
        obtain ⟨below, hbelow, rfl⟩ := Option.map_eq_some_iff.mp h
        refine ⟨rfl, .mk hmem hinput hf ?_ (by simpa using hopen.2) hu (by simp [hbelow])⟩
        simpa [TypeId.isNullable] using hopen.1
  · rintro ⟨rfl, @⟨t, u, fields, f, ht, hfields, hf, hnonNull, hsingle, hu, hinput⟩⟩
    obtain ⟨below, hbelow⟩ := Option.isSome_iff_exists.mp hinput
    have htype : s.type? t.name = some t := find?_of_nodup_keys hs.types ht
    simp only [htype, Option.bind_some, hfields]
    refine List.mem_filterMap.mpr ⟨f, hf, ?_⟩
    simp [TypeId.isNullable, hnonNull, hsingle, hu, hbelow]

/-! ### The search -/

/-- The paths from `name` that close a cycle through `start`, as lists of edges. -/
def closings (s : Schema) (start : String) : Nat → List String → String → List (List InputEdge)
  | 0, _, _ => []
  | steps + 1, onPath, name =>
    (s.outEdges name).flatMap fun e =>
      if e.target == start then [[e]]
      else if onPath.contains e.target then []
      else (closings s start steps (e.target :: onPath) e.target).map (e :: ·)

lemma cyclesFrom_eq (s : Schema) (start : String) (steps : Nat) (path onPath : List String)
    (name : String) : s.cyclesFrom start steps path onPath name
      = (s.closings start steps onPath name).map fun es => path ++ es.map (·.label) := by
  induction steps generalizing path onPath name with
  | zero => rfl
  | succ steps ih =>
    rw [cyclesFrom, closings, inputEdges_eq, List.flatMap_map, List.map_flatMap]
    refine List.flatMap_congr fun e _ => ?_
    dsimp only
    split
    · rfl
    · split
      · rfl
      · rw [ih, List.map_map]
        refine List.map_congr_left fun es _ => ?_
        simp

lemma nil_not_mem_closings : [] ∉ s.closings start steps onPath name := by
  cases steps with
  | zero => simp [closings]
  | succ steps =>
    rw [closings, List.mem_flatMap]
    rintro ⟨e, -, h⟩
    split at h
    · simp at h
    · split at h <;> simp at h

/-- An edge closes a cycle itself, or it leads to a type that is new and more edges close it from there. -/
lemma cons_mem_closings : e :: es ∈ s.closings start (steps + 1) onPath name ↔
    e ∈ s.outEdges name ∧ if e.target = start then es = [] else
      e.target ∉ onPath ∧ es ∈ s.closings start steps (e.target :: onPath) e.target := by
  have hstep (e' : InputEdge) : (e :: es ∈ if e'.target == start then [[e']]
      else if onPath.contains e'.target then []
      else (s.closings start steps (e'.target :: onPath) e'.target).map (e' :: ·)) ↔
        e' = e ∧ if e.target = start then es = [] else
          e.target ∉ onPath ∧ es ∈ s.closings start steps (e.target :: onPath) e.target := by
    by_cases heq : e' = e
    · subst heq
      by_cases htarget : e'.target = start
      · simp [htarget]
      · by_cases hmem : e'.target ∈ onPath <;> simp [htarget, hmem]
    · refine iff_of_false (fun h => ?_) fun h => heq h.1
      split at h
      · simp [Ne.symm heq] at h
      · split at h <;> simp [heq] at h
  simp only [closings, List.mem_flatMap, hstep]
  constructor
  · rintro ⟨e, he, rfl, h⟩
    exact ⟨he, h⟩
  · rintro ⟨he, h⟩
    exact ⟨e, he, rfl, h⟩

/-- What closes a cycle: a path that comes through no type twice, and through none that is on the path so
far. -/
structure Closes (s : Schema) (start : String) (onPath : List String) (name : String)
    (es : List InputEdge) : Prop where
  path : s.InputPath name es start
  simple : (es.tail.map (·.source)).Nodup
  fresh : ∀ x ∈ es.tail.map (·.source), x ∉ onPath

lemma closes_singleton : s.Closes start onPath name [e] ↔
    (e.source = name ∧ s.IsInputEdge e) ∧ e.target = start := by
  constructor
  · rintro ⟨hpath, -, -⟩
    obtain ⟨hsource, hedge, hrest⟩ := InputPath.cons_iff.mp hpath
    exact ⟨⟨hsource, hedge⟩, InputPath.nil_iff.mp hrest⟩
  · rintro ⟨⟨hsource, hedge⟩, htarget⟩
    exact ⟨InputPath.cons_iff.mpr ⟨hsource, hedge, InputPath.nil_iff.mpr htarget⟩, by simp, by simp⟩

/-- A longer path comes through the type that its first edge leads to, and not again. -/
lemma closes_cons (hne : es ≠ []) : s.Closes start onPath name (e :: es) ↔
    (e.source = name ∧ s.IsInputEdge e) ∧ e.target ∉ onPath ∧
      s.Closes start (e.target :: onPath) e.target es := by
  obtain ⟨e', es, rfl⟩ := List.exists_cons_of_ne_nil hne
  constructor
  · rintro ⟨hpath, hnodup, hfresh⟩
    obtain ⟨hsource, hedge, hrest⟩ := InputPath.cons_iff.mp hpath
    obtain ⟨hfirst, -⟩ := InputPath.cons_iff.mp hrest
    simp only [List.tail_cons, List.map_cons, List.nodup_cons, hfirst] at hnodup hfresh
    obtain ⟨hnew, hfresh⟩ := List.forall_mem_cons.mp hfresh
    refine ⟨⟨hsource, hedge⟩, hnew, hrest, hnodup.2, fun x hx hmem => ?_⟩
    rcases List.mem_cons.mp hmem with rfl | hmem
    · exact hnodup.1 hx
    · exact hfresh x hx hmem
  · rintro ⟨⟨hsource, hedge⟩, hnew, hrest, hnodup, hfresh⟩
    obtain ⟨hfirst, -⟩ := InputPath.cons_iff.mp hrest
    refine ⟨InputPath.cons_iff.mpr ⟨hsource, hedge, hrest⟩, ?_, ?_⟩
    · rw [List.tail_cons, List.map_cons, List.nodup_cons, hfirst]
      exact ⟨fun hmem => hfresh _ hmem List.mem_cons_self, hnodup⟩
    · rw [List.tail_cons, List.map_cons, hfirst]
      refine List.forall_mem_cons.mpr ⟨hnew, fun x hx hmem => ?_⟩
      exact hfresh x hx (List.mem_cons_of_mem _ hmem)

/-- Exactly those paths close a cycle that come through no type twice, and through none that is on the
path so far. -/
lemma mem_closings (hs : s.HasPlainNames) (hstart : start ∈ onPath) :
    es ∈ s.closings start steps onPath name ↔
      es ≠ [] ∧ es.length ≤ steps ∧ s.Closes start onPath name es := by
  induction steps generalizing es onPath name with
  | zero =>
    refine ⟨fun h => by simp [closings] at h, fun ⟨hne, hlen, _⟩ => ?_⟩
    exact absurd (List.eq_nil_of_length_eq_zero (Nat.le_zero.mp hlen)) hne
  | succ steps ih =>
    cases es with
    | nil => exact iff_of_false nil_not_mem_closings fun h => h.1 rfl
    | cons e es =>
      rw [cons_mem_closings, mem_outEdges hs, List.length_cons, Nat.add_le_add_iff_right]
      by_cases hes : es = []
      · subst hes
        have hnil : [] ∉ s.closings start steps (e.target :: onPath) e.target := nil_not_mem_closings
        rw [closes_singleton]
        simp [hnil]
      · -- The path goes on behind the edge, so that the edge cannot lead back to the start.
        rw [closes_cons hes, ih (List.mem_cons_of_mem _ hstart)]
        by_cases htarget : e.target = start
        · simp [htarget, hes, hstart]
        · simp [htarget, hes, and_left_comm]

/-- All cycles that the search comes across, from every type. -/
def foundCycles (s : Schema) : List (List InputEdge) :=
  s.inputNames.flatMap fun start => s.closings start (s.types.length + 1) [start] start

lemma IsInputEdge.source_mem (he : s.IsInputEdge e) : e.source ∈ s.inputNames := by
  obtain @⟨t, u, fields, f, ht, hfields, -, -, -, -, -⟩ := he
  exact List.mem_filterMap.mpr ⟨t, ht, by simp [hfields]⟩

/-- A cycle has no more edges than there are types. -/
lemma IsInputCycle.length_le (h : s.IsInputCycle es) : es.length ≤ s.types.length := by
  obtain ⟨start, hpath⟩ := h.closed
  have hsubset : es.map (·.source) ⊆ s.types.map (·.name) := by
    intro x hx
    obtain ⟨e, he, rfl⟩ := List.mem_map.mp hx
    obtain @⟨t, u, fields, f, ht, -, -, -, -, -, -⟩ := hpath.edges e he
    exact List.mem_map.mpr ⟨t, ht, rfl⟩
  simpa using (List.subperm_of_subset h.simple hsubset).length_le

/-- The search comes across every cycle, and nothing else. -/
lemma mem_foundCycles (hs : s.HasPlainNames) : es ∈ s.foundCycles ↔ s.IsInputCycle es := by
  rw [foundCycles, List.mem_flatMap]
  constructor
  · rintro ⟨start, -, hes⟩
    obtain ⟨hne, -, hpath, hnodup, hdisjoint⟩ := (mem_closings hs (List.mem_singleton_self start)).mp hes
    obtain ⟨e, es, rfl⟩ := List.exists_cons_of_ne_nil hne
    obtain ⟨rfl, -⟩ := InputPath.cons_iff.mp hpath
    refine ⟨hne, ⟨_, hpath⟩, List.nodup_cons.mpr ⟨fun hmem => ?_, hnodup⟩⟩
    exact hdisjoint _ hmem (List.mem_singleton_self _)
  · intro h
    have hlength := h.length_le
    obtain ⟨hne, ⟨start, hpath⟩, hsimple⟩ := h
    obtain ⟨e, es, rfl⟩ := List.exists_cons_of_ne_nil hne
    obtain ⟨rfl, hedge, -⟩ := InputPath.cons_iff.mp hpath
    refine ⟨e.source, hedge.source_mem, (mem_closings hs (List.mem_singleton_self _)).mpr ?_⟩
    obtain ⟨hfirst, hnodup⟩ := List.nodup_cons.mp hsimple
    refine ⟨hne, hlength.trans (Nat.le_succ _), hpath, hnodup, fun x hx hmem => ?_⟩
    obtain rfl := List.mem_singleton.mp hmem
    exact hfirst hx

/-! ### What is reported -/

/-- A cycle is reported as its edges, with the type that it leads back to behind them. -/
def cycleError (es : List InputEdge) : DefinitionError :=
  .circularInputs (es.map (·.label) ++ (es.head?.map (·.source)).toList)

/-- Of all things with the same edges the first one is kept, unless the edges were reported before. -/
lemma distinctCycles_map {α : Type} (pair : α → String × List String) (cs : List α)
    (reported : List (List String)) :
    ∃ kept : List α, distinctCycles reported (cs.map pair) = kept.map pair ∧ (∀ c ∈ kept, c ∈ cs) ∧
      ∀ x, kept.countP (fun c => (pair c).2.mergeSort = x)
        = if x ∈ reported then 0 else if x ∈ cs.map (fun c => (pair c).2.mergeSort) then 1 else 0 := by
  induction cs generalizing reported with
  | nil => exact ⟨[], rfl, by simp, by simp⟩
  | cons c cs ih =>
    rw [List.map_cons, distinctCycles]
    split
    · rename_i hold
      rw [List.contains_eq_mem, decide_eq_true_eq] at hold
      obtain ⟨kept, heq, hmem, hcount⟩ := ih reported
      refine ⟨kept, heq, fun k hk => List.mem_cons_of_mem c (hmem k hk), fun x => ?_⟩
      rw [hcount]
      by_cases hx : x ∈ reported
      · rw [if_pos hx, if_pos hx]
      · have hne : x ≠ (pair c).2.mergeSort := fun heq => hx (heq ▸ hold)
        simp [hx, hne]
    · rename_i hnew
      rw [List.contains_eq_mem, decide_eq_true_eq] at hnew
      obtain ⟨kept, heq, hmem, hcount⟩ := ih ((pair c).2.mergeSort :: reported)
      refine ⟨c :: kept, by rw [heq, List.map_cons], ?_, fun x => ?_⟩
      · exact List.forall_mem_cons.mpr
          ⟨List.mem_cons_self, fun k hk => List.mem_cons_of_mem c (hmem k hk)⟩
      · rw [List.countP_cons, hcount]
        by_cases hx : x = (pair c).2.mergeSort
        · subst hx
          simp [hnew]
        · simp [hx, Ne.symm hx]

lemma mergeSort_eq_iff {xs ys : List String} : xs.mergeSort = ys.mergeSort ↔ xs.Perm ys := by
  constructor
  · intro h
    exact (List.mergeSort_perm xs _).symm.trans (h ▸ List.mergeSort_perm ys _)
  · intro h
    have hsorted (zs : List String) : zs.mergeSort.Pairwise fun a b => decide (a ≤ b) = true :=
      List.pairwise_mergeSort (by simpa using fun a b c => le_trans) (by simpa using le_total) zs
    refine List.Perm.eq_of_pairwise (fun a b _ _ hab hba => ?_) (hsorted xs) (hsorted ys) ?_
    · exact le_antisymm (of_decide_eq_true hab) (of_decide_eq_true hba)
    · exact (List.mergeSort_perm xs _).trans (h.trans (List.mergeSort_perm ys _).symm)

/-- Cycles are reported as the same exactly if they have the same edges. -/
lemma IsInputCycle.sorted_eq_iff (hs : s.HasPlainNames) (h : s.IsInputCycle es)
    (h' : s.IsInputCycle es') :
    (es.map (·.label)).mergeSort = (es'.map (·.label)).mergeSort ↔ es.toFinset = es'.toFinset := by
  rw [mergeSort_eq_iff]
  obtain ⟨start, hpath⟩ := h.closed
  obtain ⟨start', hpath'⟩ := h'.closed
  have hsub {fs gs : List InputEdge} (hfs : ∀ e ∈ fs, s.IsInputEdge e) (hgs : ∀ e ∈ gs, s.IsInputEdge e)
      (hperm : (fs.map (·.label)).Perm (gs.map (·.label))) : ∀ e ∈ fs, e ∈ gs := by
    intro e he
    obtain ⟨e', he', heq⟩ := List.mem_map.mp (hperm.mem_iff.mp (List.mem_map.mpr ⟨e, he, rfl⟩))
    exact hs.edge_eq (hgs e' he') (hfs e he) heq ▸ he'
  constructor
  · intro hperm
    ext e
    rw [List.mem_toFinset, List.mem_toFinset]
    exact ⟨hsub hpath.edges hpath'.edges hperm e, hsub hpath'.edges hpath.edges hperm.symm e⟩
  · intro hsets
    refine ((List.perm_ext_iff_of_nodup h.simple.of_map h'.simple.of_map).mpr fun e => ?_).map _
    rw [← List.mem_toFinset, hsets, List.mem_toFinset]

/-- Each cycle is reported once, however it is entered. -/
lemma inputCycleErrors_spec (hs : s.HasPlainNames) : ∃ cycles : List (List InputEdge),
    s.inputCycleErrors = cycles.map cycleError ∧ (∀ es ∈ cycles, s.IsInputCycle es) ∧
      ∀ es, s.IsInputCycle es → cycles.countP (fun es' => es'.toFinset = es.toFinset) = 1 := by
  let pair (es : List InputEdge) : String × List String :=
    ((es.head?.map (·.source)).getD "", es.map (·.label))
  have hcycles : (s.types.filterMap fun t => t.inputFields?.map fun _ => t.name).flatMap (fun start =>
      (s.cyclesFrom start (s.types.length + 1) [] [start] start).map fun edges => (start, edges))
      = s.foundCycles.map pair := by
    rw [foundCycles, List.map_flatMap]
    refine List.flatMap_congr fun start _ => ?_
    rw [cyclesFrom_eq, List.map_map]
    refine List.map_congr_left fun es hes => ?_
    obtain ⟨hne, -, hpath, -⟩ := (mem_closings hs (List.mem_singleton_self start)).mp hes
    obtain ⟨e, es, rfl⟩ := List.exists_cons_of_ne_nil hne
    obtain ⟨rfl, -⟩ := InputPath.cons_iff.mp hpath
    rfl
  obtain ⟨kept, heq, hmem, hcount⟩ := distinctCycles_map pair s.foundCycles []
  have hkept : ∀ es ∈ kept, s.IsInputCycle es := fun es hes => (mem_foundCycles hs).mp (hmem es hes)
  refine ⟨kept, ?_, hkept, fun es hes => ?_⟩
  · unfold inputCycleErrors
    dsimp only
    rw [hcycles, heq, List.map_map]
    refine List.map_congr_left fun es hes => ?_
    obtain ⟨e, es, rfl⟩ := List.exists_cons_of_ne_nil (hkept es hes).ne_nil
    rfl
  · have hone := hcount (es.map (·.label)).mergeSort
    rw [if_neg List.not_mem_nil, if_pos] at hone
    · rw [← hone]
      refine List.countP_congr fun es' hes' => ?_
      rw [decide_eq_true_eq, decide_eq_true_eq]
      exact ((hkept es' hes').sorted_eq_iff hs hes).symm
    · exact List.mem_map.mpr ⟨es, (mem_foundCycles hs).mpr hes, rfl⟩

/-- **Cycles of input objects**: in a schema under construction, something is reported exactly if the
fields that exclude null and hold no list lead from an input object back to it. All reports are about
simple cycles, and each simple cycle is reported once, whatever type it is entered from. -/
theorem inputCycleErrors_exact {s₀ : Schema} {ds : List SchemaDocument} {id : Nat} {st : ResolutionState}
    {errors : List DefinitionError} (hds : ∀ d ∈ ds, ∃ file text, SchemaDocument.load file text = .ok d)
    (hr : resolve ds id = .ok (s₀, st)) (hs : s₀.applyDefaults st.pending.reverse = (s, errors)) :
    (s.inputCycleErrors ≠ [] ↔ ∃ name, TransGen s.HoldsInput name name) ∧
    ∃ cycles : List (List InputEdge),
      s.inputCycleErrors = cycles.map cycleError ∧ (∀ es ∈ cycles, s.IsInputCycle es) ∧
      ∀ es, s.IsInputCycle es → cycles.countP (fun es' => es'.toFinset = es.toFinset) = 1 := by
  have hplain := draft_hasPlainNames hds hr
  rw [hs] at hplain
  obtain ⟨cycles, heq, hcycles, hone⟩ := inputCycleErrors_spec hplain
  refine ⟨?_, cycles, heq, hcycles, hone⟩
  rw [← exists_inputCycle_iff, heq, Ne, List.map_eq_nil_iff]
  constructor
  · intro hne
    obtain ⟨es, hes⟩ := List.exists_mem_of_ne_nil _ hne
    exact ⟨es, hcycles es hes⟩
  · rintro ⟨es, hes⟩ rfl
    simpa using hone es hes

/-- Two ways from one type to another one, that leads back and to itself. -/
def knot : String :=
  "type Query \x7b f: Int \x7d input A \x7b x: B!, y: B! \x7d input B \x7b a: A!, b: B! \x7d"

theorem inputCycleErrors_exact_of_knot : ∃ d s₀ st s errors, SchemaDocument.load none knot = .ok d ∧
    resolve [d] 0 = .ok (s₀, st) ∧ s₀.applyDefaults st.pending.reverse = (s, errors) ∧
    (∃ name, TransGen s.HoldsInput name name) ∧
    ∃ cycles : List (List InputEdge),
      s.inputCycleErrors = cycles.map cycleError ∧ (∀ es ∈ cycles, s.IsInputCycle es) ∧
      ∀ es, s.IsInputCycle es → cycles.countP (fun es' => es'.toFinset = es.toFinset) = 1 := by
  have hrun : (do
      let d ← SchemaDocument.load none knot
      let draft ← resolve [d] 0
      return (draft.1.applyDefaults draft.2.pending.reverse).1.inputCycleErrors.isEmpty).toOption
        = some false := by
    decide +kernel
  obtain ⟨d, hd, hrun⟩ := bind_eq_ok.mp (toOption_eq_some.mp hrun)
  obtain ⟨⟨s₀, st⟩, hr, hsome⟩ := bind_eq_ok.mp hrun
  have hsome : (s₀.applyDefaults st.pending.reverse).1.inputCycleErrors.isEmpty = false :=
    Except.ok.inj hsome
  obtain ⟨hcycle, hexact⟩ := inputCycleErrors_exact (List.forall_mem_singleton.mpr ⟨none, _, hd⟩) hr rfl
  exact ⟨d, s₀, st, _, _, hd, hr, rfl, hcycle.mp (List.isEmpty_eq_false_iff.mp hsome), hexact⟩

end Schema

end GraphQL
