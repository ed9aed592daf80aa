import GraphQL.Execution.Selection
import GraphQL.Proofs.Document.Walk

/-!
What is collected from selection sets.

A field is selected if it stands in a selection set, in an inline fragment, or in a fragment that is
used there, and if the conditions of the field and of everything around it let it in. All that is
selected and applies to the type is collected, and nothing else is.
-/

namespace GraphQL

namespace SelectionContext

variable {c : SelectionContext} {parent : TypeId} {ds : List Directive} {p : Pos} {ss : SelectionSet}
  {f : Field} {below : Option SelectionSet} {sel sel' : Selection} {b b' : Unit}

/-! ### Conditions -/

/-- No condition excludes a selection with these directives. -/
def Admitted (c : SelectionContext) (ds : List Directive) : Prop :=
  ∀ d ∈ ds, ∀ value, c.condition? d = some (.ok (some value)) → value = (d.name.text == "include")

lemma condition?_name {d : Directive} {r : Except (List CoercionError) (Option Bool)}
    (h : c.condition? d = some r) : d.name.text = "skip" ∨ d.name.text = "include" := by
  unfold condition? at h
  dsimp only at h
  split at h
  · rename_i hname
    simpa using hname
  · simp at h

/-- A condition excludes a selection exactly if it has the other value than the one that lets it
in. -/
lemma excludes_iff {d : Directive} {value : Option Bool} (h : c.condition? d = some (.ok value)) :
    ((d.name.text == "skip" && value = some true)
      || (d.name.text == "include" && value = some false)) = true ↔
      ∃ v, value = some v ∧ v ≠ (d.name.text == "include") := by
  rcases condition?_name h with hname | hname
  · rcases value with _ | _ | _ <;> simp [hname]
  · rcases value with _ | _ | _ <;> simp [hname]

lemma admits_iff : (c.admits p ds).1 = true ↔ c.Admitted ds := by
  induction ds with
  | nil => simp [admits, Admitted]
  | cons d ds ih =>
    have hcons : c.Admitted (d :: ds) ↔
        (∀ value, c.condition? d = some (.ok (some value)) → value = (d.name.text == "include"))
          ∧ c.Admitted ds := List.forall_mem_cons
    rw [hcons, admits]
    split
    · rename_i h
      rw [ih, h]
      simp
    · rename_i es h
      rw [ih, h]
      simp
    · rename_i value h
      have hexcludes := excludes_iff h
      split
      · rename_i hif
        obtain ⟨v, rfl, hne⟩ := hexcludes.mp hif
        refine iff_of_false (by simp) fun hall => hne (hall.1 v h)
      · rename_i hif
        rw [ih, and_iff_right]
        intro v hv
        by_contra hne
        refine hif (hexcludes.mpr ⟨v, ?_, hne⟩)
        exact Except.ok.inj (Option.some.inj (h.symm.trans hv))

/-- Conditions that all have a value are nothing to complain about. -/
lemma admits_errors (h : ∀ d ∈ ds, ∀ es, c.condition? d ≠ some (.error es)) :
    (c.admits p ds).2 = [] := by
  induction ds with
  | nil => rfl
  | cons d ds ih =>
    obtain ⟨hd, hds⟩ := List.forall_mem_cons.mp h
    rw [admits]
    split
    · exact ih hds
    · rename_i es hes
      exact absurd hes (hd es)
    · split
      · rfl
      · exact ih hds

/-! ### The walk -/

/-- The walk that collects the fields for objects of a type. -/
def walker (c : SelectionContext) (parent : TypeId) : Walker Collected Unit where
  own _
    | .field f below => (c.admits f.pos f.directives).2.map .error
        ++ if (c.admits f.pos f.directives).1 then [.field f below] else []
    | .spread s => (c.admits s.pos s.directives).2.map .error
    | .inline i _ => (c.admits i.pos i.directives).2.map .error
  next _
    | .field .. => none
    | .spread s => if (c.admits s.pos s.directives).1 then some () else none
    | .inline i _ =>
      if (c.admits i.pos i.directives).1 && c.applies parent i.typeCondition then some () else none
  body _ f := if c.applies parent (some f.typeCondition) then some () else none

@[simp] lemma walker_own_spread (s : FragmentSpread) :
    (c.walker parent).own b (.spread s) = (c.admits s.pos s.directives).2.map .error := rfl

@[simp] lemma walker_own_inline (i : InlineFragment) (inner : SelectionSet) :
    (c.walker parent).own b (.inline i inner) = (c.admits i.pos i.directives).2.map .error := rfl

@[simp] lemma walker_next_spread (s : FragmentSpread) : (c.walker parent).next b (.spread s)
    = if (c.admits s.pos s.directives).1 then some () else none := rfl

@[simp] lemma walker_next_inline (i : InlineFragment) (inner : SelectionSet) :
    (c.walker parent).next b (.inline i inner) =
      if (c.admits i.pos i.directives).1 && c.applies parent i.typeCondition then some ()
      else none := rfl

@[simp] lemma walker_body (g : FragmentDefinition) : (c.walker parent).body b g
    = if c.applies parent (some g.typeCondition) then some () else none := rfl

lemma guarded_eq (w : Walk Collected) : c.guarded p ds w
    = Walk.emit ((c.admits p ds).2.map .error)
      ++ if (c.admits p ds).1 then w else Walk.emit [] := rfl

lemma spreadWalk_eq (enter : FragmentDefinition → Walk Collected) (name : String) :
    c.spreadWalk enter parent name
      = (c.walker parent).enter c.document (fun _ g => enter g) b name := by
  unfold spreadWalk Walker.enter
  cases c.document.fragment? name with
  | none => rfl
  | some g =>
    simp only [walker_body]
    split_ifs <;> rfl

mutual

lemma selectionWalk_eq (enter : FragmentDefinition → Walk Collected) (parent : TypeId) :
    ∀ sel : Selection, c.selectionWalk enter parent sel = (c.walker parent).selection
      ((c.walker parent).enter c.document fun _ g => enter g) () sel
  | .field f none => by
    rw [selectionWalk, guarded_eq, Walker.selection, Walker.step_none rfl]
    simp only [walker]
    split_ifs <;> rfl
  | .field f (some below) => by
    rw [selectionWalk, guarded_eq, Walker.selection, Walker.step_none rfl]
    simp only [walker]
    split_ifs <;> rfl
  | .spread s => by
    rw [selectionWalk, guarded_eq, Walker.selection, Walker.step, walker_own_spread,
      walker_next_spread]
    split_ifs
    · rw [spreadWalk_eq]
    · rfl
  | .inline i inner => by
    rw [selectionWalk, guarded_eq, Walker.selection, Walker.step, walker_own_inline,
      walker_next_inline, selectionSetWalk_eq enter parent inner]
    by_cases hadmits : (c.admits i.pos i.directives).1 = true
    · by_cases happlies : c.applies parent i.typeCondition = true
      · simp [hadmits, happlies]
      · simp [hadmits, happlies]
    · simp [hadmits]

lemma selectionSetWalk_eq (enter : FragmentDefinition → Walk Collected) (parent : TypeId) :
    ∀ ss : SelectionSet, c.selectionSetWalk enter parent ss = (c.walker parent).selectionSet
      ((c.walker parent).enter c.document fun _ g => enter g) () ss
  | .mk sels _ => by
    rw [selectionSetWalk, Walker.selectionSet]
    exact selectionsWalk_eq enter parent sels

lemma selectionsWalk_eq (enter : FragmentDefinition → Walk Collected) (parent : TypeId) :
    ∀ sels : List Selection, c.selectionsWalk enter parent sels = (c.walker parent).selections
      ((c.walker parent).enter c.document fun _ g => enter g) () sels
  | [] => rfl
  | sel :: sels => by
    rw [selectionsWalk, Walker.selections, selectionWalk_eq enter parent sel,
      selectionsWalk_eq enter parent sels]

end

lemma fragmentWalk_eq (c : SelectionContext) (parent : TypeId) (steps : Nat) :
    (fun (_ : Unit) g => c.fragmentWalk parent steps g)
      = (c.walker parent).bodyWalk c.document steps := by
  induction steps with
  | zero => rfl
  | succ steps ih =>
    funext b g
    rw [fragmentWalk, Walker.bodyWalk, ← ih]
    exact selectionSetWalk_eq _ parent g.selectionSet

/-- Collecting is one walk through the selections of all sets. -/
lemma collect_eq (c : SelectionContext) (parent : TypeId) (sets : List SelectionSet) :
    c.collect parent sets
      = ((c.walker parent).walk c.document () (sets.flatMap (·.selections))).found := by
  unfold collect
  extract_lets enter walks
  refine congrArg Walk.found ?_
  rw [Walker.walk, ← fragmentWalk_eq]
  show (sets.map _).foldr _ _ = _
  induction sets with
  | nil => rfl
  | cons ss sets ih =>
    rw [List.map_cons, List.foldr_cons, ih, List.flatMap_cons, Walker.selections_append,
      selectionSetWalk_eq]
    cases ss with
    | mk sels p => rfl

/-- The walk reaches a selection of a set. -/
def Reaches (c : SelectionContext) (parent : TypeId) (ss : SelectionSet) (sel : Selection) : Prop :=
  ∃ first ∈ ss.selections, ∃ b b', (c.walker parent).Meets c.document b first b' sel

lemma mem_collect {sets : List SelectionSet} {a : Collected} : a ∈ c.collect parent sets ↔
    ∃ ss ∈ sets, ∃ sel, c.Reaches parent ss sel ∧ a ∈ (c.walker parent).own () sel := by
  rw [collect_eq, Walker.mem_walk_found fun _ _ _ => rfl]
  constructor
  · rintro ⟨first, hfirst, b, sel, hmeets, ha⟩
    obtain ⟨ss, hss, hfirst⟩ := List.mem_flatMap.mp hfirst
    exact ⟨ss, hss, sel, ⟨first, hfirst, (), b, hmeets⟩, ha⟩
  · rintro ⟨ss, hss, sel, ⟨first, hfirst, b, b', hmeets⟩, ha⟩
    exact ⟨first, List.mem_flatMap.mpr ⟨ss, hss, hfirst⟩, b', sel, hmeets, ha⟩

/-- The fields that are collected. -/
def collectedFields (c : SelectionContext) (parent : TypeId) (sets : List SelectionSet) :
    List (Field × Option SelectionSet) :=
  (c.collect parent sets).filterMap (·.field?)

lemma mem_collectedFields {sets : List SelectionSet} : (f, below) ∈ c.collectedFields parent sets ↔
    ∃ ss ∈ sets, c.Reaches parent ss (.field f below) ∧ c.Admitted f.directives := by
  rw [collectedFields, List.mem_filterMap]
  constructor
  · rintro ⟨a, ha, hfield⟩
    obtain ⟨ss, hss, sel, hreaches, hown⟩ := mem_collect.mp ha
    cases a with
    | error e => simp [Collected.field?] at hfield
    | field g under =>
      obtain ⟨rfl, rfl⟩ := Prod.mk.inj (Option.some.inj hfield)
      cases sel with
      | field g' under' =>
        simp only [walker, List.mem_append, List.mem_map, reduceCtorEq, and_false, exists_false,
          false_or, List.mem_ite_nil_right, List.mem_singleton, Collected.field.injEq] at hown
        obtain ⟨hadmits, rfl, rfl⟩ := hown
        exact ⟨ss, hss, hreaches, admits_iff.mp hadmits⟩
      | spread s => simp at hown
      | inline i inner => simp at hown
  · rintro ⟨ss, hss, hreaches, hadmitted⟩
    refine ⟨.field f below, mem_collect.mpr ⟨ss, hss, _, hreaches, ?_⟩, rfl⟩
    simp [walker, admits_iff.mpr hadmitted]

/-! ### Selected fields -/

/-- A selection set selects a field, unless the types of fragments stand in the way. -/
inductive Selects (c : SelectionContext) : SelectionSet → Field → Option SelectionSet → Prop where
  | field {ss : SelectionSet} {f : Field} {below : Option SelectionSet}
      (mem : .field f below ∈ ss.selections) (admitted : c.Admitted f.directives) :
      Selects c ss f below
  | inline {ss inner : SelectionSet} {i : InlineFragment} {f : Field} {below : Option SelectionSet}
      (mem : .inline i inner ∈ ss.selections) (admitted : c.Admitted i.directives)
      (rest : Selects c inner f below) : Selects c ss f below
  | spread {ss : SelectionSet} {s : FragmentSpread} {g : FragmentDefinition} {f : Field}
      {below : Option SelectionSet} (mem : .spread s ∈ ss.selections)
      (admitted : c.Admitted s.directives) (fragment : c.document.fragment? s.name.text = some g)
      (rest : Selects c g.selectionSet f below) : Selects c ss f below

lemma selects_of_reaches (h : c.Reaches parent ss (.field f below)) (hf : c.Admitted f.directives) :
    c.Selects ss f below := by
  obtain ⟨first, hfirst, b, b', hmeets⟩ := h
  generalize htarget : Selection.field f below = target at hmeets
  induction hmeets generalizing ss with
  | refl b sel => exact .field (htarget ▸ hfirst) hf
  | @inside b b₁ b' sel sel₁ sel' inner next isInner mem rest ih =>
    cases sel with
    | field g under => simp [walker] at next
    | spread s => simp [Selection.inner?] at isInner
    | inline i inner' =>
      obtain rfl := Option.some.inj isInner
      have hadmits : (c.admits i.pos i.directives).1 = true := by
        by_contra hnot
        simp [hnot] at next
      exact .inline hfirst (admits_iff.mp hadmits) (ih mem htarget)
  | @spread b b₁ b₂ b' s g sel₁ sel' next fragment body mem rest ih =>
    have hadmits : (c.admits s.pos s.directives).1 = true := by
      by_contra hnot
      simp [hnot] at next
    exact .spread hfirst (admits_iff.mp hadmits) fragment (ih mem htarget)

end SelectionContext

end GraphQL
