import GraphQL.Proofs.Document.Expanded
import GraphQL.Proofs.Execution.Ending
import GraphQL.Proofs.Restates
import GraphQL.Proofs.Sample
import GraphQL.Proofs.Validation.FragmentCycle

/-!
Selecting fields where the bodies of fragments stand in place of their uses.

A walk enters a fragment once at each level, while its body may stand there many times. What the other ones
hold are fields that came before, so that the groups of fields are the same and only say some things again.
-/

namespace GraphQL

open Relation (ReflTransGen TransGen)

namespace SelectionContext

variable {c : SelectionContext} {parent : TypeId} {enter : FragmentDefinition → Walk Collected} {p : Pos}
  {ds : List Directive} {name : String}

mutual

/-- The fields that a selection has on objects of a type, with no look into the fragments that it uses. -/
def ownFields (c : SelectionContext) (parent : TypeId) : Selection → List (Field × Option SelectionSet)
  | .field f below => if (c.admits f.pos f.directives).1 then [(f, below)] else []
  | .spread _ => []
  | .inline i below =>
    if (c.admits i.pos i.directives).1 then
      if c.applies parent i.typeCondition then ownFieldsOfSet c parent below else []
    else []

def ownFieldsOfSet (c : SelectionContext) (parent : TypeId) : SelectionSet → List (Field × Option SelectionSet)
  | .mk selections _ => ownFieldsOfAll c parent selections

def ownFieldsOfAll (c : SelectionContext) (parent : TypeId) : List Selection → List (Field × Option SelectionSet)
  | [] => []
  | s :: ss => ownFields c parent s ++ ownFieldsOfAll c parent ss

end

/-- The fields of a walk. -/
def fieldsOf (found : List Collected) : List (Field × Option SelectionSet) := found.filterMap (·.field?)

@[simp] lemma fieldsOf_append (xs ys : List Collected) : fieldsOf (xs ++ ys) = fieldsOf xs ++ fieldsOf ys :=
  List.filterMap_append

@[simp] lemma fieldsOf_errors (es : List ResponseError) : fieldsOf (es.map .error) = [] := by
  simp [fieldsOf, Collected.field?]

/-! ### The expanded document -/

/-- The same selections in the expanded document. -/
def expanded (c : SelectionContext) : SelectionContext := { c with document := c.document.expanded }

lemma admits_expanded (c : SelectionContext) (p : Pos) (ds : List Directive) :
    (c.expanded.admits p ds).1 = (c.admits p ds).1 := by
  have hiff : (c.expanded.admits p ds).1 = true ↔ (c.admits p ds).1 = true := by
    rw [admits_iff, admits_iff]
    exact Iff.rfl
  exact Bool.eq_iff_iff.mpr hiff

mutual

lemma ownFields_expanded (c : SelectionContext) (parent : TypeId) : ∀ sel : Selection,
    c.expanded.ownFields parent sel = c.ownFields parent sel
  | .field f below => by rw [ownFields, ownFields, admits_expanded]
  | .spread _ => rfl
  | .inline i below => by
    rw [ownFields, ownFields, admits_expanded, ownFieldsOfSet_expanded c parent below]
    rfl

lemma ownFieldsOfSet_expanded (c : SelectionContext) (parent : TypeId) : ∀ ss : SelectionSet,
    c.expanded.ownFieldsOfSet parent ss = c.ownFieldsOfSet parent ss
  | .mk sels _ => ownFieldsOfAll_expanded c parent sels

lemma ownFieldsOfAll_expanded (c : SelectionContext) (parent : TypeId) : ∀ sels : List Selection,
    c.expanded.ownFieldsOfAll parent sels = c.ownFieldsOfAll parent sels
  | [] => rfl
  | sel :: sels => by
    rw [ownFieldsOfAll, ownFieldsOfAll, ownFields_expanded c parent sel, ownFieldsOfAll_expanded c parent sels]

end

/-- A walk that comes across these fields, wherever it starts. -/
def Yields (w : Walk Collected) (fields : List (Field × Option SelectionSet)) : Prop :=
  ∀ entered, fieldsOf (w entered).1 = fields

lemma Yields.append {w w' : Walk Collected} {fields fields' : List (Field × Option SelectionSet)}
    (h : Yields w fields) (h' : Yields w' fields') : Yields (w ++ w') (fields ++ fields') := by
  intro entered
  rw [Walk.append_apply, fieldsOf_append, h, h']

lemma Yields.guarded {w : Walk Collected} {fields : List (Field × Option SelectionSet)} (h : Yields w fields) :
    Yields (c.guarded p ds w) (if (c.admits p ds).1 then fields else []) := by
  intro entered
  rw [guarded_eq, Walk.append_apply, fieldsOf_append, Walk.emit_apply, fieldsOf_errors, List.nil_append]
  split
  · exact h _
  · rfl

/-! Without fragments, a walk comes across the fields themselves. -/

mutual

lemma selectionWalk_yields (c : SelectionContext) (parent : TypeId) : ∀ sel : Selection,
    (∀ s ∈ sel.spreads, c.document.fragment? s.name.text = none) →
      Yields (c.selectionWalk enter parent sel) (c.ownFields parent sel)
  | .field f below, _ => by
    rw [selectionWalk, ownFields]
    exact Yields.guarded fun _ => rfl
  | .spread s, h => by
    have hnone := h s (List.mem_singleton_self s)
    have hidle : Yields (c.spreadWalk enter parent s.name.text) [] := by
      intro entered
      rw [spreadWalk, hnone, Walk.once]
      split <;> rfl
    rw [selectionWalk, ownFields]
    have hguarded : Yields (c.guarded s.pos s.directives (c.spreadWalk enter parent s.name.text)) _ := hidle.guarded
    simpa using hguarded
  | .inline i below, h => by
    have hbelow : Yields (if c.applies parent i.typeCondition then c.selectionSetWalk enter parent below
        else Walk.emit []) (if c.applies parent i.typeCondition then c.ownFieldsOfSet parent below else []) := by
      split
      · exact selectionSetWalk_yields c parent below h
      · exact fun _ => rfl
    rw [selectionWalk, ownFields]
    exact hbelow.guarded

lemma selectionSetWalk_yields (c : SelectionContext) (parent : TypeId) : ∀ ss : SelectionSet,
    (∀ s ∈ ss.spreads, c.document.fragment? s.name.text = none) →
      Yields (c.selectionSetWalk enter parent ss) (c.ownFieldsOfSet parent ss)
  | .mk sels _, h => by
    rw [selectionSetWalk, ownFieldsOfSet]
    exact selectionsWalk_yields c parent sels h

lemma selectionsWalk_yields (c : SelectionContext) (parent : TypeId) : ∀ sels : List Selection,
    (∀ s ∈ spreadsOfAll sels, c.document.fragment? s.name.text = none) →
      Yields (c.selectionsWalk enter parent sels) (c.ownFieldsOfAll parent sels)
  | [], _ => fun _ => rfl
  | sel :: sels, h => by
    rw [spreadsOfAll, List.forall_mem_append] at h
    rw [selectionsWalk, ownFieldsOfAll]
    exact (selectionWalk_yields c parent sel h.1).append (selectionsWalk_yields c parent sels h.2)

end

/-! ### Walks that enter fragments -/

/-- A field with the bodies of fragments below it. -/
def expandField (c : SelectionContext) (f : Field × Option SelectionSet) : Field × Option SelectionSet :=
  (f.1, f.2.map c.document.expand)

/-- The fields of a fragment are among others. -/
def Done (c : SelectionContext) (parent : TypeId) (before : List (Field × Option SelectionSet)) (name : String) :
    Prop :=
  ∀ f, c.document.fragment? name = some f → c.applies parent (some f.typeCondition) = true →
    c.ownFieldsOfSet parent (c.document.expand f.selectionSet) ⊆ before

lemma Done.mono {before before' : List (Field × Option SelectionSet)} (h : c.Done parent before name)
    (hsub : before ⊆ before') : c.Done parent before' name :=
  fun f hf happlies => List.Subset.trans (h f hf happlies) hsub

/-- The walk comes across the fields, without those of fragments that are done before. Fragments that it enters
are done behind it. -/
def Unfolds (c : SelectionContext) (parent : TypeId) (spreads : List FragmentSpread)
    (fields : List (Field × Option SelectionSet)) (w : Walk Collected) : Prop :=
  ∀ entered before,
    (∀ name ∈ entered, (∃ s ∈ spreads, ReflTransGen c.document.Uses s.name.text name) → c.Done parent before name) →
    Restates before ((fieldsOf (w entered).1).map c.expandField) fields ∧
      ∀ name ∈ (w entered).2, name ∈ entered ∨
        c.Done parent ((fieldsOf (w entered).1).map c.expandField ++ before) name

namespace Unfolds

variable {spreads spreads' : List FragmentSpread} {fields fields' : List (Field × Option SelectionSet)}
  {w w' : Walk Collected}

lemma emit (as : List Collected) (spreads : List FragmentSpread) :
    c.Unfolds parent spreads ((fieldsOf as).map c.expandField) (Walk.emit as) :=
  fun _ _ _ => ⟨.refl _ _, fun _ hname => .inl hname⟩

lemma append (h : c.Unfolds parent spreads fields w) (h' : c.Unfolds parent spreads' fields' w') :
    c.Unfolds parent (spreads ++ spreads') (fields ++ fields') (w ++ w') := by
  intro entered before hbefore
  obtain ⟨hfirst, hentered⟩ := h entered before fun name hname ⟨s, hs, hpath⟩ =>
    hbefore name hname ⟨s, List.mem_append_left _ hs, hpath⟩
  rw [Walk.append_apply]
  generalize w entered = run at hfirst hentered
  obtain ⟨found, later⟩ := run
  obtain ⟨hsecond, hlater⟩ := h' later ((fieldsOf found).map c.expandField ++ before) fun name hname hleads => by
    rcases hentered name hname with hname | hdone
    · obtain ⟨s, hs, hpath⟩ := hleads
      exact (hbefore name hname ⟨s, List.mem_append_right _ hs, hpath⟩).mono (List.subset_append_right _ _)
    · exact hdone
  rw [fieldsOf_append, List.map_append]
  refine ⟨hfirst.append hsecond, fun name hname => ?_⟩
  rcases hlater name hname with hname | hdone
  · exact (hentered name hname).imp_right fun hdone => hdone.mono (append_subset_of_more _ _ _)
  · exact .inr (hdone.mono (append_subset_of_behind _ _ _))

lemma guarded (h : c.Unfolds parent spreads fields w) (p : Pos) (ds : List Directive) :
    c.Unfolds parent spreads (if (c.admits p ds).1 then fields else []) (c.guarded p ds w) := by
  have herrors : c.Unfolds parent [] _ (Walk.emit ((c.admits p ds).2.map .error)) := emit _ []
  rw [fieldsOf_errors] at herrors
  rw [guarded_eq]
  split
  · exact herrors.append h
  · exact herrors.append (emit [] spreads)

/-- The first use of a fragment has its fields, and the others have none that are new. -/
lemma spread (hacyclic : ∀ name, ¬ TransGen c.document.Uses name name) {s : FragmentSpread} {f : FragmentDefinition}
    (hf : c.document.fragment? s.name.text = some f)
    (h : c.Unfolds parent f.selectionSet.spreads (c.ownFieldsOfSet parent (c.document.expand f.selectionSet))
      (enter f)) :
    c.Unfolds parent [s] (if c.applies parent (some f.typeCondition) then
      c.ownFieldsOfSet parent (c.document.expand f.selectionSet) else [])
      (c.spreadWalk enter parent s.name.text) := by
  intro entered before hbefore
  unfold spreadWalk Walk.once
  rw [hf]
  by_cases hmem : s.name.text ∈ entered
  · have hdone := hbefore _ hmem ⟨s, List.mem_singleton_self s, .refl⟩
    simp only [List.contains_eq_mem, hmem, decide_true, if_true]
    refine ⟨.of_seen fun a ha => ?_, fun name hname => .inl hname⟩
    split at ha
    · exact hdone f hf ‹_› ha
    · cases ha
  · simp only [List.contains_eq_mem, hmem, decide_false, Bool.false_eq_true, if_false]
    split
    · rename_i happlies
      obtain ⟨hfields, hentered⟩ := h (s.name.text :: entered) before fun name hname ⟨u, hu, hpath⟩ => by
        have huses : c.document.Uses s.name.text u.name.text := ⟨f, u, hf, hu, rfl⟩
        rcases List.mem_cons.mp hname with rfl | hname
        · exact absurd (TransGen.head' huses hpath) (hacyclic _)
        · exact hbefore name hname ⟨s, List.mem_singleton_self s, .head huses hpath⟩
      refine ⟨hfields, fun name hname => ?_⟩
      rcases hentered name hname with hname | hdone
      · rcases List.mem_cons.mp hname with rfl | hname
        · refine .inr fun g hg _ => ?_
          obtain rfl := Option.some.inj (hf.symm.trans hg)
          exact fun a ha => hfields.mem ha
        · exact .inl hname
      · exact .inr hdone
    · rename_i happlies
      refine ⟨.refl _ _, fun name hname => ?_⟩
      rcases List.mem_cons.mp hname with rfl | hname
      · refine .inr fun g hg hg' => ?_
        obtain rfl := Option.some.inj (hf.symm.trans hg)
        exact absurd hg' happlies
      · exact .inl hname

lemma undefined {s : FragmentSpread} (hnone : c.document.fragment? s.name.text = none) :
    c.Unfolds parent [s] [] (c.spreadWalk enter parent s.name.text) := by
  intro entered before hbefore
  unfold spreadWalk Walk.once
  rw [hnone]
  split
  · exact ⟨.nil, fun name hname => .inl hname⟩
  · refine ⟨.nil, fun name hname => ?_⟩
    rcases List.mem_cons.mp hname with rfl | hname
    · exact .inr fun g hg => by cases hnone.symm.trans hg
    · exact .inl hname

end Unfolds

/-- A use of a fragment has the fields of what stands for it in the expanded document. -/
def UnfoldsSpread (c : SelectionContext) (parent : TypeId) (enter : FragmentDefinition → Walk Collected)
    (s : FragmentSpread) : Prop :=
  c.Unfolds parent [s] (c.ownFields parent (c.document.inlined c.document.fragments.length s))
    (c.guarded s.pos s.directives (c.spreadWalk enter parent s.name.text))

mutual

lemma selectionWalk_unfolds (c : SelectionContext) (parent : TypeId) : ∀ sel : Selection,
    (∀ s ∈ sel.spreads, c.UnfoldsSpread parent enter s) → c.Unfolds parent sel.spreads
      (c.ownFields parent (sel.replaced (c.document.inlined c.document.fragments.length)))
      (c.selectionWalk enter parent sel)
  | .field f none, _ => by
    rw [selectionWalk, Selection.replaced, ownFields, Selection.spreads]
    exact (Unfolds.emit [.field f none] []).guarded _ _
  | .field f (some below), _ => by
    rw [selectionWalk, Selection.replaced, ownFields]
    exact (Unfolds.emit [.field f (some below)] _).guarded _ _
  | .spread s, h => by
    rw [selectionWalk, Selection.replaced, Selection.spreads]
    exact h s (List.mem_singleton_self s)
  | .inline i below, h => by
    rw [selectionWalk, Selection.replaced, ownFields, Selection.spreads]
    refine Unfolds.guarded ?_ _ _
    split
    · exact selectionSetWalk_unfolds c parent below h
    · exact Unfolds.emit [] _

lemma selectionSetWalk_unfolds (c : SelectionContext) (parent : TypeId) : ∀ ss : SelectionSet,
    (∀ s ∈ ss.spreads, c.UnfoldsSpread parent enter s) → c.Unfolds parent ss.spreads
      (c.ownFieldsOfSet parent (c.document.expand ss)) (c.selectionSetWalk enter parent ss)
  | .mk sels _, h => selectionsWalk_unfolds c parent sels h

lemma selectionsWalk_unfolds (c : SelectionContext) (parent : TypeId) : ∀ sels : List Selection,
    (∀ s ∈ spreadsOfAll sels, c.UnfoldsSpread parent enter s) → c.Unfolds parent (spreadsOfAll sels)
      (c.ownFieldsOfAll parent (replacedAll (c.document.inlined c.document.fragments.length) sels))
      (c.selectionsWalk enter parent sels)
  | [], _ => Unfolds.emit [] _
  | sel :: sels, h => by
    rw [spreadsOfAll, List.forall_mem_append] at h
    rw [selectionsWalk, replacedAll, ownFieldsOfAll, spreadsOfAll]
    exact (selectionWalk_unfolds c parent sel h.1).append (selectionsWalk_unfolds c parent sels h.2)

end

/-! ### One level -/

section

variable (hacyclic : ∀ name, ¬ TransGen c.document.Uses name name)

/-- A walk has a step left for each fragment that it enters. -/
lemma spreadWalk_enough (c : SelectionContext) (parent : TypeId) (name : String) :
    c.spreadWalk (c.fragmentWalk parent c.document.fragments.length) parent name
      = c.spreadWalk (c.fragmentWalk parent (c.document.fragments.length + 1)) parent name := by
  funext entered
  have hsteps := (Walker.unentered_le_of_subset (List.nil_subset entered)).trans (Walker.unentered_nil_le c.document)
  have hstable := (c.walker parent).enter_stable c.document _ 1 () name entered hsteps
  rw [← fragmentWalk_eq, ← fragmentWalk_eq] at hstable
  rw [spreadWalk_eq, spreadWalk_eq]
  exact hstable

include hacyclic

lemma unfoldsSpread (s : FragmentSpread) :
    c.UnfoldsSpread parent (c.fragmentWalk parent c.document.fragments.length) s := by
  generalize hname : s.name.text = name
  induction Document.ends_of_acyclic hacyclic name generalizing s with
  | intro name _ ih =>
    unfold UnfoldsSpread
    cases hf : c.document.fragment? s.name.text with
    | none =>
      rw [Document.inlined_undefined hf, ownFields]
      simpa using (Unfolds.undefined hf).guarded s.pos s.directives
    | some f =>
      rw [Document.inlined_eq hacyclic hf, ownFields, spreadWalk_enough]
      refine (Unfolds.spread hacyclic hf ?_).guarded _ _
      refine selectionSetWalk_unfolds c parent f.selectionSet fun u hu => ih u.name.text ?_ u rfl
      exact ⟨f, u, hname ▸ hf, hu, rfl⟩

/-- What is collected are the fields that the expanded selections have, without repeats. -/
lemma collectedFields_restates (sets : List SelectionSet) :
    Restates [] ((c.collectedFields parent sets).map c.expandField)
      ((sets.map c.document.expand).flatMap (c.ownFieldsOfSet parent)) := by
  have hwalk : c.Unfolds parent (sets.flatMap (·.spreads))
      ((sets.map c.document.expand).flatMap (c.ownFieldsOfSet parent))
      ((sets.map (c.selectionSetWalk (c.fragmentWalk parent c.document.fragments.length) parent)).foldr
        Walk.append (Walk.emit [])) := by
    induction sets with
    | nil => exact Unfolds.emit [] _
    | cons ss sets ih =>
      have hss := selectionSetWalk_unfolds c parent ss fun s _ => unfoldsSpread hacyclic s
      exact hss.append ih
  exact (hwalk [] [] (by simp)).1

lemma collectedFields_expanded {sets : List SelectionSet} (hsets : ∀ ss ∈ sets, ∃ inner, ss = c.document.expand inner) :
    c.expanded.collectedFields parent sets = sets.flatMap (c.ownFieldsOfSet parent) := by
  have hwalk : Yields ((sets.map (c.expanded.selectionSetWalk
      (c.expanded.fragmentWalk parent c.expanded.document.fragments.length) parent)).foldr
        Walk.append (Walk.emit [])) (sets.flatMap (c.ownFieldsOfSet parent)) := by
    induction sets with
    | nil => exact fun _ => rfl
    | cons ss sets ih =>
      obtain ⟨⟨inner, rfl⟩, hrest⟩ := List.forall_mem_cons.mp hsets
      rw [List.flatMap_cons, ← ownFieldsOfSet_expanded]
      refine Yields.append (selectionSetWalk_yields _ parent _ fun s hs => ?_) (ih hrest)
      rw [expanded, Document.fragment?_expanded, (Document.mem_spreads_expand hacyclic hs).1]
      rfl
  exact hwalk []

end

/-! ### All levels -/

/-- Where fields are repeated, the same one comes first, and nothing else counts but the selections below. -/
lemma mergeFields_expanded {group group' : List (Field × Option SelectionSet)} {key : String}
    {run run' : TypeId → List SelectionSet → List SelectedField × List ResponseError}
    (hgroup : Restates [] (group.map c.expandField) group')
    (hrun : ∀ t, (run' t (group'.filterMap (·.2))).1 = (run t (group.filterMap (·.2))).1) :
    (c.expanded.mergeFields run' parent key group').map (·.1) = (c.mergeFields run parent key group).map (·.1) := by
  cases group with
  | nil =>
    obtain rfl : group' = [] := List.head?_eq_none_iff.mp hgroup.head?.symm
    rfl
  | cons member rest =>
    obtain ⟨first, under⟩ := member
    obtain ⟨rest', rfl⟩ := List.head?_eq_some_iff.mp hgroup.head?.symm
    unfold mergeFields expandField
    dsimp only
    rw [Option.map_map, Option.map_map]
    refine congrArg (Option.map · _) (funext fun spec => ?_)
    rw [Function.comp_apply, Function.comp_apply]
    have hbelow := hrun (c.schema.registry.innermost spec.type)
    unfold expanded
    dsimp only
    split
    · cases c.schema.coerceArguments spec.arguments first.arguments (some c.variableValues) first.pos with
      | ok args => exact congrArg (SelectedField.object _) hbelow
      | error es => exact congrArg (SelectedField.object _) hbelow
    · cases c.schema.coerceArguments spec.arguments first.arguments (some c.variableValues) first.pos with
      | ok args => rfl
      | error es => rfl

/-- The selections of a level may be repeated when they are expanded. -/
theorem build_expanded (hacyclic : ∀ name, ¬ TransGen c.document.Uses name name) (levels : ℕ)
    {sets sets' : List SelectionSet} (hsets : Restates [] (sets.map c.document.expand) sets') :
    (c.expanded.build levels parent sets').1 = (c.build levels parent sets).1 := by
  induction levels generalizing parent sets sets' with
  | zero => rfl
  | succ levels ih =>
    have hfields : Restates [] ((c.collectedFields parent sets).map c.expandField)
        (c.expanded.collectedFields parent sets') := by
      rw [collectedFields_expanded hacyclic fun ss hss => ?_]
      · exact (collectedFields_restates hacyclic sets).trans (hsets.flatMap _)
      · obtain ⟨inner, -, rfl⟩ := List.mem_map.mp (by simpa using hsets.mem hss)
        exact ⟨inner, rfl⟩
    have hgroups : List.Forall₂ (fun g g' => g.1 = g'.1 ∧ Restates [] (g.2.map c.expandField) g'.2)
        (groupByKey (·.1.responseKey) (c.collectedFields parent sets))
        (groupByKey (·.1.responseKey) (c.expanded.collectedFields parent sets')) :=
      hfields.groupByKey fun _ => rfl
    rw [build_succ, build_succ]
    dsimp only
    unfold mergedFields
    rw [List.map_filterMap, List.map_filterMap]
    refine (forall₂_filterMap_eq hgroups fun ⟨key, group⟩ ⟨key', group'⟩ hgroup => ?_).symm
    obtain ⟨rfl, hgroup⟩ := hgroup
    refine (mergeFields_expanded hgroup fun t => ih ?_).symm
    have hbelow := hgroup.filterMap (·.2)
    rw [List.filterMap_map] at hbelow
    rw [List.map_filterMap]
    exact hbelow

/-- **Uses of fragments mean their bodies**: where no fragment leads back to itself and all that are used exist, an
inline fragment with the condition and the body of the fragment may stand for each use of one, with the
directives and at the place of that use. Then the document uses no fragments, and the same fields are selected by
each operation, at every depth, though a fragment is entered once at each level while its body stands there once
for each use. -/
theorem select_expanded {s : Schema} {d : Document} {source : List Char} {vars : Variables} {parent : TypeId}
    {op : OperationDefinition} (hacyclic : ∀ name, ¬ TransGen d.Uses name name)
    (hdefined : ∀ ss ∈ d.selectionSets, ∀ s ∈ ss.spreads, (d.fragment? s.name.text).isSome)
    (hop : op ∈ d.operations) :
    (∀ ss ∈ d.expanded.selectionSets, ss.spreads = []) ∧
      (select ⟨s, d.expanded, source, vars⟩ parent (d.expand op.selectionSet)).1
        = (select ⟨s, d, source, vars⟩ parent op.selectionSet).1 := by
  refine ⟨Document.spreads_expanded hacyclic hdefined, ?_⟩
  have hop' : { op with selectionSet := d.expand op.selectionSet } ∈ d.expanded.operations := by
    rw [Document.operations_expanded]
    exact List.mem_map_of_mem hop
  have hends := ends_operation (c := ⟨s, d, source, vars⟩)
    (fun g _ => Document.ends_of_acyclic hacyclic g.name.text) hop parent
  have hends' := ends_operation (c := ⟨s, d.expanded, source, vars⟩)
    (fun g _ => Document.ends_expanded hacyclic g.name.text) hop' parent
  rw [← hends.select d.expanded.maxLevels, ← hends'.select d.maxLevels]
  have hlevels : d.expanded.maxLevels + 1 + d.maxLevels = d.maxLevels + 1 + d.expanded.maxLevels := by omega
  rw [hlevels]
  exact build_expanded (c := ⟨s, d, source, vars⟩) hacyclic _ (.refl [] [d.expand op.selectionSet])

def namesTwice : List Char := ("\x7b pet(id: 1) \x7b ...Parts owner \x7b ...Names \x7d \x7d pet(id: 1) \x7b ...Names ...Parts \x7d \x7d "
  ++ "fragment Parts on Pet \x7b ...Names kind owner \x7b kind \x7d \x7d fragment Names on Pet \x7b id name \x7d").toList

def namesTwiceChars : { chars : List Char // namesTwice = chars } :=
  ⟨_, Sample.toList_append String.toList_ofList String.toList_ofList⟩

/-- The keys below the fields of a selection, and those below them. -/
def keysBelow (fs : List SelectedField) : List (String × List String) :=
  (fs.flatMap fun f => f.below?.getD []).map fun f => (f.call.key, (f.below?.getD []).map (·.call.key))

/-- No fragments are missing or form a cycle, and an operation selects the fields of pets in this order. -/
def selectsNames (run : Schema × Document) : Bool :=
  decide (run.2.fragments.map (·.name.text)).Nodup && run.2.cycleProblems.isEmpty
    && (run.2.selectionSets.all fun ss => ss.spreads.all fun s => (run.2.fragment? s.name.text).isSome)
    && run.2.operations.any fun op =>
      keysBelow (select ⟨run.1, run.2, namesTwice, []⟩ run.1.query op.selectionSet).1
        == [("id", []), ("name", []), ("kind", []), ("owner", ["kind", "id", "name"])]

/-- A fragment stands in the selections of a pet and in another fragment there. -/
theorem select_expanded_of_names : ∃ s d op, Schema.ofText Sample.schemaText 0 = .ok s ∧
    (Document.parse namesTwice).document? = some d ∧ op ∈ d.operations ∧
    (∀ name, ¬ TransGen d.Uses name name) ∧
    (∀ ss ∈ d.selectionSets, ∀ s ∈ ss.spreads, (d.fragment? s.name.text).isSome) ∧
    (∀ ss ∈ d.expanded.selectionSets, ss.spreads = []) ∧
    (select ⟨s, d.expanded, namesTwice, []⟩ s.query (d.expand op.selectionSet)).1
      = (select ⟨s, d, namesTwice, []⟩ s.query op.selectionSet).1 ∧
    keysBelow (select ⟨s, d.expanded, namesTwice, []⟩ s.query (d.expand op.selectionSet)).1
      = [("id", []), ("name", []), ("kind", []), ("owner", ["kind", "id", "name"])] := by
  have hrun : (Sample.readChars? Sample.schemaChars.1 namesTwiceChars.1).any selectsNames = true := by
    decide +kernel
  obtain ⟨s, d, hs, hd, hcheck⟩ := Sample.exists_of_chars Sample.schemaChars.2 namesTwiceChars.2 hrun
  simp only [selectsNames, Bool.and_eq_true, decide_eq_true_eq, List.isEmpty_iff, List.all_eq_true,
    List.any_eq_true, beq_iff_eq] at hcheck
  obtain ⟨⟨⟨hnodup, hcycles⟩, hdefined⟩, op, hop, hkeys⟩ := hcheck
  have hacyclic : ∀ name, ¬ TransGen d.Uses name name := by
    intro name hname
    exact (Document.cycleProblems_ne_nil_iff hnodup).mpr ⟨name, hname⟩ hcycles
  obtain ⟨hspreads, hselect⟩ := select_expanded (s := s) hacyclic hdefined hop
  exact ⟨s, d, op, hs, hd, hop, hacyclic, hdefined, hspreads, hselect, hselect ▸ hkeys⟩

end SelectionContext

end GraphQL
