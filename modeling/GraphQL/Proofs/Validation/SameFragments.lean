import GraphQL.Proofs.Validation.Ending
import GraphQL.Proofs.Validation.Inspection

/-!
What a check takes from the document.

An operation is checked against the schema and the fragments of its document. The rest of the document,
other operations and the order of all definitions, has no say in what is found in the operation.
-/

namespace GraphQL

/-- Documents with the same fragments, wherever they stand. -/
structure Document.SameFragments (d d' : Document) : Prop where
  fragment? : ∀ name, d.fragment? name = d'.fragment? name
  length : d.fragments.length = d'.fragments.length

namespace Document.SameFragments

variable {d d' : Document}

lemma symm (h : d.SameFragments d') : d'.SameFragments d :=
  ⟨fun name => (h.fragment? name).symm, h.length.symm⟩

/-- Fragments that have different names can stand in any order. -/
lemma of_perm (h : d.fragments.Perm d'.fragments) (hd : (d.fragments.map (·.name.text)).Nodup) :
    d.SameFragments d' := by
  have hd' : (d'.fragments.map (·.name.text)).Nodup := (h.map _).nodup_iff.mp hd
  have hiff {e : Document} (he : (e.fragments.map (·.name.text)).Nodup) (name : String)
      (f : FragmentDefinition) : e.fragment? name = some f ↔ f ∈ e.fragments ∧ f.name.text = name := by
    constructor
    · exact fun hf => ⟨fragment?_mem hf, fragment?_name hf⟩
    · rintro ⟨hf, rfl⟩
      exact fragment?_of_mem he hf
  refine ⟨fun name => Option.ext fun f => ?_, h.length_eq⟩
  rw [hiff hd, hiff hd', h.mem_iff]

lemma uses (h : d.SameFragments d') : d.Uses = d'.Uses := by
  funext a b
  simp only [Uses, h.fragment?]

end Document.SameFragments

/-! ### Walks -/

namespace Walker

variable {α β : Type} {w : Walker α β} {d d' : Document}

lemma enter_sameFragments (h : d.SameFragments d') (body : β → FragmentDefinition → Walk α) :
    w.enter d body = w.enter d' body := by
  funext b name
  rw [enter, enter, h.fragment?]

lemma bodyWalk_sameFragments (h : d.SameFragments d') (steps : Nat) :
    w.bodyWalk d steps = w.bodyWalk d' steps := by
  induction steps with
  | zero => rfl
  | succ steps ih => rw [bodyWalk, bodyWalk, ih, enter_sameFragments h]

lemma walk_sameFragments (h : d.SameFragments d') (b : β) (sels : List Selection) :
    w.walk d b sels = w.walk d' b sels := by
  rw [walk, walk, bodyWalk_sameFragments h, enter_sameFragments h, h.length]

end Walker

/-! ### The walk through an operation -/

namespace OperationContext

variable {c : OperationContext} {path : Path} {parent t : TypeId} {d d' : Document} {s : Schema}
  {op : OperationDefinition}

/-- The same check in another document. -/
def inDocument (c : OperationContext) (d' : Document) : OperationContext := { c with document := d' }

mutual

lemma literalFindings_inDocument (path : Path) : ∀ (t : TypeId) (hasDefault : Bool) (v : Literal),
    (c.inDocument d').literalFindings path t hasDefault v = c.literalFindings path t hasDefault v
  | _, _, .null _ => by rw [literalFindings, literalFindings]
  | _, _, .var name p => by
    rw [literalFindings, literalFindings]
    rfl
  | _, _, .scalar .. => by rw [literalFindings, literalFindings]
  | t, _, .list items p => by
    rw [literalFindings, literalFindings]
    cases h : c.schema.element? t with
    | some e => simp only [inDocument, h]; exact itemFindings_inDocument path e items
    | none => simp only [inDocument, h]
  | t, _, .object fields _ => by
    rw [literalFindings, literalFindings]
    exact fieldFindings_inDocument path _ fields

lemma itemFindings_inDocument (path : Path) : ∀ (t : TypeId) (vs : List Literal),
    (c.inDocument d').itemFindings path t vs = c.itemFindings path t vs
  | _, [] => by rw [itemFindings, itemFindings]
  | t, v :: vs => by
    rw [itemFindings, itemFindings, literalFindings_inDocument path t false v,
      itemFindings_inDocument path t vs]

lemma fieldFindings_inDocument (path : Path) : ∀ (declared : List InputSpec)
    (fields : List (Name × Literal)),
    (c.inDocument d').fieldFindings path declared fields = c.fieldFindings path declared fields
  | _, [] => by rw [fieldFindings, fieldFindings]
  | declared, (n, v) :: fs => by
    rw [fieldFindings, fieldFindings, fieldFindings_inDocument path declared fs]
    congr 1
    split
    · exact literalFindings_inDocument path _ _ v
    · rfl

end

lemma valueFindings_inDocument (i : InputSpec) (v : Literal) :
    (c.inDocument d').valueFindings path i v = c.valueFindings path i v := by
  rw [valueFindings, valueFindings, literalFindings_inDocument]
  rfl

lemma suppliedFindings_inDocument (owner : String) (declared : List InputSpec)
    (seen : List (String × Pos)) (args : List Argument) :
    (c.inDocument d').suppliedFindings path owner declared seen args
      = c.suppliedFindings path owner declared seen args := by
  induction args generalizing seen with
  | nil => rfl
  | cons a args ih =>
    rw [suppliedFindings, suppliedFindings, ih]
    simp only [valueFindings_inDocument]

lemma argumentFindings_inDocument (owner : String) (pos : Pos) (declared : List InputSpec)
    (args : List Argument) :
    (c.inDocument d').argumentFindings path owner pos declared args
      = c.argumentFindings path owner pos declared args := by
  rw [argumentFindings, argumentFindings, suppliedFindings_inDocument]
  rfl

lemma directiveFindings_inDocument (location : DirectiveLocation) (ds : List Directive) :
    (c.inDocument d').directiveFindings path location ds = c.directiveFindings path location ds := by
  rw [directiveFindings, directiveFindings]
  simp only [argumentFindings_inDocument]
  rfl

/-- The walk through an operation asks the document for its fragments only. -/
lemma walker_inDocument (h : c.document.SameFragments d') : (c.inDocument d').walker = c.walker := by
  have hfield (path : Path) (t : TypeId) (f : Field) (below : Option SelectionSet) :
      (c.inDocument d').fieldFindingsAt path t f below = c.fieldFindingsAt path t f below := by
    unfold fieldFindingsAt
    simp only [directiveFindings_inDocument, argumentFindings_inDocument]
    rfl
  have hspread (path : Path) (t : TypeId) (u : FragmentSpread) :
      (c.inDocument d').spreadFindings path t u = c.spreadFindings path t u := by
    unfold spreadFindings
    rw [directiveFindings_inDocument, h.fragment?]
    rfl
  have hinline (path : Path) (t : TypeId) (i : InlineFragment) :
      (c.inDocument d').inlineFindings path t i = c.inlineFindings path t i := by
    unfold inlineFindings
    rw [directiveFindings_inDocument]
    rfl
  have hnext (u : FragmentSpread) : (c.inDocument d').document.fragment? u.name.text
      = c.document.fragment? u.name.text := (h.fragment? u.name.text).symm
  unfold walker
  simp only [hfield, hspread, hinline, hnext]
  rfl

lemma rootFindings_inDocument (h : c.document.SameFragments d') (root : TypeId) :
    (c.inDocument d').rootFindings root = c.rootFindings root := by
  rw [rootFindings_eq, rootFindings_eq, walker_inDocument h]
  exact congrArg Walk.found (Walker.walk_sameFragments h.symm _ _)

lemma declareAll_inDocument (d' : Document) (ds : List VariableDefinition) :
    (c.inDocument d').declareAll ds = ((c.declareAll ds).1.inDocument d', (c.declareAll ds).2) := by
  induction ds generalizing c with
  | nil => rfl
  | cons v ds ih =>
    rw [declareAll, declareAll, directiveFindings_inDocument]
    cases hv : c.declared? v.name.text with
    | some first =>
      have hv' : (c.inDocument d').declared? v.name.text = some first := hv
      simp only [hv', ih]
    | none =>
      have hv' : (c.inDocument d').declared? v.name.text = none := hv
      have hrest := ih (c := { c with declared := c.declared ++ [⟨v, (c.declare v).1⟩] })
      simp only [hv']
      exact congrArg (fun r : OperationContext × List Finding =>
        (r.1, c.directiveFindings [] .variableDefinition v.directives ++ (c.declare v).2 ++ r.2)) hrest

lemma declaredBy_inDocument (d d' : Document) :
    declaredBy s d' op = (declaredBy s d op).inDocument d' := by
  have h := declareAll_inDocument (c := ⟨s, d, op, []⟩) d' op.variableDefinitions
  exact congrArg Prod.fst h

lemma headFindings_eq (d d' : Document) : headFindings s d op = headFindings s d' op := by
  have h := declareAll_inDocument (c := ⟨s, d, op, []⟩) d' op.variableDefinitions
  unfold headFindings
  rw [declaredBy_inDocument d d', directiveFindings_inDocument]
  exact congrArg (· ++ _ ++ _) (congrArg Prod.snd h).symm

/-- **An operation is walked through alike** in all documents with the same fragments. -/
lemma operationFindings_sameFragments (h : d.SameFragments d') :
    operationFindings s d op = operationFindings s d' op := by
  by_cases hroot : ∃ root, s.executableRoot op.type = .ok root
  · obtain ⟨root, hroot⟩ := hroot
    have hfindings : (declaredBy s d' op).rootFindings root = (declaredBy s d op).rootFindings root := by
      rw [declaredBy_inDocument d d', rootFindings_inDocument (by rwa [declaredBy_document])]
    rw [operationFindings_of_root hroot, operationFindings_of_root hroot, headFindings_eq d d',
      hfindings, declaredBy_inDocument d d']
    rfl
  · rw [operationFindings_of_no_root (not_exists.mp hroot),
      operationFindings_of_no_root (not_exists.mp hroot), headFindings_eq d d']

end OperationContext

/-! ### Conflicts -/

namespace MergeContext

variable {s : Schema} {d d' : Document} {parent : TypeId} {ss : SelectionSet} {a b : SelectedOn}
  {exclusive : Bool} {k k' steps steps' : Nat}

lemma fieldsOf_sameFragments (h : d.SameFragments d') (parent : TypeId) (ss : SelectionSet) :
    (MergeContext.mk s d).fieldsOf parent ss = (MergeContext.mk s d').fieldsOf parent ss := by
  unfold fieldsOf
  rw [selectionSetFields_eq, selectionSetFields_eq, fragmentFields_eq, fragmentFields_eq,
    Walker.enter_sameFragments h, Walker.bodyWalk_sameFragments h, h.length]
  rfl

lemma fieldGroups_sameFragments (h : d.SameFragments d') (parent : TypeId) (ss : SelectionSet) :
    (MergeContext.mk s d).fieldGroups parent ss = (MergeContext.mk s d').fieldGroups parent ss := by
  rw [fieldGroups_eq, fieldGroups_eq, fieldsOf_sameFragments h]

lemma groupsBelow_sameFragments (h : d.SameFragments d') (a : SelectedOn) :
    (MergeContext.mk s d).groupsBelow a = (MergeContext.mk s d').groupsBelow a := by
  unfold groupsBelow
  split
  · exact fieldGroups_sameFragments h _ _
  · rfl

/-- Two fields are compared alike. -/
lemma compareOnce_sameFragments (h : d.SameFragments d') :
    (MergeContext.mk s d).compareOnce steps exclusive a b
      = (MergeContext.mk s d').compareOnce steps exclusive a b := by
  induction steps generalizing exclusive a b with
  | zero => rfl
  | succ steps ih =>
    have hwith : (MergeContext.mk s d).compareWith ((MergeContext.mk s d).compareOnce steps) exclusive a b
        = (MergeContext.mk s d').compareWith ((MergeContext.mk s d').compareOnce steps) exclusive a b := by
      have hcompare : (MergeContext.mk s d).compareOnce steps = (MergeContext.mk s d').compareOnce steps := by
        funext exclusive a b
        exact ih
      unfold compareWith
      rw [hcompare, groupsBelow_sameFragments h a, groupsBelow_sameFragments h b]
      rfl
    rw [compareOnce, compareOnce, hwith]

/-- Two fields are compared alike, as far down as each of the documents makes the comparison look. -/
lemma compareOnce_maxLevels (h : d.SameFragments d') (exclusive : Bool)
    (hends : ∀ f ∈ d.fragments, d.Ends f.name.text) (hends' : ∀ f ∈ d'.fragments, d'.Ends f.name.text)
    (ha : (MergeContext.mk s d).Within k a) (hb : (MergeContext.mk s d).Written b)
    (ha' : (MergeContext.mk s d').Within k' a) (hb' : (MergeContext.mk s d').Written b)
    (hmax : k ≤ d.maxLevels) (hmax' : k' ≤ d'.maxLevels) :
    (MergeContext.mk s d).compareOnce (d.maxLevels + 1) exclusive a b
      = (MergeContext.mk s d').compareOnce (d'.maxLevels + 1) exclusive a b :=
  calc (MergeContext.mk s d).compareOnce (d.maxLevels + 1) exclusive a b
      = (MergeContext.mk s d).compareOnce (d.maxLevels + d'.maxLevels) exclusive a b :=
        compareOnce_stable hends ha hb (by omega) (by omega)
    _ = (MergeContext.mk s d').compareOnce (d.maxLevels + d'.maxLevels) exclusive a b :=
        compareOnce_sameFragments h
    _ = (MergeContext.mk s d').compareOnce (d'.maxLevels + 1) exclusive a b :=
        compareOnce_stable hends' ha' hb' (by omega) (by omega)

/-- A selection set is checked alike, however many levels are looked at in each of the documents. -/
lemma checkOnce_sameFragments (h : d.SameFragments d')
    (hends : ∀ f ∈ d.fragments, d.Ends f.name.text) (hends' : ∀ f ∈ d'.fragments, d'.Ends f.name.text)
    (hss : d.HasSet ss) (hss' : d'.HasSet ss) (hnests : d.Nests k ss) (hnests' : d'.Nests k' ss)
    (hk : k < steps) (hk' : k' < steps') (hmax : k ≤ d.maxLevels) (hmax' : k' ≤ d'.maxLevels) :
    (MergeContext.mk s d).checkOnce steps parent ss
      = (MergeContext.mk s d').checkOnce steps' parent ss := by
  induction k using Nat.strong_induction_on generalizing parent ss steps steps' k' with
  | _ k ih =>
    obtain ⟨n, rfl⟩ := Nat.exists_eq_succ_of_ne_zero (Nat.ne_of_gt (Nat.zero_lt_of_lt hk))
    obtain ⟨n', rfl⟩ := Nat.exists_eq_succ_of_ne_zero (Nat.ne_of_gt (Nat.zero_lt_of_lt hk'))
    have hown : (MergeContext.mk s d).compareOwn parent ss
        = (MergeContext.mk s d').compareOwn parent ss := by
      rw [compareOwn, compareOwn, fieldGroups_sameFragments h]
      refine mapM_congr fun p hp => ?_
      obtain ⟨ha', hb'⟩ := mem_of_mem_pairsWithin hp
      have ha : p.2.1 ∈ (MergeContext.mk s d).fieldsOf parent ss :=
        (fieldsOf_sameFragments h parent ss).symm ▸ ha'
      have hb : p.2.2 ∈ (MergeContext.mk s d).fieldsOf parent ss :=
        (fieldsOf_sameFragments h parent ss).symm ▸ hb'
      have hcompare := compareOnce_maxLevels h false hends hends'
        (within_of_mem hends hss hnests ha) (written_of_mem hss hb)
        (within_of_mem hends' hss' hnests' ha') (written_of_mem hss' hb') hmax hmax'
      exact congrArg (fun m => do return (← m).map (conflictProblem p.1)) hcompare
    have hbelow : (MergeContext.mk s d).checkBelow n parent ss
        = (MergeContext.mk s d').checkBelow n' parent ss := by
      rw [checkBelow, checkBelow, fieldGroups_sameFragments h, mapM_congr]
      intro a hmem
      have ha' : a ∈ (MergeContext.mk s d').fieldsOf parent ss := mem_groups_members.mp hmem
      have ha : a ∈ (MergeContext.mk s d).fieldsOf parent ss :=
        (fieldsOf_sameFragments h parent ss).symm ▸ ha'
      have hsame : (MergeContext.mk s d').below? a = (MergeContext.mk s d).below? a := rfl
      rw [hsame]
      cases hunder : (MergeContext.mk s d).below? a with
      | none => rfl
      | some p =>
        obtain ⟨m, rfl, hset, hm⟩ := nests_below hends hss hnests ha hunder
        obtain ⟨m', rfl, hset', hm'⟩ := nests_below hends' hss' hnests' ha' (hsame.trans hunder)
        exact ih m (Nat.lt_succ_self m) hset hset' hm hm' (by omega) (by omega) (by omega) (by omega)
    funext memo
    refine (checkOnce_succ _ n parent ss memo).trans (Eq.trans ?_ (checkOnce_succ _ n' parent ss memo).symm)
    rw [checkSet, checkSet, hown, hbelow]

end MergeContext

/-- **The fields of an operation are compared alike** in all documents with the same fragments. -/
lemma mergeProblems_sameFragments {s : Schema} {d d' : Document} {op : OperationDefinition}
    (h : d.SameFragments d') (hends : ∀ f ∈ d.fragments, d.Ends f.name.text)
    (hends' : ∀ f ∈ d'.fragments, d'.Ends f.name.text) (hop : op ∈ d.operations)
    (hop' : op ∈ d'.operations) : mergeProblems s d op = mergeProblems s d' op := by
  unfold mergeProblems
  dsimp only
  split
  · rfl
  · rfl
  · exact congrArg (fun m => (StateT.run m MergeContext.MergeMemo.empty).1)
      (MergeContext.checkOnce_sameFragments h hends hends' (.operation hop) (.operation hop')
        (Document.nests_operation hop) (Document.nests_operation hop') (Nat.lt_succ_self _)
        (Nat.lt_succ_self _) le_rfl le_rfl)

end GraphQL
