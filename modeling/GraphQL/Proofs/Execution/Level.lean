import GraphQL.Proofs.Execution.Collect
import GraphQL.Proofs.Validation.Merge
import GraphQL.Proofs.Validation.Arguments

/-!
The selection sets that are merged at one level of an accepted operation.

All their selections are accepted on one type, and fields with one response key agree. So these fields
have one declaration, and what stands below them is again a level, on one type and with fields that
agree.
-/

namespace GraphQL

namespace MergeContext

variable {c : MergeContext} {parent t : TypeId} {ss ss' : SelectionSet} {x y : SelectedOn}

/-- Two fields are one, or have been compared in one order or the other. -/
def Agree (c : MergeContext) (x y : SelectedOn) : Prop :=
  x = y ∨ c.Merges false x y ∨ c.Merges false y x

/-- All fields of two selection sets that have the same key agree. -/
def SetsAgree (c : MergeContext) (parent : TypeId) (ss ss' : SelectionSet) : Prop :=
  ∀ x ∈ c.fieldsOf parent ss, ∀ y ∈ c.fieldsOf parent ss',
    x.field.responseKey = y.field.responseKey → c.Agree x y

lemma MergesAll.setsAgree (h : c.MergesAll parent ss) : c.SetsAgree parent ss ss := by
  intro x hx y hy hkey
  have hown := h.own.1
  rw [fieldGroups_eq] at hown
  rcases pairsWithin_total hx hy hkey with rfl | hpair | hpair
  · exact .inl rfl
  · exact .inr (.inl (hown _ x y hpair))
  · exact .inr (.inr (hown _ y x hpair))

lemma areExclusive_of_eq (h : x.parent = y.parent) : areExclusive x y = false := by
  rw [areExclusive, h, bne_self_eq_false]

lemma Merges.name (h : c.Merges false x y) (hp : x.parent = y.parent) :
    x.field.name.text = y.field.name.text := by
  obtain ⟨hown, -⟩ := merges_iff.mp h
  rw [areExclusive_of_eq hp] at hown
  by_contra hne
  simp [ownConflict, hne] at hown

lemma Agree.name (h : c.Agree x y) (hp : x.parent = y.parent) :
    x.field.name.text = y.field.name.text := by
  rcases h with rfl | h | h
  · rfl
  · exact h.name hp
  · exact (h.name hp.symm).symm

lemma Merges.below {below under : SelectionSet} (h : c.Merges false x y) (hp : x.parent = y.parent)
    (hx : c.below? x = some (t, below)) (hy : c.below? y = some (t, under)) {u v : SelectedOn}
    (hu : u ∈ c.fieldsOf t below) (hv : v ∈ c.fieldsOf t under)
    (hkey : u.field.responseKey = v.field.responseKey) : c.Merges false u v := by
  obtain ⟨-, hpairs⟩ := merges_iff.mp h
  rw [areExclusive_of_eq hp] at hpairs
  refine hpairs u.field.responseKey u v ?_
  rw [groupsBelow_eq, groupsBelow_eq, hx, hy, mem_pairsAcross]
  exact ⟨⟨hu, rfl⟩, hv, hkey.symm⟩

/-- What stands below fields that agree agrees as well. -/
lemma Agree.below {below under : SelectionSet} (h : c.Agree x y) (hp : x.parent = y.parent)
    (hx : c.below? x = some (t, below)) (hy : c.below? y = some (t, under))
    (hall : c.MergesAll t below) : c.SetsAgree t below under := by
  rcases h with rfl | h | h
  · obtain rfl := (Prod.mk.inj (Option.some.inj (hx.symm.trans hy))).2
    exact hall.setsAgree
  · exact fun u hu v hv hkey => .inr (.inl (h.below hp hx hy hu hv hkey))
  · exact fun u hu v hv hkey => .inr (.inr (h.below hp.symm hy hx hv hu hkey.symm))

end MergeContext

namespace OperationContext

variable {c : OperationContext} {parent : TypeId} {ss : SelectionSet} {sel sel' : Selection}
  {f g : Field} {below under : Option SelectionSet} {source : List Char} {vars : Variables}
  {b b' : Unit}

/-- The context in which the fields of an operation are compared. -/
def merging (c : OperationContext) : MergeContext := ⟨c.schema, c.document⟩

/-- The context in which the fields of an operation are selected. -/
def selecting (c : OperationContext) (source : List Char) (vars : Variables) : SelectionContext :=
  ⟨c.schema, c.document, source, vars⟩

/-! ### What is reached -/

/-- What is reached from an accepted selection is accepted on the same type, and has been compared
on it. -/
lemma Accepts.meets (hfit : c.FragmentsFit) (hp : parent.isNonNull = false)
    (hsel : c.Accepts parent sel)
    (h : ((c.selecting source vars).walker parent).Meets c.document b sel b' sel') :
    c.Accepts parent sel' ∧ c.merging.walker.Meets c.document parent sel parent sel' := by
  induction h with
  | refl b sel => exact ⟨hsel, .refl parent sel⟩
  | @inside b b₁ b' sel sel₁ sel' inner next isInner mem rest ih =>
    cases sel with
    | field f below => simp [SelectionContext.walker] at next
    | spread s => simp [Selection.inner?] at isInner
    | inline i inner' =>
      obtain rfl := Option.some.inj isInner
      obtain ⟨-, htype, hset⟩ := hsel.inline hp
      obtain ⟨haccepts, hmeets⟩ := ih (hset sel₁ mem)
      have hnext : c.merging.walker.next parent (.inline i inner') = some parent := by
        rw [MergeContext.walker_next_inline, MergeContext.inlineType]
        cases hcondition : i.typeCondition with
        | none => rfl
        | some n => exact htype n hcondition
      exact ⟨haccepts, .inside hnext rfl mem hmeets⟩
  | @spread b b₁ b₂ b' s g sel₁ sel' next fragment body mem rest ih =>
    obtain ⟨-, g', hg, htype, hset⟩ := hsel.spread hfit hp
    obtain rfl := Option.some.inj (hg.symm.trans fragment)
    obtain ⟨haccepts, hmeets⟩ := ih (hset sel₁ mem)
    exact ⟨haccepts, .spread (MergeContext.walker_next_spread s) fragment htype mem hmeets⟩

/-- A field as it is selected on a type. -/
def selectedOn (c : OperationContext) (parent : TypeId) (f : Field) (below : Option SelectionSet) :
    SelectedOn := ⟨parent, f, below, c.schema.field? parent f.name.text⟩

lemma AcceptsSet.reaches (hfit : c.FragmentsFit) (hp : parent.isNonNull = false)
    (hss : c.AcceptsSet parent ss) (h : (c.selecting source vars).Reaches parent ss sel) :
    c.Accepts parent sel := by
  obtain ⟨first, hfirst, b, b', hmeets⟩ := h
  exact ((hss first hfirst).meets hfit hp hmeets).1

lemma AcceptsSet.mem_fieldsOf (hfit : c.FragmentsFit) (hp : parent.isNonNull = false)
    (hss : c.AcceptsSet parent ss)
    (h : (c.selecting source vars).Reaches parent ss (.field f below)) :
    c.selectedOn parent f below ∈ c.merging.fieldsOf parent ss := by
  obtain ⟨first, hfirst, b, b', hmeets⟩ := h
  exact MergeContext.mem_fieldsOf.mpr ⟨first, hfirst, ((hss first hfirst).meets hfit hp hmeets).2, rfl⟩

lemma applies_of_typeId? (hp : parent.isNonNull = false) {condition : Option Name}
    (h : ∀ n, condition = some n → c.schema.typeId? n.text = some parent) :
    (c.selecting source vars).applies parent condition = true := by
  have hnullable : parent.nullable = parent := by rw [TypeId.nullable, ← hp]
  cases condition with
  | none => rfl
  | some n => simpa [SelectionContext.applies, selecting, hnullable] using h n rfl

/-- Nothing stands in the way of the fields that are selected. -/
lemma AcceptsSet.reaches_of_selects (hfit : c.FragmentsFit) (hp : parent.isNonNull = false)
    (hss : c.AcceptsSet parent ss) (h : (c.selecting source vars).Selects ss f below) :
    (c.selecting source vars).Reaches parent ss (.field f below) ∧
      (c.selecting source vars).Admitted f.directives := by
  induction h with
  | field mem admitted => exact ⟨⟨_, mem, (), (), .refl _ _⟩, admitted⟩
  | @inline ss inner i f below mem admitted rest ih =>
    obtain ⟨-, htype, hset⟩ := (hss _ mem).inline hp
    obtain ⟨⟨first, hfirst, b, b', hmeets⟩, hf⟩ := ih hset
    have hnext : ((c.selecting source vars).walker parent).next () (.inline i inner) = some b := by
      rw [SelectionContext.walker_next_inline, SelectionContext.admits_iff.mpr admitted,
        applies_of_typeId? hp htype]
      rfl
    exact ⟨⟨_, mem, (), b', .inside hnext rfl hfirst hmeets⟩, hf⟩
  | @spread ss s g f below mem admitted fragment rest ih =>
    obtain ⟨-, g', hg, htype, hset⟩ := (hss _ mem).spread hfit hp
    obtain rfl := Option.some.inj (hg.symm.trans fragment)
    obtain ⟨⟨first, hfirst, b, b', hmeets⟩, hf⟩ := ih hset
    have hnext : ((c.selecting source vars).walker parent).next () (.spread s) = some () := by
      rw [SelectionContext.walker_next_spread, SelectionContext.admits_iff.mpr admitted]
      rfl
    have hbody : ((c.selecting source vars).walker parent).body () g' = some b := by
      rw [SelectionContext.walker_body, applies_of_typeId? hp fun n hn => Option.some.inj hn ▸ htype]
      rfl
    exact ⟨⟨_, mem, (), b', .spread hnext fragment hbody hfirst hmeets⟩, hf⟩

/-! ### Levels -/

/-- Selection sets whose fields are selected on one type and merged, and nest at most `k` deep. -/
structure Level (c : OperationContext) (k : Nat) (parent : TypeId) (sets : List SelectionSet) :
    Prop where
  nullable : parent.isNonNull = false
  accepts : ∀ ss ∈ sets, c.AcceptsSet parent ss
  written : ∀ ss ∈ sets, c.document.HasSet ss
  nests : ∀ ss ∈ sets, c.document.Nests k ss
  merges : ∀ ss ∈ sets, c.merging.MergesAll parent ss
  agree : ∀ ss ∈ sets, ∀ ss' ∈ sets, c.merging.SetsAgree parent ss ss'

namespace Level

variable {k : Nat} {sets : List SelectionSet} {spec : FieldSpec}

/-- The fields that are collected at a level. -/
lemma collected (hl : c.Level k parent sets) (hfit : c.FragmentsFit)
    (h : (f, below) ∈ (c.selecting source vars).collectedFields parent sets) :
    c.Accepts parent (.field f below) ∧
      ∃ ss ∈ sets, c.selectedOn parent f below ∈ c.merging.fieldsOf parent ss := by
  obtain ⟨ss, hss, hreaches, -⟩ := SelectionContext.mem_collectedFields.mp h
  have haccepts := hl.accepts ss hss
  exact ⟨haccepts.reaches hfit hl.nullable hreaches, ss, hss,
    haccepts.mem_fieldsOf hfit hl.nullable hreaches⟩

lemma fields_agree (hl : c.Level k parent sets) (hfit : c.FragmentsFit)
    (h : (f, below) ∈ (c.selecting source vars).collectedFields parent sets)
    (h' : (g, under) ∈ (c.selecting source vars).collectedFields parent sets)
    (hkey : f.responseKey = g.responseKey) :
    c.merging.Agree (c.selectedOn parent f below) (c.selectedOn parent g under) := by
  obtain ⟨-, ss, hss, hmem⟩ := hl.collected hfit h
  obtain ⟨-, ss', hss', hmem'⟩ := hl.collected hfit h'
  exact hl.agree ss hss ss' hss' _ hmem _ hmem' hkey

/-- Fields with one response key are one field of the schema. -/
lemma name_eq (hl : c.Level k parent sets) (hfit : c.FragmentsFit)
    (h : (f, below) ∈ (c.selecting source vars).collectedFields parent sets)
    (h' : (g, under) ∈ (c.selecting source vars).collectedFields parent sets)
    (hkey : f.responseKey = g.responseKey) : f.name.text = g.name.text :=
  (hl.fields_agree hfit h h' hkey).name rfl

/-- The arguments of a collected field come from a text, if all those of the document do. -/
lemma arguments_isProper (hl : c.Level k parent sets) (hfit : c.FragmentsFit)
    (hparts : ∀ q ∈ c.document.parts, q.IsProper)
    (h : (f, below) ∈ (c.selecting source vars).collectedFields parent sets) :
    ∀ a ∈ f.arguments, a.value.IsProper := by
  obtain ⟨-, ss, hss, hmem⟩ := hl.collected hfit h
  exact hparts _ (MergeContext.written_of_mem (hl.written ss hss) hmem).mem

/-- The selections below a collected field. -/
lemma member {inner : SelectionSet} (hl : c.Level k parent sets) (hfit : c.FragmentsFit)
    (hends : ∀ g ∈ c.document.fragments, c.document.Ends g.name.text)
    (h : (f, some inner) ∈ (c.selecting source vars).collectedFields parent sets)
    (hspec : c.schema.field? parent f.name.text = some spec)
    (hcomposite : c.schema.isComposite spec.type = true) :
    c.AcceptsSet (c.schema.registry.innermost spec.type) inner ∧ c.document.HasSet inner ∧
      (∃ m, k = m + 1 ∧ c.document.Nests m inner) ∧
      c.merging.MergesAll (c.schema.registry.innermost spec.type) inner := by
  obtain ⟨haccepts, ss, hss, hmem⟩ := hl.collected hfit h
  obtain ⟨-, spec', hfield⟩ := haccepts.field
  obtain rfl := Option.some.inj (hfield.known.symm.trans hspec)
  obtain ⟨ss', hss', haccepted⟩ := hfield.composite hcomposite
  obtain rfl := Option.some.inj hss'
  have hwithin := MergeContext.within_of_mem (c := c.merging) hends (hl.written ss hss)
    (hl.nests ss hss) hmem
  obtain ⟨m, hk, hnests⟩ := hwithin.nests
  refine ⟨haccepted, hwithin.written.below inner rfl, ⟨m, hk, hnests inner rfl⟩, ?_⟩
  refine (hl.merges ss hss).own.2 _ hmem _ inner ?_
  simp [MergeContext.below?, selectedOn, hspec, merging]

/-- The selections below the fields of one response key. -/
def setsBelow (fields : List (Field × Option SelectionSet)) (key : String) : List SelectionSet :=
  (membersOf (·.1.responseKey) key fields).filterMap (·.2)

lemma mem_setsBelow {fields : List (Field × Option SelectionSet)} {key : String}
    {inner : SelectionSet} : inner ∈ setsBelow fields key ↔
      ∃ f, (f, some inner) ∈ fields ∧ f.responseKey = key := by
  rw [setsBelow, List.mem_filterMap]
  constructor
  · rintro ⟨⟨f, below⟩, hmem, hbelow⟩
    obtain rfl : below = some inner := hbelow
    obtain ⟨hf, hkey⟩ := mem_membersOf.mp hmem
    exact ⟨f, hf, hkey⟩
  · rintro ⟨f, hf, hkey⟩
    exact ⟨(f, some inner), mem_membersOf.mpr ⟨hf, hkey⟩, rfl⟩

/-- **The next level**: what stands below the fields of one response key is a level again. -/
theorem next (hl : c.Level k parent sets) (hfit : c.FragmentsFit)
    (hends : ∀ g ∈ c.document.fragments, c.document.Ends g.name.text)
    (h : (f, under) ∈ (c.selecting source vars).collectedFields parent sets)
    (hspec : c.schema.field? parent f.name.text = some spec)
    (hcomposite : c.schema.isComposite spec.type = true) :
    ∃ m, k = m + 1 ∧ c.Level m (c.schema.registry.innermost spec.type)
      (setsBelow ((c.selecting source vars).collectedFields parent sets) f.responseKey) := by
  have hall : ∀ inner ∈
      setsBelow ((c.selecting source vars).collectedFields parent sets) f.responseKey,
      ∃ g, (g, some inner) ∈ (c.selecting source vars).collectedFields parent sets ∧
        g.responseKey = f.responseKey ∧ c.schema.field? parent g.name.text = some spec := by
    intro inner hinner
    obtain ⟨g, hg, hkey⟩ := mem_setsBelow.mp hinner
    exact ⟨g, hg, hkey, hl.name_eq hfit h hg hkey.symm ▸ hspec⟩
  obtain ⟨-, spec', hfield⟩ := (hl.collected hfit h).1.field
  obtain rfl := Option.some.inj (hfield.known.symm.trans hspec)
  obtain ⟨own, rfl, -⟩ := hfield.composite hcomposite
  obtain ⟨-, -, ⟨m, rfl, -⟩, -⟩ := hl.member hfit hends h hspec hcomposite
  refine ⟨m, rfl, rfl, ?_, ?_, ?_, ?_, ?_⟩
  · intro inner hinner
    obtain ⟨g, hg, -, hgspec⟩ := hall inner hinner
    exact (hl.member hfit hends hg hgspec hcomposite).1
  · intro inner hinner
    obtain ⟨g, hg, -, hgspec⟩ := hall inner hinner
    exact (hl.member hfit hends hg hgspec hcomposite).2.1
  · intro inner hinner
    obtain ⟨g, hg, -, hgspec⟩ := hall inner hinner
    obtain ⟨n, hn, hnests⟩ := (hl.member hfit hends hg hgspec hcomposite).2.2.1
    obtain rfl : n = m := by omega
    exact hnests
  · intro inner hinner
    obtain ⟨g, hg, -, hgspec⟩ := hall inner hinner
    exact (hl.member hfit hends hg hgspec hcomposite).2.2.2
  · intro inner hinner inner' hinner'
    obtain ⟨g, hg, hkey, hgspec⟩ := hall inner hinner
    obtain ⟨g', hg', hkey', hgspec'⟩ := hall inner' hinner'
    have hagree := hl.fields_agree hfit hg hg' (hkey.trans hkey'.symm)
    refine hagree.below rfl ?_ ?_ (hl.member hfit hends hg hgspec hcomposite).2.2.2
    · simp [MergeContext.below?, selectedOn, hgspec, merging]
    · simp [MergeContext.below?, selectedOn, hgspec', merging]

end Level

end OperationContext

end GraphQL
