import GraphQL.Proofs.Document.Parts
import GraphQL.Proofs.Document.Spread
import GraphQL.Validation.Merge

/-!
The fields that the check for conflicts finds in a selection set.

They are those that can be reached through fragments, each with the type that it is selected on. All
pairs of them with one response key are compared.
-/

namespace GraphQL

namespace Document

variable {d : Document} {ss below : SelectionSet} {sel : Selection} {f : Field}

/-- The selections are written in the document. -/
def HasSet (d : Document) (ss : SelectionSet) : Prop := ∀ p ∈ ss.parts, p ∈ d.parts

namespace HasSet

lemma set_mem (h : d.HasSet ss) : .set ss ∈ d.parts := by
  refine h _ ?_
  cases ss with
  | mk sels p =>
    rw [SelectionSet.parts]
    exact List.mem_cons_self

lemma part (h : d.HasSet ss) (hsel : sel ∈ ss.selections) : ∀ p ∈ sel.parts, p ∈ d.parts := by
  cases ss with
  | mk sels p =>
    intro q hq
    refine h q ?_
    rw [SelectionSet.parts, partsOfAll_eq]
    exact List.mem_cons_of_mem _ (List.mem_flatMap.mpr ⟨sel, hsel, hq⟩)

lemma field_mem {under : Option SelectionSet} (h : d.HasSet ss)
    (hf : .field f under ∈ ss.selections) : .field f under ∈ d.parts := by
  refine h.part hf _ ?_
  cases under with
  | none => exact List.mem_singleton_self _
  | some below =>
    rw [Selection.parts]
    exact List.mem_cons_self

lemma field (h : d.HasSet ss) (hf : .field f (some below) ∈ ss.selections) : d.HasSet below := by
  refine fun p hp => h.part hf p ?_
  rw [Selection.parts]
  exact List.mem_cons_of_mem _ hp

lemma inline {i : InlineFragment} (h : d.HasSet ss) (hi : .inline i below ∈ ss.selections) :
    d.HasSet below := by
  refine fun p hp => h.part hi p ?_
  rwa [Selection.parts]

lemma operation {op : OperationDefinition} (h : op ∈ d.operations) : d.HasSet op.selectionSet := by
  obtain ⟨e, he, hop⟩ := List.mem_filterMap.mp h
  cases e with
  | operation o =>
    obtain rfl := Option.some.inj hop
    exact fun p hp => List.mem_flatMap.mpr ⟨_, he, hp⟩
  | fragment _ => simp [Definition.operation?] at hop
  | type _ => simp [Definition.operation?] at hop

lemma fragment {g : FragmentDefinition} (h : g ∈ d.fragments) : d.HasSet g.selectionSet := by
  obtain ⟨e, he, hg⟩ := List.mem_filterMap.mp h
  cases e with
  | fragment o =>
    obtain rfl := Option.some.inj hg
    exact fun p hp => List.mem_flatMap.mpr ⟨_, he, hp⟩
  | operation _ => simp [Definition.fragment?] at hg
  | type _ => simp [Definition.fragment?] at hg

end HasSet

end Document

namespace MergeContext

variable {c : MergeContext} {parent t : TypeId} {ss : SelectionSet} {a b : SelectedOn}

/-! ### The fields of a selection set -/

/-- The walk that finds the fields of a selection set. -/
def walker (c : MergeContext) : Walker SelectedOn TypeId where
  own parent
    | .field f below => [⟨parent, f, below, c.schema.field? parent f.name.text⟩]
    | _ => []
  next parent
    | .field .. => none
    | .spread _ => some parent
    | .inline i _ => c.inlineType parent i
  body _ f := c.schema.typeId? f.typeCondition.text

@[simp] lemma walker_own_spread (s : FragmentSpread) : c.walker.own parent (.spread s) = [] := rfl

@[simp] lemma walker_own_inline (i : InlineFragment) (below : SelectionSet) :
    c.walker.own parent (.inline i below) = [] := rfl

@[simp] lemma walker_next_field (f : Field) (below : Option SelectionSet) :
    c.walker.next parent (.field f below) = none := rfl

@[simp] lemma walker_next_spread (s : FragmentSpread) :
    c.walker.next parent (.spread s) = some parent := rfl

@[simp] lemma walker_next_inline (i : InlineFragment) (below : SelectionSet) :
    c.walker.next parent (.inline i below) = c.inlineType parent i := rfl

@[simp] lemma walker_body (f : FragmentDefinition) :
    c.walker.body parent f = c.schema.typeId? f.typeCondition.text := rfl

lemma spreadFields_eq (enter : TypeId → FragmentDefinition → Walk SelectedOn) (parent : TypeId)
    (name : String) :
    c.spreadFields enter name = c.walker.enter c.document enter parent name := by
  unfold spreadFields Walker.enter
  cases c.document.fragment? name with
  | none => rfl
  | some f =>
    simp only [walker_body]
    cases c.schema.typeId? f.typeCondition.text <;> rfl

mutual

lemma selectionFields_eq (enter : TypeId → FragmentDefinition → Walk SelectedOn) (parent : TypeId) :
    ∀ sel : Selection, c.selectionFields enter parent sel
      = c.walker.selection (c.walker.enter c.document enter) parent sel
  | .field f none => rfl
  | .field f (some below) => rfl
  | .spread s => by
    rw [selectionFields, Walker.selection, Walker.step, walker_own_spread, Walk.emit_nil_append,
      walker_next_spread]
    exact spreadFields_eq enter parent s.name.text
  | .inline i below => by
    rw [selectionFields, Walker.selection, Walker.step, walker_own_inline, Walk.emit_nil_append,
      walker_next_inline]
    cases c.inlineType parent i with
    | none => rfl
    | some t => exact selectionSetFields_eq enter t below

lemma selectionSetFields_eq (enter : TypeId → FragmentDefinition → Walk SelectedOn)
    (parent : TypeId) : ∀ ss : SelectionSet, c.selectionSetFields enter parent ss
      = c.walker.selectionSet (c.walker.enter c.document enter) parent ss
  | .mk sels _ => by
    rw [selectionSetFields, Walker.selectionSet]
    exact selectionsFields_eq enter parent sels

lemma selectionsFields_eq (enter : TypeId → FragmentDefinition → Walk SelectedOn)
    (parent : TypeId) : ∀ sels : List Selection, c.selectionsFields enter parent sels
      = c.walker.selections (c.walker.enter c.document enter) parent sels
  | [] => rfl
  | sel :: sels => by
    rw [selectionsFields, Walker.selections, selectionFields_eq enter parent sel,
      selectionsFields_eq enter parent sels]

end

lemma fragmentFields_eq (c : MergeContext) (steps : Nat) :
    c.fragmentFields steps = c.walker.bodyWalk c.document steps := by
  induction steps with
  | zero => rfl
  | succ steps ih =>
    funext t f
    rw [fragmentFields, Walker.bodyWalk, ← ih]
    exact selectionSetFields_eq _ t f.selectionSet

/-- The fields of a selection set, with all fragments looked through. -/
def fieldsOf (c : MergeContext) (parent : TypeId) (ss : SelectionSet) : List SelectedOn :=
  (c.selectionSetFields (c.fragmentFields c.document.fragments.length) parent ss).found

lemma fieldGroups_eq (parent : TypeId) (ss : SelectionSet) :
    c.fieldGroups parent ss = groupByKey (·.field.responseKey) (c.fieldsOf parent ss) := rfl

lemma mem_fieldsOf : a ∈ c.fieldsOf parent ss ↔
    ∃ sel ∈ ss.selections, c.walker.Meets c.document parent sel a.parent (.field a.field a.below) ∧
      a.spec = c.schema.field? a.parent a.field.name.text := by
  have hwalk : c.fieldsOf parent ss = (c.walker.walk c.document parent ss.selections).found := by
    cases ss with
    | mk sels p => rw [fieldsOf, selectionSetFields_eq, fragmentFields_eq]; rfl
  rw [hwalk, Walker.mem_walk_found fun _ _ _ => rfl]
  constructor
  · rintro ⟨sel, hsel, t, sel', hmeets, ha⟩
    cases sel' with
    | field f below =>
      obtain rfl := List.mem_singleton.mp ha
      exact ⟨sel, hsel, hmeets, rfl⟩
    | spread s => simp [walker] at ha
    | inline i below => simp [walker] at ha
  · rintro ⟨sel, hsel, hmeets, hspec⟩
    refine ⟨sel, hsel, a.parent, _, hmeets, List.mem_singleton.mpr ?_⟩
    rw [← hspec]

/-! ### Where the fields stand -/

/-- A field of the document, with what the schema says of it. -/
structure Written (c : MergeContext) (a : SelectedOn) : Prop where
  mem : .field a.field a.below ∈ c.document.parts
  spec : a.spec = c.schema.field? a.parent a.field.name.text
  below : ∀ ss, a.below = some ss → c.document.HasSet ss

/-- A written field, below which fields nest less than `k` deep. -/
structure Within (c : MergeContext) (k : Nat) (a : SelectedOn) : Prop where
  written : c.Written a
  nests : ∃ m, k = m + 1 ∧ ∀ ss, a.below = some ss → c.document.Nests m ss

variable {k : Nat}

/-- What holds of a selection set and is kept behind spreads and inside of inline fragments holds
wherever a field is found. -/
lemma fieldsOf_induct {P : SelectionSet → Prop} (hss : P ss)
    (hinline : ∀ ss i below, P ss → .inline i below ∈ ss.selections → P below)
    (hspread : ∀ ss s f, P ss → .spread s ∈ ss.selections →
      c.document.fragment? s.name.text = some f → P f.selectionSet)
    (ha : a ∈ c.fieldsOf parent ss) : ∃ ss', P ss' ∧ .field a.field a.below ∈ ss'.selections := by
  obtain ⟨sel, hsel, hmeets, -⟩ := mem_fieldsOf.mp ha
  clear ha
  generalize htarget : Selection.field a.field a.below = target at hmeets
  generalize a.parent = t at hmeets
  induction hmeets generalizing ss with
  | refl t sel => exact ⟨ss, hss, htarget ▸ hsel⟩
  | @inside t t₁ t' sel sel₁ sel' inner next isInner mem rest ih =>
    cases sel with
    | field f below => simp [walker] at next
    | spread s => simp [Selection.inner?] at isInner
    | inline i below =>
      obtain rfl := Option.some.inj isInner
      exact ih (hinline ss i _ hss hsel) mem htarget
  | spread next fragment body mem rest ih => exact ih (hspread ss _ _ hss hsel fragment) mem htarget

lemma written_of_mem (hss : c.document.HasSet ss) (ha : a ∈ c.fieldsOf parent ss) : c.Written a := by
  obtain ⟨ss', hss', hmem⟩ := fieldsOf_induct hss (fun _ _ _ h hi => h.inline hi)
    (fun _ _ _ _ _ hf => .fragment (Document.fragment?_mem hf)) ha
  obtain ⟨-, -, -, hspec⟩ := mem_fieldsOf.mp ha
  exact ⟨hss'.field_mem hmem, hspec, fun below hbelow => hss'.field (hbelow ▸ hmem)⟩

lemma within_of_mem (hends : ∀ f ∈ c.document.fragments, c.document.Ends f.name.text)
    (hss : c.document.HasSet ss) (hk : c.document.Nests k ss) (ha : a ∈ c.fieldsOf parent ss) :
    c.Within k a := by
  refine ⟨written_of_mem hss ha, ?_⟩
  obtain ⟨ss', hss', hmem⟩ := fieldsOf_induct hk (fun _ _ _ h hi => h.inline hi)
    (fun _ _ _ h hs hf => h.spread hends hs hf) ha
  cases hbelow : a.below with
  | none =>
    obtain ⟨m, rfl⟩ := hss'.leaf (hbelow ▸ hmem)
    exact ⟨m, rfl, by simp⟩
  | some below =>
    obtain ⟨m, rfl, hm⟩ := hss'.field (hbelow ▸ hmem)
    refine ⟨m, rfl, fun ss h => ?_⟩
    rwa [← Option.some.inj h]

/-- A field is known by its place and the type that it is selected on. -/
lemma Written.eq_of_pos (hd : (c.document.parts.map (·.pos)).Nodup) (ha : c.Written a)
    (hb : c.Written b) (hpos : a.field.pos = b.field.pos) (hparent : a.parent = b.parent) :
    a = b := by
  have hpart := List.inj_on_of_nodup_map hd ha.mem hb.mem hpos
  obtain ⟨p, f, under, spec⟩ := a
  obtain ⟨q, g, under', spec'⟩ := b
  obtain ⟨rfl, rfl⟩ := Part.field.inj hpart
  obtain rfl : p = q := hparent
  obtain rfl : spec = spec' := ha.spec.trans hb.spec.symm
  rfl

/-! ### Pairs of fields -/

variable {as bs : List SelectedOn}

lemma mem_pairsWithin {key : String} :
    (key, a, b) ∈ pairsWithin (groupByKey (·.field.responseKey) as) ↔
      ∃ i j : Nat, i < j ∧ (membersOf (·.field.responseKey) key as)[i]? = some a ∧
        (membersOf (·.field.responseKey) key as)[j]? = some b := by
  unfold pairsWithin
  simp only [List.mem_flatMap, List.mem_map, Prod.mk.injEq, Prod.exists]
  constructor
  · rintro ⟨k, group, hgroup, x, y, ⟨x', n, hx, z, hz, rfl, rfl⟩, rfl, rfl, rfl⟩
    obtain ⟨rfl, -⟩ := mem_groupByKey.mp hgroup
    obtain ⟨m, hm⟩ := List.getElem?_of_mem hz
    refine ⟨n, n + 1 + m, by omega, List.mem_zipIdx_iff_getElem?.mp hx, ?_⟩
    rwa [List.getElem?_drop] at hm
  · rintro ⟨i, j, hij, ha, hb⟩
    have hne : membersOf (·.field.responseKey) key as ≠ [] := by
      intro hnil
      simp [hnil] at ha
    refine ⟨key, _, mem_groupByKey.mpr ⟨rfl, hne⟩, a, b, ⟨a, i, ?_, b, ?_, rfl, rfl⟩, rfl, rfl, rfl⟩
    · exact List.mem_zipIdx_iff_getElem?.mpr ha
    · refine List.mem_of_getElem? (i := j - (i + 1)) ?_
      rw [List.getElem?_drop, show i + 1 + (j - (i + 1)) = j by omega]
      exact hb

/-- Two fields of one key are compared in one order, unless they are one field. -/
lemma pairsWithin_total (ha : a ∈ as) (hb : b ∈ as)
    (hkey : a.field.responseKey = b.field.responseKey) :
    a = b ∨ (a.field.responseKey, a, b) ∈ pairsWithin (groupByKey (·.field.responseKey) as) ∨
      (a.field.responseKey, b, a) ∈ pairsWithin (groupByKey (·.field.responseKey) as) := by
  obtain ⟨i, hi⟩ := List.getElem?_of_mem (mem_membersOf.mpr ⟨ha, rfl⟩ :
    a ∈ membersOf (·.field.responseKey) a.field.responseKey as)
  obtain ⟨j, hj⟩ := List.getElem?_of_mem (mem_membersOf.mpr ⟨hb, hkey.symm⟩ :
    b ∈ membersOf (·.field.responseKey) a.field.responseKey as)
  rcases lt_trichotomy i j with hij | rfl | hij
  · exact .inr (.inl (mem_pairsWithin.mpr ⟨i, j, hij, hi, hj⟩))
  · exact .inl (Option.some.inj (hi.symm.trans hj))
  · exact .inr (.inr (mem_pairsWithin.mpr ⟨j, i, hij, hj, hi⟩))

lemma mem_of_mem_pairsWithin {key : String}
    (h : (key, a, b) ∈ pairsWithin (groupByKey (·.field.responseKey) as)) : a ∈ as ∧ b ∈ as := by
  obtain ⟨i, j, -, ha, hb⟩ := mem_pairsWithin.mp h
  exact ⟨(mem_membersOf.mp (List.mem_of_getElem? ha)).1, (mem_membersOf.mp (List.mem_of_getElem? hb)).1⟩

lemma mem_pairsAcross {key : String} :
    (key, a, b) ∈ pairsAcross (groupByKey (·.field.responseKey) as)
        (groupByKey (·.field.responseKey) bs) ↔
      (a ∈ as ∧ a.field.responseKey = key) ∧ b ∈ bs ∧ b.field.responseKey = key := by
  unfold pairsAcross
  simp only [List.mem_flatMap, List.mem_map, Prod.mk.injEq, Prod.exists, lookup_groupByKey]
  constructor
  · rintro ⟨k, group, hgroup, x, hx, y, hy, rfl, rfl, rfl⟩
    obtain ⟨rfl, -⟩ := mem_groupByKey.mp hgroup
    refine ⟨mem_membersOf.mp hx, ?_⟩
    split at hy
    · simp at hy
    · exact mem_membersOf.mp hy
  · rintro ⟨ha, hb⟩
    have ha : a ∈ membersOf (·.field.responseKey) key as := mem_membersOf.mpr ha
    have hb : b ∈ membersOf (·.field.responseKey) key bs := mem_membersOf.mpr hb
    refine ⟨key, _, mem_groupByKey.mpr ⟨rfl, List.ne_nil_of_mem ha⟩, a, ha, b, ?_, rfl, rfl, rfl⟩
    rwa [if_neg (List.ne_nil_of_mem hb)]

end MergeContext

end GraphQL
