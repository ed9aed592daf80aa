import GraphQL.Proofs.Document.Unplaced
import GraphQL.Proofs.Execution.Level

/-!
What the fields of one response key have in common.

Selecting the fields of an operation merges those of one response key, level by level. At every level that
it comes to, all of them are one field of the schema, with the same arguments.
-/

namespace GraphQL

/-! ### The same arguments -/

namespace OperationContext

variable {c : OperationContext} {declared : List InputSpec} {args : List Argument} {path : Path}
  {owner : String}

lemma supplied_nodup {seen : List (String × Pos)}
    (h : Silent (c.suppliedFindings path owner declared seen args)) :
    (args.map (·.name.text)).Nodup ∧ ∀ a ∈ args, seen.lookup a.name.text = none := by
  induction args generalizing seen with
  | nil => exact ⟨List.nodup_nil, by simp⟩
  | cons a args ih =>
    rw [suppliedFindings, Silent.append_iff] at h
    obtain ⟨hhere, hrest⟩ := h
    obtain ⟨hnodup, hseen⟩ := ih hrest
    have hother : ∀ b ∈ args, b.name.text ≠ a.name.text ∧ seen.lookup b.name.text = none := by
      intro b hb
      have hlookup := hseen b hb
      by_cases heq : b.name.text = a.name.text
      · simp [heq] at hlookup
      · exact ⟨heq, by rwa [lookup_cons_of_ne heq] at hlookup⟩
    refine ⟨?_, List.forall_mem_cons.mpr ⟨?_, fun b hb => (hother b hb).2⟩⟩
    · refine List.nodup_cons.mpr ⟨fun hmem => ?_, hnodup⟩
      obtain ⟨b, hb, heq⟩ := List.mem_map.mp hmem
      exact (hother b hb).1 heq
    · cases hlookup : seen.lookup a.name.text with
      | none => rfl
      | some first =>
        rw [hlookup] at hhere
        exact absurd hhere Silent.not_problem

/-- No argument is supplied twice. -/
lemma AcceptsArguments.nodup (h : c.AcceptsArguments declared args) :
    (args.map (·.name.text)).Nodup := by
  obtain ⟨path, owner, p, hsilent⟩ := h
  exact (supplied_nodup (Silent.append_iff.mp hsilent).1).1

end OperationContext

namespace MergeContext

variable {c : MergeContext} {f g : Field} {x y : SelectedOn}

lemma argument?_eq_none {args : List Argument} {name : String} :
    Argument.find? args name = none ↔ name ∉ args.map (·.name.text) := by
  rw [Argument.find?, List.find?_eq_none, List.mem_map]
  simp

/-- What the check takes for the same arguments are the same, if no name is repeated. -/
lemma sameArguments_of_check (hf : (f.arguments.map (·.name.text)).Nodup)
    (h : sameArguments f g = true) :
    SameArguments f.arguments g.arguments := by
  obtain ⟨hlength, hall⟩ := Bool.and_eq_true_iff.mp h
  rw [beq_iff_eq] at hlength
  rw [List.all_eq_true] at hall
  have hvalue : ∀ a ∈ f.arguments, ∃ b, g.argument? a.name.text = some b ∧
      a.value.isEquivalent b.value = true := by
    intro a ha
    have hmatch := hall a ha
    cases hb : g.argument? a.name.text with
    | none => simp [hb] at hmatch
    | some b => exact ⟨b, rfl, by simpa [hb] using hmatch⟩
  have hsubset : f.arguments.map (·.name.text) ⊆ g.arguments.map (·.name.text) := by
    intro name hname
    obtain ⟨a, ha, rfl⟩ := List.mem_map.mp hname
    obtain ⟨b, hb, -⟩ := hvalue a ha
    by_contra hnot
    simp [Field.argument?, argument?_eq_none.mpr hnot] at hb
  have hnames : (f.arguments.map (·.name.text)).Perm (g.arguments.map (·.name.text)) :=
    (List.subperm_of_subset hf hsubset).perm_of_length_le (by simp [hlength])
  intro name
  cases hname : Argument.find? f.arguments name with
  | none =>
    have hnot := argument?_eq_none.mp hname
    rw [hnames.mem_iff] at hnot
    rw [argument?_eq_none.mpr hnot]
    exact .none
  | some a =>
    obtain ⟨b, hb, hequivalent⟩ := hvalue a (List.mem_of_find?_eq_some hname)
    have htext : a.name.text = name := by simpa using List.find?_some hname
    rw [htext, Field.argument?] at hb
    rw [hb]
    exact .some hequivalent

lemma Merges.sameArguments (h : c.Merges false x y) (hp : x.parent = y.parent) :
    MergeContext.sameArguments x.field y.field = true := by
  obtain ⟨hown, -⟩ := merges_iff.mp h
  rw [areExclusive_of_eq hp] at hown
  by_contra hne
  unfold ownConflict at hown
  dsimp only at hown
  split at hown
  · simp at hown
  · simp [Bool.eq_false_of_not_eq_true hne] at hown

/-- Fields that agree have the same arguments, if neither repeats one. -/
lemma Agree.sameArguments (h : c.Agree x y) (hp : x.parent = y.parent)
    (hx : (x.field.arguments.map (·.name.text)).Nodup)
    (hy : (y.field.arguments.map (·.name.text)).Nodup) :
    SameArguments x.field.arguments y.field.arguments := by
  rcases h with rfl | h | h
  · exact .refl _
  · exact sameArguments_of_check hx (h.sameArguments hp)
  · exact (sameArguments_of_check hy (h.sameArguments hp.symm)).symm

end MergeContext

/-! ### Levels -/

namespace SelectionContext

/-- Where the fields of some selection sets are merged, and what is merged below them: a type, and the
selection sets whose fields are selected on it. -/
inductive ComesTo (c : SelectionContext) (root : TypeId) (sets : List SelectionSet) :
    TypeId → List SelectionSet → Prop where
  | start : ComesTo c root sets root sets
  | next {parent : TypeId} {inner : List SelectionSet} {key : String} {first : Field}
      {under : Option SelectionSet} {rest : List (Field × Option SelectionSet)} {spec : FieldSpec}
      (level : ComesTo c root sets parent inner)
      (group : (key, (first, under) :: rest) ∈
        groupByKey (·.1.responseKey) (c.collectedFields parent inner))
      (known : c.schema.field? parent first.name.text = some spec)
      (composite : c.schema.isComposite spec.type = true) :
      ComesTo c root sets (c.schema.registry.innermost spec.type)
        (((first, under) :: rest).filterMap (·.2))

end SelectionContext

namespace OperationContext

namespace Level

variable {c : OperationContext} {k : Nat} {root parent : TypeId} {sets inner : List SelectionSet}
  {source : List Char} {vars : Variables} {key : String} {f g : Field}
  {below under : Option SelectionSet} {group : List (Field × Option SelectionSet)}

/-- Everything that is merged is merged at a level. -/
lemma comesTo (hl : c.Level k root sets) (hfit : c.FragmentsFit)
    (hends : ∀ g ∈ c.document.fragments, c.document.Ends g.name.text)
    (h : (c.selecting source vars).ComesTo root sets parent inner) : ∃ m, c.Level m parent inner := by
  induction h with
  | start => exact ⟨k, hl⟩
  | @next parent inner key first under rest spec level group known composite ih =>
    obtain ⟨m, hm⟩ := ih
    obtain ⟨hgroup, -⟩ := mem_groupByKey.mp group
    have hmem : (first, under) ∈ membersOf (·.1.responseKey) key
        ((c.selecting source vars).collectedFields parent inner) := hgroup ▸ List.mem_cons_self
    obtain ⟨hfirst, rfl⟩ := mem_membersOf.mp hmem
    obtain ⟨n, -, hn⟩ := hm.next hfit hends hfirst known composite
    rw [setsBelow, ← hgroup] at hn
    exact ⟨n, hn⟩

/-- The fields of one response key have the same name and the same arguments. -/
theorem same (hl : c.Level k parent sets) (hfit : c.FragmentsFit)
    (h : (f, below) ∈ (c.selecting source vars).collectedFields parent sets)
    (h' : (g, under) ∈ (c.selecting source vars).collectedFields parent sets)
    (hkey : f.responseKey = g.responseKey) :
    f.name.text = g.name.text ∧ SameArguments f.arguments g.arguments := by
  refine ⟨hl.name_eq hfit h h' hkey, ?_⟩
  obtain ⟨-, spec, hfield⟩ := (hl.collected hfit h).1.field
  obtain ⟨-, spec', hfield'⟩ := (hl.collected hfit h').1.field
  exact (hl.fields_agree hfit h h' hkey).sameArguments rfl hfield.arguments.nodup
    hfield'.arguments.nodup

/-- The members of a group have the same name and the same arguments. -/
lemma group_same (hl : c.Level k parent sets) (hfit : c.FragmentsFit)
    (h : (key, group) ∈
      groupByKey (·.1.responseKey) ((c.selecting source vars).collectedFields parent sets)) :
    ∀ x ∈ group, ∀ y ∈ group,
      x.1.name.text = y.1.name.text ∧ SameArguments x.1.arguments y.1.arguments := by
  obtain ⟨rfl, -⟩ := mem_groupByKey.mp h
  rintro ⟨f, below⟩ hx ⟨g, under⟩ hy
  obtain ⟨hf, hfkey⟩ := mem_membersOf.mp hx
  obtain ⟨hg, hgkey⟩ := mem_membersOf.mp hy
  exact hl.same hfit hf hg (hfkey.trans hgkey.symm)

end Level

end OperationContext

end GraphQL
