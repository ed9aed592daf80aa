import GraphQL.Proofs.Validation.Inspection

/-!
Where the walk comes across uses of variables.

A literal is looked at altogether, whatever its type is. Of the arguments of a known field those are
looked at that are not repeated, while arguments of unknown fields and of directives are looked at in any
case. A variable counts as used in an operation if it is mentioned somewhere where the walk looks.
-/

namespace GraphQL

/-! ### Mentions -/

/-- A variable stands in a literal. -/
def Literal.Mentions (v : Literal) (name : String) : Prop := ∃ p, (name, p) ∈ v.variableUses

/-- A variable stands in the value of an argument. -/
def Argument.Mention (args : List Argument) (name : String) : Prop := ∃ a ∈ args, a.value.Mentions name

/-- A variable stands in an argument of a directive. -/
def Directive.Mention (ds : List Directive) (name : String) : Prop :=
  ∃ d ∈ ds, Argument.Mention d.arguments name

/-- The arguments of a selection itself. -/
def Selection.arguments : Selection → List Argument
  | .field f _ => f.arguments
  | .spread _ | .inline .. => []

/-- A variable stands in a selection, without those below it. -/
def Selection.Mentions (sel : Selection) (name : String) : Prop :=
  Directive.Mention sel.directives name ∨ Argument.Mention sel.arguments name

/-- A variable stands in a selection where it is looked at: the value of an argument that is repeated at a
known field is not. -/
inductive Schema.LooksAt (s : Schema) (parent : TypeId) (name : String) : Selection → Prop where
  | directive {sel : Selection} (mention : Directive.Mention sel.directives name) :
      LooksAt s parent name sel
  | argument {f : Field} {below : Option SelectionSet} {a : Argument} (mem : a ∈ f.arguments)
      (first : (s.field? parent f.name.text).isSome → f.argument? a.name.text = some a)
      (mention : a.value.Mentions name) : LooksAt s parent name (.field f below)

/-- What is looked at stands there. -/
lemma Schema.LooksAt.mentions {s : Schema} {parent : TypeId} {name : String} {sel : Selection}
    (h : s.LooksAt parent name sel) : sel.Mentions name := by
  cases h with
  | directive mention => exact .inl mention
  | argument mem _ mention => exact .inr ⟨_, mem, mention⟩

namespace OperationContext

variable {c : OperationContext} {path : Path} {parent t : TypeId} {sel : Selection} {name : String}
  {p : Problem}

/-! ### Values -/

lemma variableUse_mem_uses {v : Literal} : .variableUse name ∈ uses v ↔ v.Mentions name := by
  simp [uses, Literal.Mentions]

lemma mentions_list {v : Literal} {items : List Literal} {p : Pos} :
    (Literal.list (v :: items) p).Mentions name ↔
      v.Mentions name ∨ (Literal.list items p).Mentions name := by
  simp [Literal.Mentions, Literal.variableUses, Literal.variableUsesOfItems, exists_or]

lemma mentions_object {n : Name} {v : Literal} {fields : List (Name × Literal)} {p : Pos} :
    (Literal.object ((n, v) :: fields) p).Mentions name ↔
      v.Mentions name ∨ (Literal.object fields p).Mentions name := by
  simp [Literal.Mentions, Literal.variableUses, Literal.variableUsesOfFields, exists_or]

mutual

/-- Whatever types its parts have, all variables of a literal are found. -/
lemma variableUse_mem_literalFindings (path : Path) : ∀ (t : TypeId) (hasDefault : Bool) (v : Literal),
    .variableUse name ∈ c.literalFindings path t hasDefault v ↔ v.Mentions name
  | _, _, .null _ => by simp [literalFindings, Literal.Mentions, Literal.variableUses]
  | t, b, .var n p => by
    have hproblem : Finding.variableUse name ∉
        ((c.variableProblem path t b n p).map Finding.problem).toList := by simp
    simp [literalFindings, hproblem, Literal.Mentions, Literal.variableUses]
  | _, _, .scalar .. => by simp [literalFindings, Literal.Mentions, Literal.variableUses]
  | t, _, .list items p => by
    rw [literalFindings]
    split
    · exact variableUse_mem_itemFindings path _ items p
    · exact variableUse_mem_uses
  | t, _, .object fields p => by
    rw [literalFindings]
    exact variableUse_mem_fieldFindings path _ fields p

lemma variableUse_mem_itemFindings (path : Path) : ∀ (t : TypeId) (vs : List Literal) (p : Pos),
    .variableUse name ∈ c.itemFindings path t vs ↔ (Literal.list vs p).Mentions name
  | _, [], p => by
    simp [itemFindings, Literal.Mentions, Literal.variableUses, Literal.variableUsesOfItems]
  | t, v :: vs, p => by
    rw [itemFindings, List.mem_append, mentions_list, variableUse_mem_literalFindings path t false v,
      variableUse_mem_itemFindings path t vs p]

lemma variableUse_mem_fieldFindings (path : Path) : ∀ (declared : List InputSpec)
    (fields : List (Name × Literal)) (p : Pos),
    .variableUse name ∈ c.fieldFindings path declared fields ↔ (Literal.object fields p).Mentions name
  | _, [], p => by
    simp [fieldFindings, Literal.Mentions, Literal.variableUses, Literal.variableUsesOfFields]
  | declared, (n, v) :: fs, p => by
    rw [fieldFindings, List.mem_append, mentions_object, variableUse_mem_fieldFindings path declared fs p]
    split
    · rw [variableUse_mem_literalFindings path _ _ v]
    · rw [variableUse_mem_uses]

end

lemma variableUse_mem_valueFindings {d : InputSpec} {v : Literal} :
    .variableUse name ∈ c.valueFindings path d v ↔ v.Mentions name := by
  rw [valueFindings, List.mem_append, variableUse_mem_literalFindings]
  simp

/-! ### Arguments and directives -/

lemma variableUse_mem_argumentUses {args : List Argument} :
    .variableUse name ∈ argumentUses args ↔ Argument.Mention args name := by
  rw [argumentUses, List.mem_flatMap]
  exact exists_congr fun a => and_congr_right fun _ => variableUse_mem_uses

/-- What is come across at one supplied argument. -/
def suppliedAt (c : OperationContext) (path : Path) (owner : String) (declared : List InputSpec)
    (seen : List (String × Pos)) (a : Argument) : List Finding :=
  match seen.lookup a.name.text with
  | some first => [.problem ⟨.duplicateArgument a.name.text, [first, a.pos], path⟩]
  | none =>
    match declared.find? fun d => d.name == a.name.text with
    | some d => c.valueFindings path d a.value
    | none => uses a.value ++ [.problem ⟨.unknownArgument a.name.text owner, [a.pos], path⟩]

lemma suppliedFindings_cons {owner : String} {declared : List InputSpec} {seen : List (String × Pos)}
    {a : Argument} {args : List Argument} :
    c.suppliedFindings path owner declared seen (a :: args)
      = c.suppliedAt path owner declared seen a
        ++ c.suppliedFindings path owner declared ((a.name.text, a.pos) :: seen) args := rfl

lemma variableUse_mem_suppliedAt {owner : String} {declared : List InputSpec}
    {seen : List (String × Pos)} {a : Argument} :
    .variableUse name ∈ c.suppliedAt path owner declared seen a ↔
      seen.lookup a.name.text = none ∧ a.value.Mentions name := by
  unfold suppliedAt
  cases seen.lookup a.name.text with
  | some first => simp
  | none =>
    cases declared.find? fun d => d.name == a.name.text with
    | some d => simp [variableUse_mem_valueFindings]
    | none => simp [variableUse_mem_uses]

lemma find?_cons {a : Argument} {args : List Argument} :
    Argument.find? (a :: args) name
      = if a.name.text = name then some a else Argument.find? args name := by
  by_cases h : a.name.text = name <;> simp [Argument.find?, h]

/-- Of several arguments with one name the first is looked at, unless it was supplied before. -/
lemma variableUse_mem_suppliedFindings {owner : String} {declared : List InputSpec}
    {seen : List (String × Pos)} {args : List Argument} :
    .variableUse name ∈ c.suppliedFindings path owner declared seen args ↔
      ∃ a, seen.lookup a.name.text = none ∧ Argument.find? args a.name.text = some a ∧
        a.value.Mentions name := by
  induction args generalizing seen with
  | nil => simp [suppliedFindings, Argument.find?]
  | cons b args ih =>
    rw [suppliedFindings_cons, List.mem_append, variableUse_mem_suppliedAt, ih]
    constructor
    · rintro (⟨hseen, hmention⟩ | ⟨a, hseen, hfind, hmention⟩)
      · exact ⟨b, hseen, by rw [find?_cons, if_pos rfl], hmention⟩
      · rw [List.lookup_cons] at hseen
        split at hseen
        · cases hseen
        · rename_i hne
          refine ⟨a, hseen, ?_, hmention⟩
          rw [find?_cons, if_neg (Ne.symm (beq_eq_false_iff_ne.mp hne))]
          exact hfind
    · rintro ⟨a, hseen, hfind, hmention⟩
      rw [find?_cons] at hfind
      split at hfind
      · obtain rfl := Option.some.inj hfind
        exact .inl ⟨hseen, hmention⟩
      · rename_i hne
        refine .inr ⟨a, ?_, hfind, hmention⟩
        rw [List.lookup_cons, beq_false_of_ne (Ne.symm hne)]
        exact hseen

lemma variableUse_mem_argumentFindings {owner : String} {pos : Pos} {declared : List InputSpec}
    {args : List Argument} : .variableUse name ∈ c.argumentFindings path owner pos declared args ↔
      ∃ a, Argument.find? args a.name.text = some a ∧ a.value.Mentions name := by
  rw [argumentFindings, List.mem_append, variableUse_mem_suppliedFindings]
  simp

end OperationContext

/-- A directive that may stand at a place is one of those that stand there. -/
lemma Schema.mem_of_placed {s : Schema} {location : DirectiveLocation} {ds : List Directive}
    {d : PlacedDirective} (h : d ∈ s.placedDirectives location ds) : d.directive ∈ ds := by
  suffices hall : ∀ seen, .ok d ∈ s.placeDirectives location seen ds → d.directive ∈ ds by
    obtain ⟨r, hr, hd⟩ := List.mem_filterMap.mp h
    cases r with
    | error q => simp at hd
    | ok _ => exact hall [] (Option.some.inj hd ▸ hr)
  clear h
  induction ds with
  | nil => simp [placeDirectives]
  | cons x ds ih =>
    intro seen hd
    rw [placeDirectives] at hd
    split at hd
    · exact List.mem_cons_of_mem x (ih seen (by simpa using hd))
    · split at hd
      · exact List.mem_cons_of_mem x (ih seen (by simpa using hd))
      · rcases List.mem_cons.mp hd with heq | hd
        · split at heq
          · cases heq
          · obtain rfl := Except.ok.inj heq
            exact List.mem_cons_self
        · exact List.mem_cons_of_mem x (ih _ hd)

namespace OperationContext

variable {c : OperationContext} {path : Path} {parent t : TypeId} {sel : Selection} {name : String}

/-- Directives are looked at wherever they stand, with all their arguments. -/
lemma variableUse_mem_directiveFindings {location : DirectiveLocation} {ds : List Directive} :
    .variableUse name ∈ c.directiveFindings path location ds ↔ Directive.Mention ds name := by
  have huses : .variableUse name ∈ ds.flatMap (fun d => argumentUses d.arguments) ↔
      Directive.Mention ds name := by
    rw [List.mem_flatMap]
    exact exists_congr fun d => and_congr_right fun _ => variableUse_mem_argumentUses
  rw [directiveFindings, List.mem_append, List.mem_append, huses]
  refine ⟨?_, fun h => .inl (.inl h)⟩
  rintro ((h | h) | h)
  · exact h
  · simp at h
  · obtain ⟨d, hd, h⟩ := List.mem_flatMap.mp h
    obtain ⟨a, ha, hmention⟩ := variableUse_mem_argumentFindings.mp h
    exact ⟨d.directive, Schema.mem_of_placed hd, a, List.mem_of_find?_eq_some ha, hmention⟩

/-! ### Selections -/

lemma variableUse_mem_fieldFindingsAt {f : Field} {below : Option SelectionSet} :
    .variableUse name ∈ c.fieldFindingsAt path t f below ↔
      Directive.Mention f.directives name ∨ ∃ a ∈ f.arguments,
        ((c.schema.field? t f.name.text).isSome → f.argument? a.name.text = some a) ∧
          a.value.Mentions name := by
  rw [fieldFindingsAt, List.mem_append, variableUse_mem_directiveFindings]
  refine or_congr_right ?_
  cases c.schema.field? t f.name.text with
  | none =>
    rw [List.mem_append, variableUse_mem_argumentUses]
    simp [Argument.Mention]
  | some spec =>
    have hbelow : Finding.variableUse name ∉
        c.belowFindings (path ++ [.key f.responseKey]) f spec.type below := by
      unfold belowFindings
      dsimp only
      split
      · split <;> simp
      · simp
    rw [List.mem_append, variableUse_mem_argumentFindings, or_iff_left hbelow]
    refine exists_congr fun a => ?_
    constructor
    · rintro ⟨hfind, hmention⟩
      exact ⟨List.mem_of_find?_eq_some hfind, fun _ => hfind, hmention⟩
    · rintro ⟨-, hfind, hmention⟩
      exact ⟨hfind rfl, hmention⟩

lemma variableUse_not_mem_impossibleSpread {fragment : Option String} {pos : Pos} :
    .variableUse name ∉ c.impossibleSpread fragment parent t pos := by
  unfold impossibleSpread
  split <;> simp

lemma variableUse_mem_spreadFindings {u : FragmentSpread} :
    .variableUse name ∈ c.spreadFindings path t u ↔ Directive.Mention u.directives name := by
  rw [spreadFindings, List.mem_append, variableUse_mem_directiveFindings]
  refine or_iff_left ?_
  split
  · simp
  · rw [List.mem_append, not_or]
    refine ⟨by simp, ?_⟩
    split
    · simp
    · exact variableUse_not_mem_impossibleSpread

lemma variableUse_mem_inlineFindings {i : InlineFragment} :
    .variableUse name ∈ c.inlineFindings path t i ↔ Directive.Mention i.directives name := by
  rw [inlineFindings, List.mem_append, variableUse_mem_directiveFindings]
  refine or_iff_left ?_
  cases hi : i.typeCondition with
  | none => simp [inlineType, hi]
  | some n =>
    cases ht : c.schema.typeId? n.text with
    | none => simp [inlineType, hi, ht]
    | some u =>
      by_cases hcomposite : c.schema.isComposite u = true
      · simpa [inlineType, hi, ht, hcomposite] using variableUse_not_mem_impossibleSpread
      · simp [inlineType, hi, ht, hcomposite]

/-- A use of a variable is found where it is looked at. -/
lemma variableUse_mem_own : .variableUse name ∈ c.walker.own (path, t) sel ↔
    c.schema.LooksAt t name sel := by
  cases sel with
  | field f below =>
    rw [walker_own_field, variableUse_mem_fieldFindingsAt]
    constructor
    · rintro (h | ⟨a, ha, hfirst, hmention⟩)
      · exact .directive h
      · exact .argument ha hfirst hmention
    · intro h
      cases h with
      | directive mention => exact .inl mention
      | argument mem first mention => exact .inr ⟨_, mem, first, mention⟩
  | spread sp =>
    rw [walker_own_spread, variableUse_mem_spreadFindings]
    refine ⟨fun h => .directive h, fun h => ?_⟩
    cases h with
    | directive mention => exact mention
  | inline i below =>
    rw [walker_own_inline, variableUse_mem_inlineFindings]
    refine ⟨fun h => .directive h, fun h => ?_⟩
    cases h with
    | directive mention => exact mention

end OperationContext

end GraphQL
