import GraphQL.Proofs.Parser.Loop

/-!
Every parse gives account of itself.

The rules of the parser are gone through one by one. What is left then is the loop over definitions,
which reads on behind whatever went wrong.
-/

namespace GraphQL

namespace Parse

open ParseState

variable {α : Type} {env : ParseLimits} {st : ParseState}

namespace Accounted

/-! ### Values, types and directives -/

lemma variableReference_ran (place : Option ConstantPlace) {t : Token} (hhead : st.rest.head? = some t)
    (hst : st.rest.length ≤ env.tokenCount) :
    Ran env 1 st.delimiters st (variableReference place t env st) := by
  refine advance_ran (((expectName _).any.bind fun name => ?_).behind t) hhead hst
  cases place with
  | none => exact pure _
  | some place => exact (report _).bind fun _ => pure _

lemma namedValue (what : String) {v : Parse Literal} (hv : Accounted env 1 v) :
    Accounted env 1 (namedValue what v) :=
  (expectName what).bind fun _ => (discard (expect .colon)).any.bind fun _ => hv.any.bind fun _ => pure _

lemma valueWithin (place : Option ConstantPlace) (levels : Nat) :
    Accounted env 1 (valueWithin place levels) := by
  induction levels with
  | zero => exact tooDeep
  | succ levels ih =>
    refine nested (peek_bind (unexpected _) fun t st hhead hst => ?_)
    dsimp only
    cases t.kind with
    | dollar => exact variableReference_ran place hhead hst
    | int | float | name => exact advance_ran ((pure _).behind t) hhead hst
    | string | blockString => exact advance_ran (((cook t).bind fun _ => pure _).behind t) hhead hst
    | bracketOpen => exact (group .listValue ih).bind (fun _ => pure _) st hst
    | braceOpen => exact (group .objectValue (namedValue _ ih)).bind (fun _ => pure _) st hst
    | _ => exact unexpected _ st hst

lemma value (place : Option ConstantPlace) : Accounted env 1 (value place) :=
  limits.neutral_bind fun l => valueWithin place l.maxDepth

lemma requiredMark (start : Pos) (t : TypeRef) : Accounted env 0 (requiredMark start t) :=
  (nextIs .bang).bind fun _ => .ite (advance.bind fun _ => pure _) (pure _)

lemma typeRefWithin (levels : Nat) : Accounted env 1 (typeRefWithin levels) := by
  induction levels with
  | zero => exact tooDeep
  | succ levels ih =>
    refine nested (here.neutral_bind fun start => (nextIs _).neutral_bind fun next => .ite ?_ ?_)
    · refine (expect .bracketOpen).bind fun opening => (enclosed (n := 1) ⟨.listType, opening.start⟩ ?_
        rfl fun t => requiredMark start (.list t opening.start)).any
      exact ih.bind fun t => (discard (expect .bracketClose)).any.bind fun _ => pure t
    · exact (expectName _).bind fun name => requiredMark start (.named name)

lemma typeRef : Accounted env 1 typeRef := limits.neutral_bind fun l => typeRefWithin l.maxDepth

lemma argument (place : Option ConstantPlace) : Accounted env 1 (argument place) :=
  (namedValue _ (value place)).bind fun _ => pure _

lemma arguments (c : Construct) (place : Option ConstantPlace) : Accounted env 0 (arguments c place) :=
  optionalGroup c (argument place)

lemma directive (place : Option ConstantPlace) : Accounted env 1 (directive place) :=
  (expect .atSign).bind fun _ => (expectName _).any.bind fun _ => (arguments _ place).bind fun _ => pure _

lemma directivesFrom (place : Option ConstantPlace) (steps : Nat) (read : List Directive) :
    Accounted env 0 (directivesFrom place steps read) := by
  induction steps generalizing read with
  | zero => exact pure _
  | succ steps ih =>
    exact (nextIs _).bind fun next => .ite ((directive place).any.bind fun d => ih (d :: read)) (pure _)

lemma directives (place : Option ConstantPlace) : Accounted env 0 (directives place) :=
  limits.bind fun _ => directivesFrom place _ _

/-! ### Selections and operations -/

variable {below : Parse SelectionSet}

lemma field (hbelow : Accounted env 1 below) : Accounted env 1 (field below) := by
  have haliased : ∀ first, Accounted env 0 (field.aliased first) := fun first =>
    (nextIs _).bind fun _ => .ite
      (advance.bind fun _ => (expectName _).any.bind fun _ => pure _) (pure _)
  exact (expectName _).bind fun first => (haliased first).bind fun _ => (arguments _ none).bind fun _ =>
    (directives none).bind fun _ => (nextIs _).bind fun _ => .ite (hbelow.any.bind fun _ => pure _) (pure _)

lemma fragmentSelection (hbelow : Accounted env 1 below) : Accounted env 1 (fragmentSelection below) := by
  have hinline : ∀ p condition, Accounted env 0 (fragmentSelection.inlineFragment below p condition) :=
    fun p condition => (directives none).bind fun _ => hbelow.any.bind fun _ => pure _
  refine (expect _).bind fun points => peek.bind fun t => ?_
  cases t with
  | none => exact hinline _ _
  | some t =>
    refine .ite ?_ (.ite ?_ (hinline _ _))
    · exact advance.bind fun _ => (expectName _).any.bind fun _ => hinline _ _
    · exact advance.bind fun _ => (directives none).bind fun _ => pure _

lemma selection (hbelow : Accounted env 1 below) : Accounted env 1 (selection below) := by
  refine peek.neutral_bind fun t => ?_
  cases t with
  | none => exact unexpected _
  | some t =>
    dsimp only
    cases t.kind with
    | ellipsis => exact fragmentSelection hbelow
    | name => exact field hbelow
    | _ => exact unexpected _

lemma selectionSetWithin (levels : Nat) : Accounted env 1 (selectionSetWithin levels) := by
  induction levels with
  | zero => exact tooDeep
  | succ levels ih => exact nested ((group .selectionSet (selection ih)).bind fun _ => pure _)

lemma selectionSet : Accounted env 1 selectionSet :=
  limits.neutral_bind fun l => selectionSetWithin l.maxDepth

lemma shorthandOperation : Accounted env 1 shorthandOperation :=
  here.neutral_bind fun _ => selectionSet.bind fun _ => pure _

lemma defaultValue (place : ConstantPlace) : Accounted env 0 (defaultValue place) :=
  (nextIs _).bind fun _ => .ite (advance.bind fun _ => (value _).any.bind fun _ => pure _) (pure _)

/-- A colon and a type, as they stand behind the names of what is declared. -/
lemma typed {f : TypeRef → Parse α} (hf : ∀ t, Accounted env 0 (f t)) :
    Accounted env 0 (Functor.discard (Parse.expect .colon) >>= fun _ => Parse.typeRef >>= f) :=
  (discard (expect .colon)).any.bind fun _ => typeRef.any.bind hf

lemma variableDefinition : Accounted env 1 variableDefinition :=
  (expect .dollar).bind fun _ => (expectName _).any.bind fun _ => typed fun _ =>
    (defaultValue _).bind fun _ => (directives _).bind fun _ => pure _

lemma operationName : Accounted env 0 operationName :=
  (nextIs _).bind fun _ => .ite ((expectName _).any.bind fun _ => pure _) (pure _)

lemma operationDefinition (type : OperationType) : Accounted env 1 (operationDefinition type) :=
  (expectKeyword _).bind fun _ => operationName.bind fun _ =>
    (optionalGroup _ variableDefinition).bind fun _ => (directives none).bind fun _ =>
      selectionSet.any.bind fun _ => pure _

lemma fragmentDefinition : Accounted env 1 fragmentDefinition :=
  (expectKeyword _).bind fun _ => (expectName _).any.bind fun _ => reported _ <|
    (discard (expectKeyword _)).any.bind fun _ => (expectName _).any.bind fun _ =>
      (directives none).bind fun _ => selectionSet.any.bind fun _ => pure _

/-! ### Type definitions -/

lemma description : Accounted env 0 description := by
  refine peek.bind fun t => ?_
  cases t with
  | none => exact pure _
  | some t => exact .ite (advance.bind fun _ => (cook t).bind fun _ => pure _) (pure _)

lemma inputDefinition : Accounted env 1 inputDefinition :=
  here.neutral_bind fun _ => description.neutral_bind fun _ => (expectName _).bind fun _ => typed fun _ =>
    (defaultValue _).bind fun _ => (directives _).bind fun _ => pure _

lemma fieldDefinition : Accounted env 1 fieldDefinition :=
  here.neutral_bind fun _ => description.neutral_bind fun _ => (expectName _).bind fun _ =>
    (optionalGroup _ inputDefinition).bind fun _ => typed fun _ => (directives _).bind fun _ => pure _

lemma enumValueDefinition : Accounted env 1 enumValueDefinition :=
  here.neutral_bind fun _ => description.neutral_bind fun _ => (expectName _).bind fun _ => reported _ <|
    (directives _).bind fun _ => pure _

/-- A skip over tokens reads them. -/
lemma skip {f : List Token → List Token} (hf : ∀ ts, f ts <:+ ts) :
    Accounted env 0 (Parse.remaining >>= fun rest => continueAt (f rest)) := fun st _ =>
  ⟨.of_moved _ st.delimiters (hf st.rest), rfl, fun _ => (hf st.rest).length_le, fun h => nomatch h⟩

lemma implementsClause : Accounted env 0 implementsClause := by
  refine peek.bind fun t => ?_
  cases t with
  | none => exact pure _
  | some t =>
    exact .ite (advance.bind fun _ => (report _).bind fun _ => skip fun _ => List.dropWhile_suffix _)
      (pure _)

lemma unsupportedDefinition_ran {t : Token} (hhead : st.rest.head? = some t)
    (hst : st.rest.length ≤ env.tokenCount) (keyword : Token) :
    Ran env 1 st.delimiters st (unsupportedDefinition keyword env st) := by
  have hskip : Accounted env 0 (Parse.remaining >>= fun rest => continueAt (behindUnsupported 0 rest)) :=
    skip fun _ => behindUnsupported_suffix _ _
  exact advance_ran (((report _).bind fun _ => .ite (advance.bind fun _ => hskip) hskip).behind t) hhead hst

/-- Behind a word that is no keyword the token that was stepped over is put back. -/
lemma stepBack_behind (t : Token) {p : Parse α} (hp : Accounted env 1 p) :
    AccountedBehind env t (stepBack t >>= fun _ => p) := by
  intro st hhead hst
  obtain ⟨ts, hts⟩ := List.head?_eq_some_iff.mp hhead
  have hback : { st with rest := t :: st.rest.tail } = st := by rw [hts, List.tail_cons, ← hts]
  show Ran env 1 st.delimiters st (p env { st with rest := t :: st.rest.tail })
  exact hback.symm ▸ hp st hst

lemma typeDefinition_ran {t : Token} (hhead : st.rest.head? = some t)
    (hst : st.rest.length ≤ env.tokenCount) (desc : Option String) (p : Pos) :
    Ran env 1 st.delimiters st (typeDefinition desc p env st) := by
  unfold typeDefinition
  rw [bind_apply]
  simp only [Parse.peek, hhead]
  refine advance_ran ?_ hhead hst
  split
  · exact ((expectName _).any.bind fun _ => (directives _).bind fun _ => pure _).behind t
  · exact ((expectName _).any.bind fun _ => implementsClause.bind fun _ => (directives _).bind fun _ =>
      (optionalGroup _ fieldDefinition).bind fun _ => pure _).behind t
  · exact ((expectName _).any.bind fun _ => (directives _).bind fun _ =>
      (optionalGroup _ enumValueDefinition).bind fun _ => pure _).behind t
  · exact ((expectName _).any.bind fun _ => (directives _).bind fun _ =>
      (optionalGroup _ inputDefinition).bind fun _ => pure _).behind t
  · exact stepBack_behind t (unexpected _)

/-! ### Definitions -/

lemma definition_ran {t : Token} (hhead : st.rest.head? = some t)
    (hst : st.rest.length ≤ env.tokenCount) : Ran env 1 st.delimiters st (definition env st) := by
  unfold definition
  rw [bind_apply]
  simp only [Parse.peek, hhead]
  cases hk : t.kind with
  | braceOpen => exact shorthandOperation.bind (fun _ => pure _) st hst
  | string | blockString =>
    refine description.neutral_bind
      (fun desc => peek_bind (unexpected _) fun next st₁ hnext hst₁ => ?_) st hst
    dsimp only
    split
    · exact (typeDefinition_ran hnext hst₁ desc t.start).map
    split
    · exact (unsupportedDefinition_ran hnext hst₁ next).map
    · exact unexpected _ st₁ hst₁
  | name =>
    dsimp only
    cases OperationType.ofKeyword? t.text with
    | some type => exact (operationDefinition type st hst).map
    | none =>
      dsimp only
      split
      · exact (fragmentDefinition st hst).map
      split
      · exact (typeDefinition_ran hhead hst none t.start).map
      split
      · exact (unsupportedDefinition_ran hhead hst t).map
      · exact unexpected _ st hst
  | _ => exact unexpected _ st hst

end Accounted

/-- One turn of the reading of directives, behind those that were read. -/
def directivesTurn (place : Option ConstantPlace) (read : List Directive) :
    Parse (List Directive ⊕ List Directive) := do
  if ← nextIs .atSign then
    let d ← directive place
    return .inl (d :: read)
  else return .inr read.reverse

lemma directives_repeats (place : Option ConstantPlace) :
    Repeats (directivesTurn place) (directivesFrom place) := by
  intro steps read
  rw [directivesFrom, directivesTurn, bind_assoc]
  congr
  funext next
  cases next with
  | true =>
    simp only [if_true, bind_assoc]
    rfl
  | false => rfl

lemma directives_turns (place : Option ConstantPlace) :
    Turns env (fun st => st.rest.length ≤ env.tokenCount) (fun st run => Ran env 0 st.delimiters st run)
      (directivesTurn place) := by
  intro read st hst
  show TurnEnded env _ _ st
    ((if (st.rest.head?.any (·.kind = .atSign)) = true then _ else _ : Parse _) env st)
  cases st.rest.head?.any (·.kind = .atSign) with
  | false => exact Accounted.pure read.reverse st hst
  | true =>
    have hd : Ran env 1 _ st (directive place env st) := Accounted.directive place st hst
    simp only [if_true, bind_apply]
    generalize directive place env st = run at hd
    obtain ⟨_ | d, st₁⟩ := run
    · exact .of_failed hd.follows (hd.explained rfl) hd.delimiters
    · exact ⟨Nat.le_trans hd.follows.length_le hst, hd.follows, hd.consumes rfl⟩

/-- The last step of a reading of directives does nothing where all tokens are read. -/
lemma directivesFrom_succ (place : Option ConstantPlace) {steps : Nat} (read : List Directive)
    (hst : st.rest.length ≤ env.tokenCount) (hsteps : st.rest.length ≤ steps) :
    directivesFrom place steps read env st = directivesFrom place (steps + 1) read env st := by
  induction steps generalizing read st with
  | zero =>
    have hrest : st.rest = [] := List.length_eq_zero_iff.mp (Nat.le_zero.mp hsteps)
    obtain ⟨rest, _, _, _, _, _⟩ := st
    subst hrest
    rfl
  | succ steps ih =>
    have hturn := directives_turns place read st hst
    rw [(directives_repeats place).apply, (directives_repeats place).apply]
    generalize directivesTurn place read env st = run at hturn
    obtain ⟨_ | read' | _, st'⟩ := run
    · rfl
    · obtain ⟨hst', -, hless⟩ := hturn
      exact ih read' hst' (by omega)
    · rfl

/-- Where the search for the next definition begins. -/
def behindFailed (before rest : List Token) : List Token :=
  if rest.length = before.length then rest.tail else rest

lemma recoverDefinition_apply (before : List Token) (st : ParseState) :
    recoverDefinition before env st = (some (), { st with
      rest := nextDefinition (behindFailed before st.rest), delimiters := [] }) := by
  unfold behindFailed recoverDefinition
  rw [bind_apply]
  simp only [remaining]
  split <;> rfl

/-- At least the first token of a definition that failed is behind when the next one is looked
for. -/
lemma behindFailed_length {before rest : List Token} (hne : before ≠ []) (h : rest <:+ before) :
    (nextDefinition (behindFailed before rest)).length < before.length := by
  have hpos := List.length_pos_of_ne_nil hne
  have hlen := h.length_le
  refine Nat.lt_of_le_of_lt (nextDefinition_suffix _).length_le ?_
  unfold behindFailed
  split
  · rw [List.length_tail]
    omega
  · omega

lemma behindFailed_suffix (before rest : List Token) :
    nextDefinition (behindFailed before rest) <:+ rest := by
  refine (nextDefinition_suffix _).trans ?_
  unfold behindFailed
  split
  · exact List.tail_suffix _
  · exact List.suffix_refl _

/-- One turn of the reading of a document, behind the definitions that were read. -/
def definitionsTurn (read : List Definition) : Parse (List Definition ⊕ List Definition) := do
  let before ← remaining
  if (← isAborted) || before.isEmpty then return .inr read.reverse
  else
    match ← attempt definition with
    | some (some d) => return .inl (d :: read)
    | some none => return .inl read
    | none =>
      recoverDefinition before
      return .inl read

lemma definitions_repeats : Repeats definitionsTurn definitions := by
  intro steps read
  rw [definitions, definitionsTurn, bind_assoc]
  congr
  funext before
  rw [bind_assoc]
  congr
  funext aborted
  cases aborted || before.isEmpty with
  | true => rfl
  | false =>
  simp only [Bool.false_eq_true, if_false, bind_assoc]
  congr
  funext o
  obtain _ | _ | d := o
  · simp only [bind_assoc]
    rfl
  · rfl
  · rfl

/-- How the reading of a document ends: it was given up, or all tokens are read. -/
structure Finished (env : ParseLimits) (st : ParseState) (run : Option (List Definition) × ParseState) :
    Prop where
  made : run.1.isSome = true
  follows : Follows env st run.2
  ended : run.2.aborted.isSome = true ∨ run.2.rest = []

/-- **A turn of the reading of a document.** -/
lemma definitions_turns : Turns env (fun st => st.rest.length ≤ env.tokenCount) (Finished env)
    definitionsTurn := by
  intro read st hst
  cases hend : st.aborted.isSome || st.rest.isEmpty with
  | true =>
    have hrun : definitionsTurn read env st = (some (.inr read.reverse), st) := by
      simp only [definitionsTurn, bind_apply, remaining, isAborted, hend, if_true]
      rfl
    rw [hrun]
    refine ⟨rfl, .refl st, ?_⟩
    simpa only [Bool.or_eq_true, List.isEmpty_iff] using hend
  | false =>
  have hne : st.rest ≠ [] := by
    rintro hempty
    simp [hempty] at hend
  obtain ⟨t, ts, hrest⟩ := List.exists_cons_of_ne_nil hne
  obtain ⟨hfollows, -, hread, -⟩ := Accounted.definition_ran (t := t) (by rw [hrest]; rfl) hst
  generalize hdefinition : definition env st = run at hfollows hread
  obtain ⟨o, st₁⟩ := run
  have hlen := Nat.le_trans hfollows.length_le hst
  obtain _ | _ | d := o
  · have hrun : definitionsTurn read env st = (some (.inl read), { st₁ with
        rest := nextDefinition (behindFailed st.rest st₁.rest), delimiters := [] }) := by
      simp only [definitionsTurn, bind_apply, remaining, isAborted, hend, Bool.false_eq_true, if_false,
        attempt, hdefinition, recoverDefinition_apply]
      rfl
    have hkept := behindFailed_suffix st.rest st₁.rest
    rw [hrun]
    exact ⟨Nat.le_trans hkept.length_le hlen, hfollows.trans (.of_moved _ [] hkept),
      behindFailed_length hne hfollows.rest⟩
  · have hrun : definitionsTurn read env st = (some (.inl read), st₁) := by
      simp only [definitionsTurn, bind_apply, remaining, isAborted, hend, Bool.false_eq_true, if_false,
        attempt, hdefinition]
      rfl
    rw [hrun]
    exact ⟨hlen, hfollows, hread rfl⟩
  · have hrun : definitionsTurn read env st = (some (.inl (d :: read)), st₁) := by
      simp only [definitionsTurn, bind_apply, remaining, isAborted, hend, Bool.false_eq_true, if_false,
        attempt, hdefinition]
      rfl
    rw [hrun]
    exact ⟨hlen, hfollows, hread rfl⟩

/-- **The reading of a document comes to its end.** -/
lemma definitions_finished {steps : Nat} {read : List Definition} (hst : st.rest.length ≤ env.tokenCount)
    (hsteps : st.rest.length < steps) : Finished env st (definitions steps read env st) :=
  definitions_turns.out definitions_repeats
    (fun _ _ _ h hout => ⟨hout.made, h.trans hout.follows, hout.ended⟩) hst hsteps

end Parse

end GraphQL
