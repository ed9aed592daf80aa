import GraphQL.Proofs.Parser.Exact.Document
import GraphQL.Proofs.Parser.Total

/-!
The limit on nesting shows where it is exceeded only.

Every level that is taken is given back, so the depth of a parse never says what was read before, but what
is open now. Where a limit does not end a parse for good, a higher one does not either: each rule does the
same under both. And the limit is the one thing that ends a parse for good.
-/

namespace GraphQL

namespace ParseLimits

/-- The limits of the same document, with at least as many levels. -/
structure Raised (env env' : ParseLimits) : Prop where
  endPos : env'.endPos = env.endPos
  tokenCount : env'.tokenCount = env.tokenCount
  maxDepth : env.maxDepth ≤ env'.maxDepth

end ParseLimits

namespace ParseState

/-- No error that was reported is one that ends a parse, and the one that ended it is about its depth. -/
structure Graded (env : ParseLimits) (st : ParseState) : Prop where
  reported : ∀ e ∈ st.errors, e.cause.isTerminal = false
  aborted : ∀ e, st.aborted = some e → ∃ p, e = ⟨p, 1, .nestingTooDeep env.maxDepth⟩

lemma graded_start (env : ParseLimits) (ts : List Token) : Graded env (start ts) :=
  ⟨fun _ h => (List.not_mem_nil h).elim, fun _ h => nomatch h⟩

end ParseState

namespace Parse

open ParseState

variable {env env' : ParseLimits} {α β : Type}

/-- Under higher limits the second parse does what the first one does, unless that is ended for good. -/
structure Survives (env env' : ParseLimits) (p p' : Parse α) : Prop where
  graded : ∀ st, Graded env st → Graded env (p env st).2
  goesOn : ∀ st, (p env st).2.aborted = none → st.aborted = none
  same : ∀ st, (p env st).2.aborted = none → p' env' st = p env st

namespace Survives

section

variable {p p' q q' : Parse α} {f f' : α → Parse β}

lemma bind (hp : Survives env env' p p') (hf : ∀ a, Survives env env' (f a) (f' a)) :
    Survives env env' (p >>= f) (p' >>= f') where
  graded st hst := by
    have hst₁ := hp.graded st hst
    rw [bind_apply]
    generalize p env st = run at hst₁
    obtain ⟨_ | a, st₁⟩ := run
    · exact hst₁
    · exact (hf a).graded st₁ hst₁
  goesOn st h := by
    have hst := hp.goesOn st
    rw [bind_apply] at h
    generalize p env st = run at h hst
    obtain ⟨_ | a, st₁⟩ := run
    · exact hst h
    · exact hst ((hf a).goesOn st₁ h)
  same st h := by
    have hst := hp.same st
    rw [bind_apply] at h
    rw [bind_apply, bind_apply]
    generalize p env st = run at h hst
    obtain ⟨_ | a, st₁⟩ := run
    · rw [hst h]
    · rw [hst ((hf a).goesOn st₁ h)]
      exact (hf a).same st₁ h

/-- A step that looks at the state and neither reports nor ends anything. -/
lemma step {run : ParseState → Option α × ParseState} (herrors : ∀ st, (run st).2.errors = st.errors)
    (haborted : ∀ st, (run st).2.aborted = st.aborted) : Survives env env' (fun _ => run) (fun _ => run) where
  graded st hst := ⟨by rw [herrors]; exact hst.reported, by rw [haborted]; exact hst.aborted⟩
  goesOn st h := haborted st ▸ h
  same _ _ := rfl

lemma pure (a : α) : Survives env env' (Pure.pure a) (Pure.pure a) := step (fun _ => rfl) fun _ => rfl

lemma fail : Survives env env' (Parse.fail : Parse α) Parse.fail := step (fun _ => rfl) fun _ => rfl

lemma peek : Survives env env' peek peek := step (fun _ => rfl) fun _ => rfl

lemma remaining : Survives env env' remaining remaining := step (fun _ => rfl) fun _ => rfl

lemma isAborted : Survives env env' isAborted isAborted := step (fun _ => rfl) fun _ => rfl

lemma advance : Survives env env' advance advance := step (fun _ => rfl) fun _ => rfl

lemma stepBack (t : Token) : Survives env env' (stepBack t) (stepBack t) := step (fun _ => rfl) fun _ => rfl

lemma continueAt (ts : List Token) : Survives env env' (continueAt ts) (continueAt ts) :=
  step (fun _ => rfl) fun _ => rfl

lemma openDelimiter (d : Delimiter) : Survives env env' (openDelimiter d) (openDelimiter d) :=
  step (fun _ => rfl) fun _ => rfl

lemma closeDelimiter : Survives env env' closeDelimiter closeDelimiter := step (fun _ => rfl) fun _ => rfl

lemma closesOuter (k : TokenKind) : Survives env env' (closesOuter k) (closesOuter k) :=
  step (fun _ => rfl) fun _ => rfl

lemma attempt (hp : Survives env env' p p') : Survives env env' (Parse.attempt p) (Parse.attempt p') where
  graded := hp.graded
  goesOn := hp.goesOn
  same st h := by
    unfold Parse.attempt
    rw [hp.same st h]

lemma ite {c : Prop} [Decidable c] (hp : Survives env env' p p') (hq : Survives env env' q q') :
    Survives env env' (if c then p else q) (if c then p' else q') := by
  by_cases h : c
  · rwa [if_pos h, if_pos h]
  · rwa [if_neg h, if_neg h]

lemma limits_bind {f f' : ParseLimits → Parse α} (hf : Survives env env' (f env) (f' env')) :
    Survives env env' (limits >>= f) (limits >>= f') := ⟨hf.graded, hf.goesOn, hf.same⟩

lemma discard (hp : Survives env env' p p') :
    Survives env env' (Functor.discard p) (Functor.discard p') := hp.bind fun _ => pure _

lemma nextIs (k : TokenKind) : Survives env env' (nextIs k) (nextIs k) := peek.bind fun _ => pure _

/-- A parse that is always ended for good does not count. -/
lemma of_aborted (hgraded : ∀ st, Graded env st → Graded env (p env st).2)
    (h : ∀ st, (p env st).2.aborted ≠ none) : Survives env env' p p' :=
  ⟨hgraded, fun st hst => absurd hst (h st), fun st hst => absurd hst (h st)⟩

lemma tooDeep_apply (env : ParseLimits) (st : ParseState) : ∃ p, (tooDeep : Parse α) env st =
    (none, { st with aborted := st.aborted.or (some ⟨p, 1, .nestingTooDeep env.maxDepth⟩) }) := by
  obtain ⟨_ | ⟨t, ts⟩, errors, delimiters, depth, endReported, aborted⟩ := st
  · exact ⟨env.endPos, rfl⟩
  · exact ⟨t.start, rfl⟩

lemma tooDeep_graded {st : ParseState} (hst : Graded env st) :
    Graded env ((tooDeep : Parse α) env st).2 := by
  obtain ⟨p, h⟩ := tooDeep_apply (α := α) env st
  rw [h]
  refine ⟨hst.reported, fun e he => ?_⟩
  cases haborted : st.aborted with
  | none =>
    rw [haborted] at he
    exact ⟨p, (Option.some.inj he).symm⟩
  | some e' =>
    rw [haborted] at he
    exact hst.aborted e (haborted.trans he)

lemma tooDeep_aborted (st : ParseState) : ((tooDeep : Parse α) env st).2.aborted ≠ none := by
  obtain ⟨p, h⟩ := tooDeep_apply (α := α) env st
  rw [h]
  cases haborted : st.aborted <;> simp

lemma tooDeep : Survives env env' (tooDeep : Parse α) p' :=
  of_aborted (fun _ => tooDeep_graded) tooDeep_aborted

/-- Where there is a level left under the lower limit, there is one under the higher limit. -/
lemma nested (h : ParseLimits.Raised env env') (hp : Survives env env' p p') :
    Survives env env' (Parse.nested p) (Parse.nested p') where
  graded st hst := by
    unfold Parse.nested
    split
    · exact hst
    split
    · exact tooDeep_graded hst
    · obtain ⟨hreported, haborted⟩ := hp.graded { st with depth := st.depth + 1 } ⟨hst.reported, hst.aborted⟩
      exact ⟨hreported, haborted⟩
  goesOn st hst := by
    unfold Parse.nested at hst
    split at hst
    · exact hst
    split at hst
    · exact absurd hst (tooDeep_aborted st)
    · exact hp.goesOn { st with depth := st.depth + 1 } hst
  same st hst := by
    unfold Parse.nested at hst
    split at hst
    · rename_i haborted
      exact absurd hst (Option.isSome_iff_ne_none.mp haborted)
    rename_i haborted
    split at hst
    · exact absurd hst (tooDeep_aborted st)
    rename_i hdepth
    have hdepth' : ¬env'.maxDepth ≤ st.depth := fun hle => hdepth (Nat.le_trans h.maxDepth hle)
    have hsame := hp.same { st with depth := st.depth + 1 } hst
    unfold Parse.nested
    rw [if_neg haborted, if_neg haborted, if_neg hdepth, if_neg hdepth', hsame]

/-- **Recursion down the levels.** A run with more levels survives one with less. -/
lemma of_levels (h : ParseLimits.Raised env env') {run : Nat → Parse α} (hzero : run 0 = Parse.tooDeep)
    (hsucc : ∀ n n', ∃ body body', run (n + 1) = Parse.nested body ∧ run (n' + 1) = Parse.nested body' ∧
      (Survives env env' (run n) (run n') → Survives env env' body body')) {n n' : Nat} (hle : n ≤ n') :
    Survives env env' (run n) (run n') := by
  induction n generalizing n' with
  | zero =>
    rw [hzero]
    exact tooDeep
  | succ n ih =>
    obtain ⟨n', rfl⟩ := Nat.exists_eq_add_one_of_ne_zero (Nat.ne_zero_of_lt hle)
    obtain ⟨body, body', heq, heq', hbody⟩ := hsucc n n'
    rw [heq, heq']
    exact nested h (hbody (ih (Nat.le_of_succ_le_succ hle)))

lemma of_allLevels (h : ParseLimits.Raised env env') {run : Nat → Parse α}
    (hrun : ∀ {n n'}, n ≤ n' → Survives env env' (run n) (run n')) :
    Survives env env' (limits >>= fun l => run l.maxDepth) (limits >>= fun l => run l.maxDepth) :=
  limits_bind (hrun h.maxDepth)

end

/-! ### Errors and tokens -/

variable (h : ParseLimits.Raised env env')

include h

lemma endPos_bind {f : Pos → Parse α} (hf : ∀ p, Survives env env' (f p) (f p)) :
    Survives env env' (limits >>= fun l => f l.endPos) (limits >>= fun l => f l.endPos) := by
  refine limits_bind ?_
  rw [h.endPos]
  exact hf _

lemma here : Survives env env' here here :=
  peek.bind fun o => match o with
    | none => endPos_bind h fun _ => pure _
    | some _ => pure _

lemma report {e : ParseError} (he : e.cause.isTerminal = false) :
    Survives env env' (Parse.report e) (Parse.report e) where
  graded st hst := by
    unfold Parse.report
    dsimp only
    split
    · exact hst
    · exact ⟨List.forall_mem_cons.mpr ⟨he, hst.reported⟩, hst.aborted⟩
  goesOn st hst := by
    unfold Parse.report at hst
    dsimp only at hst
    split at hst <;> exact hst
  same st _ := by
    unfold Parse.report
    rw [h.endPos]

/-- What goes on behind an error that may have to be reported. -/
lemma reported {c : Prop} [Decidable c] {e : ParseError} (he : e.cause.isTerminal = false) {p p' : Parse α}
    (hp : Survives env env' p p') :
    Survives env env' (if c then Parse.report e >>= fun _ => p else p)
      (if c then Parse.report e >>= fun _ => p' else p') :=
  ite ((report h he).bind fun _ => hp) hp

lemma unexpected (expected : String) :
    Survives env env' (unexpected expected : Parse α) (unexpected expected) := by
  refine bind (peek.bind fun o => ?_) fun _ => fail
  cases o with
  | none => exact endPos_bind h fun p => report h (e := ⟨p, 1, .unexpectedEnd expected⟩) rfl
  | some t => exact report h (by dsimp only; split <;> rfl)

lemma expect (k : TokenKind) : Survives env env' (expect k) (expect k) :=
  peek.bind fun o => match o with
    | none => unexpected h _
    | some _ => ite (advance.bind fun _ => pure _) (unexpected h _)

lemma expectKeyword (word : String) : Survives env env' (expectKeyword word) (expectKeyword word) :=
  peek.bind fun o => match o with
    | none => unexpected h _
    | some _ => ite (advance.bind fun _ => pure _) (unexpected h _)

lemma expectName (what : String) : Survives env env' (expectName what) (expectName what) :=
  peek.bind fun o => match o with
    | none => unexpected h _
    | some _ => ite (advance.bind fun _ => pure _) (unexpected h _)

lemma cook (t : Token) : Survives env env' (cook t) (cook t) := by
  unfold Parse.cook
  cases StringLiteral.cook t.text with
  | ok text => exact pure _
  | error e => exact (report h rfl).bind fun _ => pure _

/-! ### Groups -/

section

variable {member member' : Parse α}

lemma leaveUnclosed (d : Delimiter) (p : Pos) :
    Survives env env' (leaveUnclosed d p : Parse α) (leaveUnclosed d p) :=
  closeDelimiter.bind fun _ => (report h rfl).bind fun _ => fail

lemma members (hm : Survives env env' member member') (d : Delimiter) (steps : Nat) (read : List α)
    (failed : Bool) : Survives env env' (members d member steps read failed) (members d member' steps read failed) := by
  have hleave : Survives env env' (Parse.closeDelimiter >>= fun _ => Parse.fail : Parse (List α × Bool × Token))
      (Parse.closeDelimiter >>= fun _ => Parse.fail) := closeDelimiter.bind fun _ => fail
  induction steps generalizing read failed with
  | zero => exact fail
  | succ steps ih =>
    refine isAborted.bind fun aborted => ite hleave (peek.bind fun o => ?_)
    cases o with
    | none => exact endPos_bind h fun p => leaveUnclosed h d p
    | some t =>
      refine ite ?_ (ite ?_ ?_)
      · exact advance.bind fun _ => closeDelimiter.bind fun _ => pure _
      · exact (closesOuter _).bind fun outer => ite (leaveUnclosed h d _)
          ((report h rfl).bind fun _ => advance.bind fun _ => ih read failed)
      · refine remaining.bind fun before => hm.attempt.bind fun o => ?_
        cases o with
        | some a => exact ih (a :: read) failed
        | none =>
          refine isAborted.bind fun aborted => ite hleave (bind ?_ fun _ => ih read true)
          exact remaining.bind fun rest => continueAt _

lemma group (c : Construct) (hm : Survives env env' member member') :
    Survives env env' (group c member) (group c member') := by
  refine (expect h _).bind fun opening => (openDelimiter _).bind fun _ => limits_bind ?_
  rw [h.tokenCount]
  exact (members h hm _ _ _ _).bind fun out => ite ((report h rfl).bind fun _ => pure _) (pure _)

lemma optionalGroup (c : Construct) (hm : Survives env env' member member') :
    Survives env env' (optionalGroup c member) (optionalGroup c member') :=
  (nextIs _).bind fun _ => ite ((group h c hm).bind fun _ => pure _) (pure _)

end

/-! ### Values, types and directives -/

lemma variableReference (place : Option ConstantPlace) (dollar : Token) :
    Survives env env' (variableReference place dollar) (variableReference place dollar) := by
  refine advance.bind fun _ => (expectName h _).bind fun name => ?_
  cases place with
  | none => exact pure _
  | some place => exact (report h rfl).bind fun _ => pure _

lemma namedValue (what : String) {v v' : Parse Literal} (hv : Survives env env' v v') :
    Survives env env' (namedValue what v) (namedValue what v') :=
  (expectName h _).bind fun _ => (expect h _).discard.bind fun _ => hv.bind fun _ => pure _

lemma valueWithin (place : Option ConstantPlace) {n n' : Nat} (hle : n ≤ n') :
    Survives env env' (valueWithin place n) (valueWithin place n') := by
  refine of_levels h rfl (fun n n' => ⟨_, _, rfl, rfl, fun hv => peek.bind fun o => ?_⟩) hle
  cases o with
  | none => exact unexpected h _
  | some t =>
    dsimp only
    cases t.kind with
    | dollar => exact variableReference h place t
    | int | float | name => exact advance.bind fun _ => pure _
    | string | blockString => exact advance.bind fun _ => (cook h t).bind fun _ => pure _
    | bracketOpen => exact (group h _ hv).bind fun _ => pure _
    | braceOpen => exact (group h _ (namedValue h _ hv)).bind fun _ => pure _
    | _ => exact unexpected h _

lemma value (place : Option ConstantPlace) : Survives env env' (value place) (value place) :=
  of_allLevels h fun hle => valueWithin h place hle

omit h in
lemma requiredMark (start : Pos) (t : TypeRef) :
    Survives env env' (requiredMark start t) (requiredMark start t) :=
  (nextIs _).bind fun _ => ite (advance.bind fun _ => pure _) (pure _)

lemma typeRefWithin {n n' : Nat} (hle : n ≤ n') : Survives env env' (typeRefWithin n) (typeRefWithin n') := by
  refine of_levels h rfl (fun n n' => ⟨_, _, rfl, rfl, fun ht => (here h).bind fun start => ?_⟩) hle
  refine (nextIs _).bind fun _ => ite ?_ ((expectName h _).bind fun _ => requiredMark _ _)
  refine (expect h _).bind fun opening => (openDelimiter _).bind fun _ => ?_
  refine (attempt (ht.bind fun _ => (expect h _).discard.bind fun _ => pure _)).bind fun o =>
    closeDelimiter.bind fun _ => ?_
  cases o with
  | some t => exact requiredMark _ _
  | none => exact fail

lemma typeRef : Survives env env' typeRef typeRef := of_allLevels h fun hle => typeRefWithin h hle

lemma argument (place : Option ConstantPlace) : Survives env env' (argument place) (argument place) :=
  (namedValue h _ (value h place)).bind fun _ => pure _

lemma arguments (c : Construct) (place : Option ConstantPlace) :
    Survives env env' (arguments c place) (arguments c place) := optionalGroup h c (argument h place)

lemma directive (place : Option ConstantPlace) : Survives env env' (directive place) (directive place) :=
  (expect h _).bind fun _ => (expectName h _).bind fun _ => (arguments h _ place).bind fun _ => pure _

lemma directivesFrom (place : Option ConstantPlace) (steps : Nat) (read : List Directive) :
    Survives env env' (directivesFrom place steps read) (directivesFrom place steps read) := by
  induction steps generalizing read with
  | zero => exact pure _
  | succ steps ih => exact (nextIs _).bind fun _ => ite ((directive h place).bind fun _ => ih _) (pure _)

lemma directives (place : Option ConstantPlace) : Survives env env' (directives place) (directives place) := by
  refine limits_bind ?_
  rw [h.tokenCount]
  exact directivesFrom h place _ _

/-! ### Selections and operations -/

section

variable {below below' : Parse SelectionSet}

lemma field (hbelow : Survives env env' below below') : Survives env env' (field below) (field below') := by
  have haliased : ∀ first : Name, Survives env env' (field.aliased first) (field.aliased first) := fun first =>
    (nextIs _).bind fun _ => ite (advance.bind fun _ => (expectName h _).bind fun _ => pure _) (pure _)
  exact (expectName h _).bind fun first => (haliased first).bind fun _ => (arguments h _ none).bind fun _ =>
    (directives h none).bind fun _ => (nextIs _).bind fun _ => ite (hbelow.bind fun _ => pure _) (pure _)

lemma fragmentSelection (hbelow : Survives env env' below below') :
    Survives env env' (fragmentSelection below) (fragmentSelection below') := by
  have hinline : ∀ (p : Pos) (condition : Option Name),
      Survives env env' (fragmentSelection.inlineFragment below p condition)
        (fragmentSelection.inlineFragment below' p condition) := fun p condition =>
    (directives h none).bind fun _ => hbelow.bind fun _ => pure _
  refine (expect h _).bind fun points => peek.bind fun o => ?_
  cases o with
  | none => exact hinline _ _
  | some t =>
    refine ite (advance.bind fun _ => (expectName h _).bind fun _ => hinline _ _) (ite ?_ (hinline _ _))
    exact advance.bind fun _ => (directives h none).bind fun _ => pure _

lemma selection (hbelow : Survives env env' below below') :
    Survives env env' (selection below) (selection below') := by
  refine peek.bind fun o => ?_
  cases o with
  | none => exact unexpected h _
  | some t =>
    dsimp only
    cases t.kind with
    | ellipsis => exact fragmentSelection h hbelow
    | name => exact field h hbelow
    | _ => exact unexpected h _

end

lemma selectionSetWithin {n n' : Nat} (hle : n ≤ n') :
    Survives env env' (selectionSetWithin n) (selectionSetWithin n') :=
  of_levels h rfl (fun _ _ => ⟨_, _, rfl, rfl, fun hbelow => (group h _ (selection h hbelow)).bind fun _ => pure _⟩) hle

lemma selectionSet : Survives env env' selectionSet selectionSet :=
  of_allLevels h fun hle => selectionSetWithin h hle

lemma shorthandOperation : Survives env env' shorthandOperation shorthandOperation :=
  (here h).bind fun _ => (selectionSet h).bind fun _ => pure _

lemma defaultValue (place : ConstantPlace) : Survives env env' (defaultValue place) (defaultValue place) :=
  (nextIs _).bind fun _ => ite (advance.bind fun _ => (value h _).bind fun _ => pure _) (pure _)

lemma variableDefinition : Survives env env' variableDefinition variableDefinition :=
  (expect h _).bind fun _ => (expectName h _).bind fun _ => (expect h _).discard.bind fun _ =>
    (typeRef h).bind fun _ => (defaultValue h _).bind fun _ => (directives h _).bind fun _ => pure _

lemma operationName : Survives env env' operationName operationName :=
  (nextIs _).bind fun _ => ite ((expectName h _).bind fun _ => pure _) (pure _)

lemma operationDefinition (type : OperationType) :
    Survives env env' (operationDefinition type) (operationDefinition type) :=
  (expectKeyword h _).bind fun _ => (operationName h).bind fun _ =>
    (optionalGroup h _ (variableDefinition h)).bind fun _ => (directives h none).bind fun _ =>
      (selectionSet h).bind fun _ => pure _

lemma fragmentDefinition : Survives env env' fragmentDefinition fragmentDefinition :=
  (expectKeyword h _).bind fun _ => (expectName h _).bind fun _ => reported h rfl <|
    (expectKeyword h _).discard.bind fun _ => (expectName h _).bind fun _ => (directives h none).bind fun _ =>
      (selectionSet h).bind fun _ => pure _

/-! ### Type definitions -/

lemma description : Survives env env' description description :=
  peek.bind fun o => match o with
    | none => pure _
    | some t => ite (advance.bind fun _ => (cook h t).bind fun _ => pure _) (pure _)

lemma inputDefinition : Survives env env' inputDefinition inputDefinition :=
  (here h).bind fun _ => (description h).bind fun _ => (expectName h _).bind fun _ =>
    (expect h _).discard.bind fun _ => (typeRef h).bind fun _ => (defaultValue h _).bind fun _ =>
      (directives h _).bind fun _ => pure _

lemma fieldDefinition : Survives env env' fieldDefinition fieldDefinition :=
  (here h).bind fun _ => (description h).bind fun _ => (expectName h _).bind fun _ =>
    (optionalGroup h _ (inputDefinition h)).bind fun _ => (expect h _).discard.bind fun _ =>
      (typeRef h).bind fun _ => (directives h _).bind fun _ => pure _

lemma enumValueDefinition : Survives env env' enumValueDefinition enumValueDefinition :=
  (here h).bind fun _ => (description h).bind fun _ => (expectName h _).bind fun _ => reported h rfl <|
    (directives h _).bind fun _ => pure _

lemma implementsClause : Survives env env' implementsClause implementsClause :=
  peek.bind fun o => match o with
    | none => pure _
    | some _ => ite (advance.bind fun _ => (report h rfl).bind fun _ => remaining.bind fun _ => continueAt _) (pure _)

lemma unsupportedDefinition (keyword : Token) :
    Survives env env' (unsupportedDefinition keyword) (unsupportedDefinition keyword) := by
  have hskip : Survives env env' (Parse.remaining >>= fun rest => Parse.continueAt (behindUnsupported 0 rest))
      (Parse.remaining >>= fun rest => Parse.continueAt (behindUnsupported 0 rest)) :=
    remaining.bind fun _ => continueAt _
  exact advance.bind fun _ => (report h rfl).bind fun _ => ite (advance.bind fun _ => hskip) hskip

lemma typeDefinition (desc : Option String) (p : Pos) :
    Survives env env' (typeDefinition desc p) (typeDefinition desc p) := by
  refine peek.bind fun o => ?_
  cases o with
  | none => exact fail
  | some keyword =>
    refine advance.bind fun _ => ?_
    split
    · exact (expectName h _).bind fun _ => (directives h _).bind fun _ => pure _
    · exact (expectName h _).bind fun _ => (implementsClause h).bind fun _ => (directives h _).bind fun _ =>
        (optionalGroup h _ (fieldDefinition h)).bind fun _ => pure _
    · exact (expectName h _).bind fun _ => (directives h _).bind fun _ =>
        (optionalGroup h _ (enumValueDefinition h)).bind fun _ => pure _
    · exact (expectName h _).bind fun _ => (directives h _).bind fun _ =>
        (optionalGroup h _ (inputDefinition h)).bind fun _ => pure _
    · exact (stepBack _).bind fun _ => unexpected h _

/-! ### Definitions -/

lemma definition : Survives env env' definition definition := by
  refine peek.bind fun o => ?_
  cases o with
  | none => exact fail
  | some t =>
    dsimp only
    cases t.kind with
    | braceOpen => exact (shorthandOperation h).bind fun _ => pure _
    | string | blockString =>
      refine (description h).bind fun desc => peek.bind fun o => ?_
      cases o with
      | none => exact unexpected h _
      | some next =>
        refine ite ((typeDefinition h _ _).bind fun _ => pure _) (ite ?_ (unexpected h _))
        exact (unsupportedDefinition h next).bind fun _ => pure _
    | name =>
      dsimp only
      cases OperationType.ofKeyword? t.text with
      | some type => exact (operationDefinition h type).bind fun _ => pure _
      | none =>
        refine ite ((fragmentDefinition h).bind fun _ => pure _) (ite ?_ (ite ?_ (unexpected h _)))
        · exact (typeDefinition h _ _).bind fun _ => pure _
        · exact (unsupportedDefinition h t).bind fun _ => pure _
    | _ => exact unexpected h _

omit h in
lemma recoverDefinition (before : List Token) :
    Survives env env' (recoverDefinition before) (recoverDefinition before) := by
  have hskip : Survives env env' (Parse.remaining >>= fun rest => Parse.continueAt (nextDefinition rest) >>= fun _ =>
      recoverDefinition.dropDelimiters) (Parse.remaining >>= fun rest => Parse.continueAt (nextDefinition rest) >>= fun _ =>
      recoverDefinition.dropDelimiters) :=
    remaining.bind fun _ => (continueAt _).bind fun _ => step (fun _ => rfl) fun _ => rfl
  exact remaining.bind fun _ => ite (advance.bind fun _ => hskip) hskip

/-- **A higher limit changes no document that is not given up.** -/
lemma definitions (steps : Nat) (read : List Definition) :
    Survives env env' (definitions steps read) (definitions steps read) := by
  induction steps generalizing read with
  | zero => exact pure _
  | succ steps ih =>
    refine remaining.bind fun before => isAborted.bind fun aborted => ite (pure _) ?_
    refine (definition h).attempt.bind fun o => ?_
    rcases o with _ | _ | d
    · exact (recoverDefinition before).bind fun _ => ih read
    · exact ih read
    · exact ih (d :: read)

end Survives

end Parse

namespace ParseResult

/-- The document was given up since it nests deeper than the limit. -/
def NestsTooDeep (limit : Nat) (r : ParseResult) : Prop := ∃ p, r = ⟨none, [⟨p, 1, .nestingTooDeep limit⟩]⟩

end ParseResult

namespace Document

open ParseState Parse

variable {maxSize limit limit' : Nat} {source : List Char} {d : Document}

/-- The run behind a reading within the limit on size. -/
def runOf (maxSize limit : Nat) (source : List Char) : Option (List Definition) × ParseState :=
  Parse.definitions ((Token.lex source).length + 1) [] (limitsOf ⟨maxSize, limit⟩ source) (.start (Token.lex source))

lemma raised_limits (hle : limit ≤ limit') :
    (limitsOf ⟨maxSize, limit⟩ source).Raised (limitsOf ⟨maxSize, limit'⟩ source) := ⟨rfl, rfl, hle⟩

lemma runOf_graded (maxSize limit : Nat) (source : List Char) :
    Graded (limitsOf ⟨maxSize, limit⟩ source) (runOf maxSize limit source).2 :=
  (Survives.definitions (raised_limits (Nat.le_refl limit)) _ _).graded _ (graded_start _ _)

lemma runOf_raised (hle : limit ≤ limit') (h : (runOf maxSize limit source).2.aborted = none) :
    runOf maxSize limit' source = runOf maxSize limit source :=
  (Survives.definitions (raised_limits hle) _ _).same _ h

/-- A document of a size that is allowed is given up for its depth, or it has a tree and no error that would
have ended the reading. -/
lemma parseWith_outcome (limit : Nat) (hsize : byteLength source ≤ maxSize) :
    (parseWith ⟨maxSize, limit⟩ source).NestsTooDeep limit ∨ (runOf maxSize limit source).2.aborted = none ∧
      (parseWith ⟨maxSize, limit⟩ source).document?.isSome = true ∧
        ∀ e ∈ (parseWith ⟨maxSize, limit⟩ source).errors, e.cause.isTerminal = false := by
  have heq : parseWith ⟨maxSize, limit⟩ source = resultOf (runOf maxSize limit source) := parseWith_eq hsize
  obtain ⟨hreported, haborted⟩ := runOf_graded maxSize limit source
  rw [heq, resultOf]
  cases hended : (runOf maxSize limit source).2.aborted with
  | some e =>
    obtain ⟨p, rfl⟩ := haborted e hended
    exact .inl ⟨p, rfl⟩
  | none => exact .inr ⟨rfl, rfl, fun e he => hreported e (List.mem_reverse.mp he)⟩

lemma parseWith_tooLarge (hsize : ¬byteLength source ≤ maxSize) (limit : Nat) :
    parseWith ⟨maxSize, limit⟩ source = ⟨none, [⟨.start, 1, .documentTooLarge (byteLength source) maxSize⟩]⟩ :=
  if_pos (Nat.lt_of_not_le hsize)

lemma parseWith_raised (hle : limit ≤ limit') (h : ¬(parseWith ⟨maxSize, limit⟩ source).NestsTooDeep limit) :
    parseWith ⟨maxSize, limit'⟩ source = parseWith ⟨maxSize, limit⟩ source := by
  by_cases hsize : byteLength source ≤ maxSize
  · obtain hdeep | ⟨hgoesOn, -⟩ := parseWith_outcome limit hsize
    · exact absurd hdeep h
    · rw [parseWith_eq hsize, parseWith_eq hsize]
      exact congrArg resultOf (runOf_raised hle hgoesOn)
  · rw [parseWith_tooLarge hsize, parseWith_tooLarge hsize]

lemma parseWith_givenUp (maxSize limit : Nat) (source : List Char) :
    (parseWith ⟨maxSize, limit⟩ source).document? = none ↔
      ∃ e, (parseWith ⟨maxSize, limit⟩ source).errors = [e] ∧ e.cause.isTerminal = true := by
  by_cases hsize : byteLength source ≤ maxSize
  · obtain ⟨p, hdeep⟩ | ⟨-, hread, hgoesOn⟩ := parseWith_outcome limit hsize
    · rw [hdeep]
      exact ⟨fun _ => ⟨_, rfl, rfl⟩, fun _ => rfl⟩
    · constructor
      · intro hnone
        rw [hnone] at hread
        exact absurd hread Bool.false_ne_true
      · rintro ⟨e, herrors, hterminal⟩
        have hfalse := hgoesOn e (herrors ▸ List.mem_singleton_self e)
        rw [hterminal] at hfalse
        exact nomatch hfalse
  · rw [parseWith_tooLarge hsize]
    exact ⟨fun _ => ⟨_, rfl, rfl⟩, fun _ => rfl⟩

/-- What is derived from the tokens of a document fixes how deep it nests. -/
lemma parseWith_derives {high : Nat} (h : parseWith ⟨maxSize, high⟩ source = ⟨some d, []⟩) :
    byteLength source ≤ maxSize ∧ Grammar.IsDocument (Token.lex source) d ∧ d.nesting ≤ high := by
  obtain ⟨d', hd', hsize, hderives, hnesting⟩ := parseWith_sound (congrArg ParseResult.errors h)
  rw [h] at hd'
  cases hd'
  exact ⟨hsize, hderives, hnesting⟩

/-- What is said of the limit on nesting. -/
structure LimitsNesting (maxSize : Nat) (source : List Char) : Prop where
  /-- A document that a limit does not give up is read in the same way under a higher one. -/
  raised : ∀ limit limit', limit ≤ limit' → ¬(parseWith ⟨maxSize, limit⟩ source).NestsTooDeep limit →
    parseWith ⟨maxSize, limit'⟩ source = parseWith ⟨maxSize, limit⟩ source
  /-- There is no tree exactly when there is one error that ended the reading, and no other error. -/
  givenUp : ∀ limit, (parseWith ⟨maxSize, limit⟩ source).document? = none ↔
    ∃ e, (parseWith ⟨maxSize, limit⟩ source).errors = [e] ∧ e.cause.isTerminal = true
  /-- A document that is read without errors under some limit is read so under those that it respects. -/
  within : ∀ high d, parseWith ⟨maxSize, high⟩ source = ⟨some d, []⟩ → ∀ limit, d.nesting ≤ limit →
    parseWith ⟨maxSize, limit⟩ source = ⟨some d, []⟩
  /-- Under all others it is given up. -/
  beyond : ∀ high d, parseWith ⟨maxSize, high⟩ source = ⟨some d, []⟩ → ∀ limit, limit < d.nesting →
    (parseWith ⟨maxSize, limit⟩ source).NestsTooDeep limit

/-- **The limit on nesting is exact, and does not show otherwise.** -/
theorem parseWith_limitsNesting (maxSize : Nat) (source : List Char) : LimitsNesting maxSize source where
  raised _ _ hle h := parseWith_raised hle h
  givenUp limit := parseWith_givenUp maxSize limit source
  within high d h limit hle := by
    obtain ⟨hsize, hderives, -⟩ := parseWith_derives h
    exact parseWith_complete hsize hderives hle
  beyond high d h limit hlt := by
    obtain ⟨-, -, hnesting⟩ := parseWith_derives h
    -- were the document not given up, it would be read, and nest no deeper than the limit
    by_contra hread
    have hsame := parseWith_raised (Nat.le_trans (Nat.le_of_lt hlt) hnesting) hread
    obtain ⟨-, -, hle⟩ := parseWith_derives (hsame.symm.trans h)
    exact absurd hle (Nat.not_le_of_gt hlt)

end Document

end GraphQL
