import GraphQL.Proofs.Parser.Relocate.Document

/-!
Reading comes to its end, and no failure is silent.

The steps that a loop is given and the levels that a nested rule is given are bounds only: no document
uses them up. Each turn of a loop reads a token or is the last one, and a rule that fails says why. However
a rule ends, it leaves the parser's books as it found them.
-/

namespace GraphQL

namespace Relocation

/-- A reading in the same place, where more steps may be granted. -/
def same (env env' : ParseLimits) (hdepth : env'.maxDepth = env.maxDepth) (hend : env'.endPos = env.endPos) :
    Relocation where
  env := env
  env' := env'
  move := id
  extent := Eq
  known _ := True
  maxDepth := hdepth
  endPos p := by rw [hend]; rfl
  extent_refl _ := rfl
  spans _ _ _ _ := rfl

variable {env env' : ParseLimits} {hdepth : env'.maxDepth = env.maxDepth} {hend : env'.endPos = env.endPos}

lemma error_refl (e : ParseError) : (same env env' hdepth hend).Error e e := by
  obtain ⟨p, n, c⟩ := e
  refine ⟨rfl, ?_, rfl⟩
  cases c <;> rfl

lemma error_eq {e e' : ParseError} (h : (same env env' hdepth hend).Error e e') : e' = e := by
  obtain ⟨p, n, c⟩ := e
  obtain ⟨p', n', c'⟩ := e'
  obtain ⟨hp, hc, hn⟩ := h
  have hsame : c.relocate id = c := by cases c <;> rfl
  obtain rfl : p' = p := hp
  obtain rfl : n = n' := hn
  obtain rfl : c' = c := hc.trans hsame
  rfl

lemma state_refl {st : ParseState} (h : st.rest.length ≤ env.tokenCount)
    (h' : st.rest.length ≤ env'.tokenCount) : (same env env' hdepth hend).State st st where
  rest := ⟨(List.map_id _).symm, fun _ _ => trivial⟩
  enough := h
  enough' := h'
  errors := (errors_iff rfl).mpr (List.forall₂_same.mpr fun e _ => error_refl e)
  delimiters := (List.map_id _).symm
  depth := rfl
  endReported := rfl
  aborted := by
    cases st.aborted with
    | none => exact .none
    | some e => exact .some (error_refl e)

lemma state_eq {st st' : ParseState} (h : (same env env' hdepth hend).State st st') : st' = st := by
  obtain ⟨⟨hrest, -⟩, -, -, herrors, hdelimiters, hlevel, hended, haborted⟩ := h
  have herrors : st'.errors = st.errors := by
    refine (List.forall₂_eq_eq_eq ▸ ((errors_iff rfl).mp herrors).imp fun e e' he => ?_ : st.errors = st'.errors).symm
    exact (error_eq he).symm
  have haborted : st'.aborted = st.aborted := by
    generalize st.aborted = a at haborted
    generalize st'.aborted = a' at haborted
    cases haborted with
    | none => rfl
    | some he => rw [error_eq he]
  obtain ⟨rest, errors, delimiters, depth, ended, aborted⟩ := st
  obtain ⟨rest', errors', delimiters', depth', ended', aborted'⟩ := st'
  obtain rfl : rest' = rest := hrest.trans (List.map_id _)
  obtain rfl : delimiters' = delimiters := hdelimiters.trans (List.map_id _)
  obtain rfl : depth' = depth := hlevel
  obtain rfl : ended' = ended := hended
  subst herrors haborted
  rfl

end Relocation

namespace ParseState

/-- What holds of a state throughout a parse. -/
structure Sound (env : ParseLimits) (st : ParseState) : Prop where
  enough : st.rest.length ≤ env.tokenCount
  deep : st.depth ≤ env.maxDepth
  ended : st.endReported = true → ∃ e ∈ st.errors, e.IsAtEnd env

variable {env : ParseLimits} {st st' : ParseState}

lemma sound_start (env : ParseLimits) (ts : List Token) : Sound ⟨env.endPos, ts.length, env.maxDepth⟩ (start ts) :=
  ⟨Nat.le_refl _, Nat.zero_le _, fun h => nomatch h⟩

lemma Sound.follows (h : Sound env st) (h' : Follows env st st') : Sound env st' where
  enough := Nat.le_trans h'.length_le h.enough
  deep := h'.depth ▸ h.deep
  ended hend := by
    obtain hend | ⟨-, hat⟩ := h'.ended hend
    · obtain ⟨e, he, hat⟩ := h.ended hend
      exact ⟨e, h'.errors.subset he, hat⟩
    · exact hat

/-- A failure that is not silent: the parse was ended for good, there is a new error, or the end of the
document was complained of before. -/
def Told (env : ParseLimits) (st st' : ParseState) : Prop :=
  st'.aborted.isSome = true ∨ st.errors.length < st'.errors.length ∨ ∃ e ∈ st'.errors, e.IsAtEnd env

lemma Explained.told (hst : Sound env st) (h' : Follows env st st') (h : Explained st st') :
    Told env st st' := by
  obtain habort | hmore | hend := h
  · exact .inl habort
  · exact .inr (.inl hmore)
  · obtain ⟨e, he, hat⟩ := hst.ended hend
    exact .inr (.inr ⟨e, h'.errors.subset he, hat⟩)

/-- What a call of a rule leaves as it was, between the states before and after it. -/
structure Restored (st st' : ParseState) : Prop where
  depth : st'.depth = st.depth
  delimiters : st'.delimiters = st.delimiters
  rest : st'.rest <:+ st.rest
  /-- In the order in which they were reported, the errors from before come first. -/
  errors : st.errors.reverse <+: st'.errors.reverse

lemma Restored.refl (st : ParseState) : Restored st st :=
  ⟨rfl, rfl, List.suffix_refl _, List.prefix_refl _⟩

end ParseState

namespace Parse

open ParseState

variable {env : ParseLimits} {st : ParseState} {α : Type} {p : Parse α}

/-- Where most rules may be called. -/
def Anywhere (_ : Option Token) : Prop := True

/-- The rules of the parser: in front of what they are called, and how many tokens each of them reads
at least where it succeeds. -/
inductive Rule : (Option Token → Prop) → Nat → {α : Type} → Parse α → Prop
  | expect (k) : Rule Anywhere 1 (expect k)
  | expectKeyword (word) : Rule Anywhere 1 (expectKeyword word)
  | expectName (what) : Rule Anywhere 1 (expectName what)
  | group (c) {α : Type} {member : Parse α} : Rule Anywhere 1 member → Rule Anywhere 1 (group c member)
  | optionalGroup (c) {α : Type} {member : Parse α} :
    Rule Anywhere 1 member → Rule Anywhere 0 (optionalGroup c member)
  | variableReference (place dollar) :
    Rule (fun next => next = some dollar) 1 (variableReference place dollar)
  | namedValue (what) {value : Parse Literal} :
    Rule Anywhere 1 value → Rule Anywhere 1 (namedValue what value)
  | valueWithin (place levels) : Rule Anywhere 1 (valueWithin place levels)
  | value (place) : Rule Anywhere 1 (value place)
  | requiredMark (start t) : Rule Anywhere 0 (requiredMark start t)
  | typeRefWithin (levels) : Rule Anywhere 1 (typeRefWithin levels)
  | typeRef : Rule Anywhere 1 typeRef
  | argument (place) : Rule Anywhere 1 (argument place)
  | arguments (c place) : Rule Anywhere 0 (arguments c place)
  | directive (place) : Rule Anywhere 1 (directive place)
  | directivesFrom (place steps read) : Rule Anywhere 0 (directivesFrom place steps read)
  | directives (place) : Rule Anywhere 0 (directives place)
  | field {below : Parse SelectionSet} : Rule Anywhere 1 below → Rule Anywhere 1 (field below)
  | fragmentSelection {below : Parse SelectionSet} :
    Rule Anywhere 1 below → Rule Anywhere 1 (fragmentSelection below)
  | selection {below : Parse SelectionSet} : Rule Anywhere 1 below → Rule Anywhere 1 (selection below)
  | selectionSetWithin (levels) : Rule Anywhere 1 (selectionSetWithin levels)
  | selectionSet : Rule Anywhere 1 selectionSet
  | shorthandOperation : Rule Anywhere 1 shorthandOperation
  | defaultValue (place) : Rule Anywhere 0 (defaultValue place)
  | variableDefinition : Rule Anywhere 1 variableDefinition
  | operationName : Rule Anywhere 0 operationName
  | operationDefinition (type) : Rule Anywhere 1 (operationDefinition type)
  | fragmentDefinition : Rule Anywhere 1 fragmentDefinition
  | description : Rule Anywhere 0 description
  | inputDefinition : Rule Anywhere 1 inputDefinition
  | fieldDefinition : Rule Anywhere 1 fieldDefinition
  | enumValueDefinition : Rule Anywhere 1 enumValueDefinition
  | implementsClause : Rule Anywhere 0 implementsClause
  | unsupportedDefinition (keyword) : Rule (fun next => next.isSome) 1 (unsupportedDefinition keyword)
  | typeDefinition (desc pos) : Rule (fun next => next.isSome) 1 (typeDefinition desc pos)
  | definition : Rule (fun next => next.isSome) 1 definition

/-- **Each rule gives account of itself.** -/
lemma Rule.ran {starts : Option Token → Prop} {least : Nat} (h : Rule starts least p)
    (hst : st.rest.length ≤ env.tokenCount) (hstarts : starts st.rest.head?) :
    Ran env least st.delimiters st (p env st) := by
  induction h generalizing st with
  | expect => exact Accounted.expect _ st hst
  | expectKeyword => exact Accounted.expectKeyword _ st hst
  | expectName => exact Accounted.expectName _ st hst
  | group c _ ih => exact Accounted.group c (fun _ h => ih h trivial) st hst
  | optionalGroup c _ ih => exact Accounted.optionalGroup c (fun _ h => ih h trivial) st hst
  | variableReference place => exact Accounted.variableReference_ran place hstarts hst
  | namedValue _ _ ih => exact Accounted.namedValue _ (fun _ h => ih h trivial) st hst
  | valueWithin => exact Accounted.valueWithin _ _ st hst
  | value => exact Accounted.value _ st hst
  | requiredMark => exact Accounted.requiredMark _ _ st hst
  | typeRefWithin => exact Accounted.typeRefWithin _ st hst
  | typeRef => exact Accounted.typeRef st hst
  | argument => exact Accounted.argument _ st hst
  | arguments => exact Accounted.arguments _ _ st hst
  | directive => exact Accounted.directive _ st hst
  | directivesFrom => exact Accounted.directivesFrom _ _ _ st hst
  | directives => exact Accounted.directives _ st hst
  | field _ ih => exact Accounted.field (fun _ h => ih h trivial) st hst
  | fragmentSelection _ ih => exact Accounted.fragmentSelection (fun _ h => ih h trivial) st hst
  | selection _ ih => exact Accounted.selection (fun _ h => ih h trivial) st hst
  | selectionSetWithin => exact Accounted.selectionSetWithin _ st hst
  | selectionSet => exact Accounted.selectionSet st hst
  | shorthandOperation => exact Accounted.shorthandOperation st hst
  | defaultValue => exact Accounted.defaultValue _ st hst
  | variableDefinition => exact Accounted.variableDefinition st hst
  | operationName => exact Accounted.operationName st hst
  | operationDefinition => exact Accounted.operationDefinition _ st hst
  | fragmentDefinition => exact Accounted.fragmentDefinition st hst
  | description => exact Accounted.description st hst
  | inputDefinition => exact Accounted.inputDefinition st hst
  | fieldDefinition => exact Accounted.fieldDefinition st hst
  | enumValueDefinition => exact Accounted.enumValueDefinition st hst
  | implementsClause => exact Accounted.implementsClause st hst
  | unsupportedDefinition keyword =>
    obtain ⟨t, ht⟩ := Option.isSome_iff_exists.mp hstarts
    exact Accounted.unsupportedDefinition_ran ht hst keyword
  | typeDefinition desc pos =>
    obtain ⟨t, ht⟩ := Option.isSome_iff_exists.mp hstarts
    exact Accounted.typeDefinition_ran ht hst desc pos
  | definition =>
    obtain ⟨t, ht⟩ := Option.isSome_iff_exists.mp hstarts
    exact Accounted.definition_ran ht hst

lemma Rule.accounted {least : Nat} (h : Rule Anywhere least p) : Accounted env least p :=
  fun _ hst => h.ran hst trivial

/-- What a rule does when it is called in a state `st`. -/
structure Done (env : ParseLimits) (least : Nat) (st : ParseState) (run : Option α × ParseState) : Prop where
  sound : Sound env run.2
  rest : run.2.rest <:+ st.rest
  errors : st.errors <:+ run.2.errors
  delimiters : run.2.delimiters = st.delimiters
  depth : run.2.depth = st.depth
  reads : run.1.isSome = true → run.2.rest.length + least ≤ st.rest.length
  told : run.1 = none → Told env st run.2

lemma Rule.done {starts : Option Token → Prop} {least : Nat} (h : Rule starts least p) (hst : Sound env st)
    (hstarts : starts st.rest.head?) : Done env least st (p env st) := by
  obtain ⟨hfollows, hdelimiters, hreads, hexplained⟩ := h.ran hst.enough hstarts
  exact ⟨hst.follows hfollows, hfollows.rest, hfollows.errors, hdelimiters, hfollows.depth, hreads,
    fun hnone => (hexplained hnone).told hst hfollows⟩

/-- The level that a nested rule gives back is one that it has taken. -/
lemma Rule.depth_nested {starts : Option Token → Prop} {least : Nat} (h : Rule starts least p)
    (hst : Sound env st) (hdeep : st.depth < env.maxDepth) (hstarts : starts st.rest.head?) :
    (p env { st with depth := st.depth + 1 }).2.depth = st.depth + 1 :=
  have hsound : Sound env { st with depth := st.depth + 1 } := ⟨hst.enough, hdeep, hst.ended⟩
  (h.done hsound hstarts).depth

/-- A definition that starts with no keyword of one is left as it was found. -/
lemma typeDefinition_stepBack {t : Token} (desc : Option String) (pos : Pos) (hhead : st.rest.head? = some t)
    (ht : isTypeKeyword t.text = false) :
    typeDefinition desc pos env st = unexpected "a type definition" env st := by
  obtain ⟨ts, hts⟩ := List.head?_eq_some_iff.mp hhead
  have hback : { st with rest := t :: st.rest.tail } = st := by rw [hts, List.tail_cons, ← hts]
  unfold typeDefinition
  rw [bind_apply]
  simp only [peek, hhead]
  split
  case h_5 =>
    show unexpected _ env { st with rest := t :: st.rest.tail } = _
    rw [hback]
  all_goals
    rename_i heq
    simp [isTypeKeyword, heq] at ht

/-- Runs that do the same in the same place are the same. -/
lemma SameRun.eq {env' : ParseLimits} {hdepth : env'.maxDepth = env.maxDepth}
    {hend : env'.endPos = env.endPos} {R : α → α → Prop} {depth : Nat} {run run' : Option α × ParseState}
    (h : SameRun (.same env env' hdepth hend) R depth run run') (hR : ∀ a a', R a a' → a' = a) :
    run' = run := by
  obtain ⟨o, st⟩ := run
  obtain ⟨o', st'⟩ := run'
  obtain ⟨ho, hst, -⟩ := h
  obtain rfl : st' = st := Relocation.state_eq hst
  cases ho with
  | none => rfl
  | some ha => rw [hR _ _ ha]

/-- **The bound on levels says nothing**: with a level for each that is left, more make no
difference. -/
lemma levels_eq {run : Nat → Parse α} {relocate : (Pos → Pos) → α → α} (hid : ∀ a, relocate id a = a)
    (h : ∀ {r : Relocation} {levels n n' : Nat}, levels ≤ n → levels ≤ n' →
      Simulates r levels (r.By relocate) (run n) (run n')) (hst : Sound env st) {n n' : Nat}
    (hn : env.maxDepth ≤ st.depth + n) (hn' : env.maxDepth ≤ st.depth + n') :
    run n env st = run n' env st := by
  have hdeep := hst.deep
  have hleft : st.depth + (env.maxDepth - st.depth) = env.maxDepth := by omega
  have hsimulates : Simulates (.same env env rfl rfl) (env.maxDepth - st.depth) _ (run n) (run n') :=
    h (by omega) (by omega)
  have hsame := hsimulates st st (Relocation.state_refl hst.enough hst.enough) hleft
  exact (hsame.eq fun a a' ha => ha.trans (hid a)).symm

/-- **The bound on steps says nothing**: with a step for each token, more make no difference, and
neither do those that are granted to the loops within. -/
lemma definitions_eq {env' : ParseLimits} (hdepth : env'.maxDepth = env.maxDepth)
    (hend : env'.endPos = env.endPos) (hst : Sound env st) (henough : st.rest.length ≤ env'.tokenCount)
    {steps steps' : Nat} (hsteps : st.rest.length < steps) (hsteps' : st.rest.length < steps')
    (read : List Definition) :
    definitions steps' read env' st = definitions steps read env st := by
  have hid : ∀ ds : List Definition, ds.map (Definition.relocate id) = ds :=
    map_relocate_id Definition.relocate_id
  have hread : Simulates.Behind (.same env env' hdepth hend) [] read.reverse read.reverse := (hid _).symm
  have hdeep := hst.deep
  have hleft : st.depth + (env.maxDepth - st.depth) = env.maxDepth := by omega
  have hsame := Simulates.definitions hread (Relocation.state_refl hst.enough henough) hleft hsteps hsteps'
  exact hsame.eq fun ds ds' hds => hds.trans (hid ds)

/-! ### What a rule leaves as it was

Levels and delimiters are taken and given back along many ways out: a rule may come to its end, fail half
way, or be cut short by the nesting limit. On all of them, and from whatever state the rule was called in,
the books are as they were. -/

lemma Ran.restored {least : Nat} {run : Option α × ParseState} (h : Ran env least st.delimiters st run) :
    Restored st run.2 :=
  ⟨h.follows.depth, h.delimiters, h.follows.rest, List.reverse_prefix.mpr h.follows.errors⟩

/-! A few rules are only called in front of certain tokens. What they do in front of others, and
where no token is left, keeps the books as well. -/

lemma variableReference_restored (place : Option ConstantPlace) (dollar : Token)
    (hst : st.rest.length ≤ env.tokenCount) :
    Restored st (variableReference place dollar env st).2 := by
  have h : Accounted env 0 (variableReference place dollar) := by
    refine Accounted.advance.bind fun _ => (Accounted.expectName _).any.bind fun name => ?_
    cases place with
    | none => exact .pure _
    | some place => exact (Accounted.report _).bind fun _ => .pure _
  exact (h st hst).restored

lemma unsupportedDefinition_restored (keyword : Token) (hst : st.rest.length ≤ env.tokenCount) :
    Restored st (unsupportedDefinition keyword env st).2 := by
  have hskip : Accounted env 0 (remaining >>= fun rest => continueAt (behindUnsupported 0 rest)) :=
    .skip fun _ => behindUnsupported_suffix _ _
  have h : Accounted env 0 (unsupportedDefinition keyword) :=
    Accounted.advance.bind fun _ => (Accounted.report _).bind fun _ =>
      .ite (Accounted.advance.bind fun _ => hskip) hskip
  exact (h st hst).restored

lemma typeDefinition_restored (desc : Option String) (pos : Pos) (hst : st.rest.length ≤ env.tokenCount) :
    Restored st (typeDefinition desc pos env st).2 := by
  cases hhead : st.rest.head? with
  | none =>
    have hrun : typeDefinition desc pos env st = (none, st) := by
      simp [typeDefinition, bind_apply, peek, hhead, fail]
    rw [hrun]
    exact .refl st
  | some t => exact (Accounted.typeDefinition_ran hhead hst desc pos).restored

lemma definition_restored (hst : st.rest.length ≤ env.tokenCount) :
    Restored st (definition env st).2 := by
  cases hhead : st.rest.head? with
  | none =>
    have hrun : definition env st = (none, st) := by
      simp [definition, bind_apply, peek, hhead, fail]
    rw [hrun]
    exact .refl st
  | some t => exact (Accounted.definition_ran hhead hst).restored

/-- **Every rule leaves the books as it found them**, in every state that has no more tokens left than
the document has: whichever delimiters are open, however many levels are taken, wherever the rule is
called, and whether it succeeds, fails or ends the parse for good. -/
theorem Rule.restores {starts : Option Token → Prop} {least : Nat} (h : Rule starts least p) (env : ParseLimits)
    (st : ParseState) (hst : st.rest.length ≤ env.tokenCount) : Restored st (p env st).2 := by
  by_cases hstarts : starts st.rest.head?
  · exact (h.ran hst hstarts).restored
  -- Only the rules that are called in front of certain tokens are left.
  cases h with
  | variableReference place dollar => exact variableReference_restored place dollar hst
  | unsupportedDefinition keyword => exact unsupportedDefinition_restored keyword hst
  | typeDefinition desc pos => exact typeDefinition_restored desc pos hst
  | definition => exact definition_restored hst
  | _ => exact absurd trivial hstarts

/-- In front of lists that nest deeper than the one level there may be, within a list of arguments. -/
def cutShort : ParseState :=
  ⟨Token.lex "[[1]]".toList, [⟨.start, 1, .implementsClause⟩], [⟨.fieldArguments, .start⟩], 0, false, none⟩

theorem Rule.restores_of_cutShort :
    (Parse.value none ⟨⟨5⟩, 5, 1⟩ cutShort).2.aborted.isSome = true ∧
      Restored cutShort (Parse.value none ⟨⟨5⟩, 5, 1⟩ cutShort).2 :=
  ⟨by decide +kernel, (Rule.value none).restores ⟨⟨5⟩, 5, 1⟩ cutShort (by decide +kernel)⟩

end Parse

namespace Document

open ParseState Parse

/-- What is fixed while a source is read. -/
def limitsOf (options : ParseOptions) (source : List Char) : ParseLimits :=
  ⟨.ofOffset (byteLength source), (Token.lex source).length, options.maxDepth⟩

/-- What becomes of a reading. -/
def resultOf (run : Option (List Definition) × ParseState) : ParseResult :=
  match run.2.aborted with
  | some e => ⟨none, [e]⟩
  | none => ⟨some ⟨run.1.getD []⟩, run.2.errors.reverse⟩

lemma parseWith_eq {options : ParseOptions} {source : List Char} (h : byteLength source ≤ options.maxSize) :
    parseWith options source = resultOf (Parse.definitions ((Token.lex source).length + 1) []
      (limitsOf options source) (.start (Token.lex source))) :=
  if_neg (Nat.not_lt.mpr h)

/-- A reading that comes to its end and hides no failure. -/
structure ReadsTotally (options : ParseOptions) (source : List Char) : Prop where
  /-- However many steps are granted, the reading is the same. -/
  steps : byteLength source ≤ options.maxSize → ∀ steps tokenCount, (Token.lex source).length < steps →
    (Token.lex source).length ≤ tokenCount → parseWith options source = resultOf (Parse.definitions steps []
      { limitsOf options source with tokenCount := tokenCount } (.start (Token.lex source)))
  /-- However many levels are granted, what nests is read in the same way. -/
  levels : ∀ st, Sound (limitsOf options source) st → ∀ n n', options.maxDepth ≤ st.depth + n →
    options.maxDepth ≤ st.depth + n' →
      (∀ place, valueWithin place n (limitsOf options source) st =
        valueWithin place n' (limitsOf options source) st) ∧
      typeRefWithin n (limitsOf options source) st = typeRefWithin n' (limitsOf options source) st ∧
      selectionSetWithin n (limitsOf options source) st = selectionSetWithin n' (limitsOf options source) st
  /-- The reading is over when it was given up or all tokens are read. -/
  finished : Finished (limitsOf options source) (.start (Token.lex source))
    (Parse.definitions ((Token.lex source).length + 1) [] (limitsOf options source) (.start (Token.lex source)))
  /-- Each turn over definitions reads a token, or is the last one. -/
  definitionTurns : Repeats definitionsTurn Parse.definitions ∧
    Turns (limitsOf options source) (fun st => st.rest.length ≤ (limitsOf options source).tokenCount)
      (Finished (limitsOf options source)) definitionsTurn
  /-- Each turn over the members of a group reads a token, or is the last one. -/
  memberTurns : ∀ {α : Type} (member : Parse α), Rule Anywhere 1 member → ∀ d ds,
    Repeats (membersTurn d member) (fun steps s => members d member steps s.1 s.2) ∧
    Turns (limitsOf options source) (Inside (limitsOf options source) d ds)
      (fun st run => Ran (limitsOf options source) 1 ds st run) (membersTurn d member)
  /-- Each turn over directives reads a token, or is the last one. -/
  directiveTurns : ∀ place, Repeats (directivesTurn place) (directivesFrom place) ∧
    Turns (limitsOf options source) (fun st => st.rest.length ≤ (limitsOf options source).tokenCount)
      (fun st run => Ran (limitsOf options source) 0 st.delimiters st run) (directivesTurn place)
  /-- A skip within a group stops or steps over a token, and closes no more than was opened. -/
  memberSkip : ∀ c moved depth t ts, skipMember c moved depth (t :: ts) = t :: ts ∨
    ∃ depth' : Nat, depth' = depthBehind depth t ∧
      skipMember c moved depth (t :: ts) = skipMember c true depth' ts
  /-- The search for the next definition stops or steps over a token. -/
  definitionSkip : ∀ t ts, nextDefinition (t :: ts) = t :: ts ∨ nextDefinition (t :: ts) = nextDefinition ts
  /-- The skip of an unsupported definition stops or steps over a token. -/
  unsupportedSkip : ∀ depth t ts, behindUnsupported depth (t :: ts) = t :: ts ∨
    behindUnsupported depth (t :: ts) = ts ∨
      ∃ depth', behindUnsupported depth (t :: ts) = behindUnsupported depth' ts
  /-- A level that is given back was taken. -/
  levelBack : ∀ {α : Type} {starts least} (p : Parse α), Rule starts least p → ∀ st,
    Sound (limitsOf options source) st → st.depth < options.maxDepth → starts st.rest.head? →
      (p (limitsOf options source) { st with depth := st.depth + 1 }).2.depth = st.depth + 1
  /-- A token that is put back was read right before. -/
  stepBack : ∀ desc pos st t, st.rest.head? = some t → isTypeKeyword t.text = false →
    typeDefinition desc pos (limitsOf options source) st =
      unexpected "a type definition" (limitsOf options source) st
  /-- The reading begins in a sound state. -/
  start : Sound (limitsOf options source) (.start (Token.lex source))
  /-- Each rule keeps states sound, and where it fails, it says why. -/
  rules : ∀ {α : Type} {starts least} (p : Parse α), Rule starts least p → ∀ st,
    Sound (limitsOf options source) st → starts st.rest.head? →
      Done (limitsOf options source) least st (p (limitsOf options source) st)

/-- **Reading is total, and no failure is silent.** -/
theorem parseWith_total (options : ParseOptions) (source : List Char) : ReadsTotally options source where
  steps hfits steps tokenCount hsteps hcount := by
    have hstart : Sound (limitsOf options source) (.start (Token.lex source)) :=
      sound_start (limitsOf options source) (Token.lex source)
    let env' : ParseLimits := { limitsOf options source with tokenCount := tokenCount }
    have hdepth : env'.maxDepth = (limitsOf options source).maxDepth := rfl
    rw [parseWith_eq hfits]
    exact congrArg resultOf (definitions_eq hdepth rfl hstart hcount (Nat.lt_succ_self _) hsteps []).symm
  levels st hst n n' hn hn' :=
    ⟨fun place => levels_eq Literal.relocate_id (Simulates.valueWithin place) hst hn hn',
      levels_eq TypeRef.relocate_id Simulates.typeRefWithin hst hn hn',
      levels_eq SelectionSet.relocate_id Simulates.selectionSetWithin hst hn hn'⟩
  finished := definitions_finished (Nat.le_refl _) (Nat.lt_succ_self _)
  definitionTurns := ⟨definitions_repeats, definitions_turns⟩
  memberTurns member hm d ds := ⟨members_repeats d member, members_turns hm.accounted d ds⟩
  directiveTurns place := ⟨directives_repeats place, directives_turns place⟩
  memberSkip := skipMember_cons
  definitionSkip := nextDefinition_cons
  unsupportedSkip := behindUnsupported_cons
  levelBack _ hp _ hst hdeep hstarts := hp.depth_nested hst hdeep hstarts
  stepBack desc pos _ _ hhead ht := typeDefinition_stepBack desc pos hhead ht
  start := sound_start (limitsOf options source) (Token.lex source)
  rules _ hp _ hst hstarts := hp.done hst hstarts

end Document

end GraphQL
