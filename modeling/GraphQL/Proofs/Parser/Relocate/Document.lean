import GraphQL.Proofs.Parser.Progress
import GraphQL.Proofs.Parser.Relocate.Group

/-!
Documents that are read elsewhere.

Each rule of the parser makes the same of the same tokens, wherever they stand. So a document that is
moved is read as before, and what is made of it is moved.
-/

namespace GraphQL

namespace Parse

open ParseState

variable {r : Relocation} {levels : Nat}

namespace Simulates

section

variable {α β : Type} {S : β → β → Prop} {p p' : Parse α} {g : (Pos → Pos) → α → α}

lemma bind_by {f f' : α → Parse β} (hp : Simulates r levels (r.By g) p p')
    (hf : ∀ a, Simulates r levels S (f a) (f' (g r.move a))) :
    Simulates r levels S (p >>= f) (p' >>= f') :=
  hp.bind fun a _ h => h ▸ hf a

lemma expect_by (k : TokenKind) : Simulates r levels (r.By Token.relocate) (Parse.expect k) (Parse.expect k) :=
  (expect k).mono fun _ _ h => h.2

lemma expectKeyword_by (word : String) :
    Simulates r levels (r.By Token.relocate) (Parse.expectKeyword word) (Parse.expectKeyword word) :=
  (expectKeyword word).mono fun _ _ h => h.2

lemma forall₂_by {as as' : List α} (h : List.Forall₂ (r.By g) as as') : as' = as.map (g r.move) := by
  induction h with
  | nil => rfl
  | cons ha _ ih => rw [ih, List.map_cons, ha]

lemma group_by (c : Construct) (hm : Simulates r levels (r.By g) p p') (hread : Accounted r.env 1 p) :
    Simulates r levels (r.By fun move out => (out.1.map (g move), move out.2)) (Parse.group c p)
      (Parse.group c p') :=
  (group c hm hread).mono fun _ _ h => Prod.ext (forall₂_by h.1) h.2

lemma optionalGroup_by (c : Construct) (hm : Simulates r levels (r.By g) p p')
    (hread : Accounted r.env 1 p) :
    Simulates r levels (r.By fun move => List.map (g move)) (Parse.optionalGroup c p)
      (Parse.optionalGroup c p') :=
  (optionalGroup c hm hread).mono fun _ _ h => forall₂_by h

end

/-! ### Values, types and directives -/

lemma variableReference (place : Option ConstantPlace) (dollar : Token) :
    Simulates r levels (r.By Literal.relocate) (variableReference place dollar)
      (variableReference place (dollar.relocate r.move)) := by
  refine advance.bind fun _ _ _ => (expectName _).bind_by fun name => ?_
  cases place with
  | none => exact pure rfl
  | some place => exact bind (report .refl) fun _ _ _ => pure rfl

lemma namedValue (what : String) {v v' : Parse Literal} (hv : Simulates r levels (r.By Literal.relocate) v v') :
    Simulates r levels (r.By fun move f => (f.1.relocate move, f.2.relocate move)) (namedValue what v)
      (namedValue what v') :=
  (expectName what).bind_by fun _ => (discard (expect .colon)).bind fun _ _ _ => hv.bind_by fun _ => pure rfl

lemma literalOfName_relocate (move : Pos → Pos) (t : Token) :
    literalOfName (t.relocate move) = (literalOfName t).relocate move := by
  unfold literalOfName
  rw [Token.relocate_text]
  split <;> rfl

lemma valueWithin (place : Option ConstantPlace) {fuel fuel' : Nat} (h : levels ≤ fuel) (h' : levels ≤ fuel') :
    Simulates r levels (r.By Literal.relocate) (valueWithin place fuel) (valueWithin place fuel') := by
  refine of_levels rfl rfl (fun fuel fuel' => ⟨_, _, rfl, rfl, fun levels hv => ?_⟩) h h'
  refine peek_bind (unexpected _) fun t ht => ?_
  dsimp only [Token.relocate_kind]
  cases t.kind with
  | dollar => exact variableReference place t
  | int | float => exact advance.bind fun _ _ _ => pure rfl
  | name => exact advance.bind fun _ _ _ => pure (literalOfName_relocate _ _)
  | string | blockString => exact advance.bind fun _ _ _ => (cook t).bind fun _ _ h => h ▸ pure rfl
  | bracketOpen =>
    refine (group_by .listValue hv (.valueWithin _ _)).bind_by fun out => pure ?_
    show _ = _
    rw [Literal.relocate, Literal.relocateItems_eq]
  | braceOpen =>
    refine (group_by .objectValue (namedValue _ hv) (.namedValue _ (.valueWithin _ _))).bind_by fun out =>
      pure ?_
    show _ = _
    rw [Literal.relocate, Literal.relocateFields_eq]
  | _ => exact unexpected _

lemma value (place : Option ConstantPlace) :
    Simulates r levels (r.By Literal.relocate) (value place) (value place) :=
  of_allLevels fun h h' => valueWithin place h h'

lemma requiredMark (start : Pos) (t : TypeRef) :
    Simulates r levels (r.By TypeRef.relocate) (requiredMark start t)
      (requiredMark (r.move start) (t.relocate r.move)) :=
  nextIs_bind (advance.bind fun _ _ _ => pure rfl) (pure rfl)

lemma typeRefWithin {fuel fuel' : Nat} (h : levels ≤ fuel) (h' : levels ≤ fuel') :
    Simulates r levels (r.By TypeRef.relocate) (typeRefWithin fuel) (typeRefWithin fuel') := by
  refine of_levels rfl rfl (fun fuel fuel' => ⟨_, _, rfl, rfl, fun levels hv => ?_⟩) h h'
  refine here.bind fun start _ hstart => hstart ▸ nextIs_bind ?_ ?_
  · refine (expect_by .bracketOpen).bind_by fun opening => (openDelimiter rfl).bind fun _ _ _ => ?_
    refine (attempt (hv.bind_by fun t => (discard (expect .bracketClose)).bind fun _ _ _ =>
      pure (R := r.By TypeRef.relocate) rfl)).bind fun o o' ho => closeDelimiter.bind fun _ _ _ => ?_
    cases ho with
    | none => exact fail
    | some ht => exact ht ▸ requiredMark start _
  · exact (expectName _).bind_by fun name => requiredMark start (.named name)

lemma typeRef : Simulates r levels (r.By TypeRef.relocate) typeRef typeRef :=
  of_allLevels fun h h' => typeRefWithin h h'

lemma argument (place : Option ConstantPlace) :
    Simulates r levels (r.By Argument.relocate) (argument place) (argument place) :=
  (namedValue _ (value place)).bind_by fun _ => pure rfl

lemma arguments (c : Construct) (place : Option ConstantPlace) :
    Simulates r levels (r.By fun move => List.map (Argument.relocate move)) (arguments c place)
      (arguments c place) :=
  optionalGroup_by c (argument place) (.argument place)

lemma directive (place : Option ConstantPlace) :
    Simulates r levels (r.By Directive.relocate) (directive place) (directive place) :=
  (expect_by .atSign).bind_by fun _ => (expectName _).bind_by fun _ => (arguments _ place).bind_by fun _ =>
    pure rfl

lemma directives (place : Option ConstantPlace) :
    Simulates r levels (r.By fun move => List.map (Directive.relocate move)) (directives place)
      (directives place) := by
  have hturn : ∀ read read' : List Directive, List.Forall₂ (r.By Directive.relocate) read read' →
      Simulates r levels (Sum.LiftRel (List.Forall₂ (r.By Directive.relocate))
        (r.By fun move => List.map (Directive.relocate move))) (directivesTurn place read)
        (directivesTurn place read') := fun read read' h => by
    refine nextIs_bind ((directive place).bind fun d d' hd => pure (.inl (.cons hd h))) (pure (.inr ?_))
    rw [forall₂_by h]
    exact List.map_reverse.symm
  refine limits_bind fun st st' hst hdepth => ?_
  have henough : st'.rest.length ≤ r.env'.tokenCount := hst.rest.length_eq ▸ hst.enough'
  have hrun := directivesFrom_succ place [] hst.enough hst.enough
  have hrun' := directivesFrom_succ place [] henough henough
  rw [hrun, hrun']
  exact loop (directives_turns place) (directives_repeats place) (directives_repeats place) hturn .nil hst
    hst.enough hdepth (Nat.lt_succ_of_le hst.enough) (Nat.lt_succ_of_le hst.enough')

/-! ### Selections and operations -/

variable {below below' : Parse SelectionSet}

lemma field (hbelow : Simulates r levels (r.By SelectionSet.relocate) below below') :
    Simulates r levels (r.By Selection.relocate) (field below) (field below') := by
  have haliased : ∀ first : Name, Simulates r levels
      (r.By fun move out => (out.1.map (Name.relocate move), out.2.relocate move)) (field.aliased first)
      (field.aliased (first.relocate r.move)) := fun first =>
    nextIs_bind (advance.bind fun _ _ _ => (expectName _).bind_by fun _ => pure rfl) (pure rfl)
  refine (expectName _).bind_by fun first => (haliased first).bind_by fun _ => (arguments _ none).bind_by fun _ =>
    (directives none).bind_by fun _ => nextIs_bind (hbelow.bind_by fun _ => pure ?_) (pure ?_)
  · rfl
  · rfl

lemma fragmentSelection (hbelow : Simulates r levels (r.By SelectionSet.relocate) below below') :
    Simulates r levels (r.By Selection.relocate) (fragmentSelection below) (fragmentSelection below') := by
  have hinline : ∀ (p : Pos) (condition : Option Name), Simulates r levels (r.By Selection.relocate)
      (fragmentSelection.inlineFragment below p condition)
      (fragmentSelection.inlineFragment below' (r.move p) (condition.map (Name.relocate r.move))) :=
    fun _ _ => (directives none).bind_by fun _ => hbelow.bind_by fun _ => pure rfl
  refine (expect_by _).bind_by fun points => peek_bind (hinline _ none) fun t _ => ?_
  refine ite Iff.rfl ?_ (ite Iff.rfl ?_ (hinline _ none))
  · exact advance.bind fun _ _ _ => (expectName _).bind_by fun condition => hinline _ (some condition)
  · exact advance.bind fun _ _ _ => (directives none).bind_by fun _ => pure rfl

lemma selection (hbelow : Simulates r levels (r.By SelectionSet.relocate) below below') :
    Simulates r levels (r.By Selection.relocate) (selection below) (selection below') := by
  refine peek_bind (unexpected _) fun t _ => ?_
  dsimp only [Token.relocate_kind]
  cases t.kind with
  | ellipsis => exact fragmentSelection hbelow
  | name => exact field hbelow
  | _ => exact unexpected _

lemma selectionSetWithin {fuel fuel' : Nat} (h : levels ≤ fuel) (h' : levels ≤ fuel') :
    Simulates r levels (r.By SelectionSet.relocate) (selectionSetWithin fuel) (selectionSetWithin fuel') := by
  refine of_levels rfl rfl (fun fuel fuel' => ⟨_, _, rfl, rfl, fun levels hv => ?_⟩) h h'
  refine (group_by .selectionSet (selection hv) (.selection (.selectionSetWithin _))).bind_by fun out =>
    pure ?_
  show _ = _
  rw [SelectionSet.relocate, relocateSelections_eq]

lemma selectionSet : Simulates r levels (r.By SelectionSet.relocate) selectionSet selectionSet :=
  of_allLevels fun h h' => selectionSetWithin h h'

lemma shorthandOperation :
    Simulates r levels (r.By OperationDefinition.relocate) shorthandOperation shorthandOperation :=
  here.bind fun _ _ h => selectionSet.bind_by fun _ => h ▸ pure rfl

lemma defaultValue (place : ConstantPlace) :
    Simulates r levels (r.By fun move => Option.map (Literal.relocate move)) (defaultValue place)
      (defaultValue place) :=
  nextIs_bind (advance.bind fun _ _ _ => (value _).bind_by fun _ => pure rfl) (pure rfl)

lemma variableDefinition :
    Simulates r levels (r.By VariableDefinition.relocate) variableDefinition variableDefinition :=
  (expect_by .dollar).bind_by fun _ => (expectName _).bind_by fun _ => (discard (expect .colon)).bind fun _ _ _ =>
    typeRef.bind_by fun _ => (defaultValue _).bind_by fun _ => (directives _).bind_by fun _ => pure rfl

lemma operationName :
    Simulates r levels (r.By fun move => Option.map (Name.relocate move)) operationName operationName :=
  nextIs_bind ((expectName _).bind_by fun _ => pure rfl) (pure rfl)

lemma operationDefinition (type : OperationType) :
    Simulates r levels (r.By OperationDefinition.relocate) (operationDefinition type)
      (operationDefinition type) :=
  (expectKeyword_by _).bind_by fun _ => operationName.bind_by fun _ =>
    (optionalGroup_by _ variableDefinition .variableDefinition).bind_by fun _ =>
      (directives none).bind_by fun _ => selectionSet.bind_by fun _ => pure rfl

lemma fragmentDefinition :
    Simulates r levels (r.By FragmentDefinition.relocate) fragmentDefinition fragmentDefinition := by
  refine (expectKeyword_by _).bind_by fun keyword => (expectName _).bind_by fun name => ?_
  refine reported Iff.rfl .refl ((discard (expectKeyword _)).bind fun _ _ _ => (expectName _).bind_by fun _ =>
    (directives none).bind_by fun _ => selectionSet.bind_by fun _ => pure rfl)

/-! ### Type definitions -/

lemma description : Simulates r levels Eq description description :=
  peek_bind (pure rfl) fun t _ =>
    ite Iff.rfl (advance.bind fun _ _ _ => (cook t).bind fun _ _ h => h ▸ pure rfl) (pure rfl)

lemma inputDefinition : Simulates r levels (r.By InputDefinition.relocate) inputDefinition inputDefinition :=
  here.bind fun _ _ hp => description.bind fun _ _ hdesc => (expectName _).bind_by fun _ =>
    (discard (expect .colon)).bind fun _ _ _ => typeRef.bind_by fun _ => (defaultValue _).bind_by fun _ =>
      (directives _).bind_by fun _ => hp ▸ hdesc ▸ pure rfl

lemma fieldDefinition : Simulates r levels (r.By FieldDefinition.relocate) fieldDefinition fieldDefinition :=
  here.bind fun _ _ hp => description.bind fun _ _ hdesc => (expectName _).bind_by fun _ =>
    (optionalGroup_by _ inputDefinition .inputDefinition).bind_by fun _ =>
      (discard (expect .colon)).bind fun _ _ _ => typeRef.bind_by fun _ => (directives _).bind_by fun _ =>
        hp ▸ hdesc ▸ pure rfl

lemma enumValueDefinition :
    Simulates r levels (r.By EnumValueDefinition.relocate) enumValueDefinition enumValueDefinition :=
  here.bind fun _ _ hp => description.bind fun _ _ hdesc => (expectName _).bind_by fun _ =>
    reported Iff.rfl .refl ((directives _).bind_by fun _ => hp ▸ hdesc ▸ pure rfl)

lemma implementsClause : Simulates r levels (fun _ _ => True) implementsClause implementsClause := by
  refine peek_bind (pure trivial) fun t _ => ite Iff.rfl ?_ (pure trivial)
  refine advance.bind fun _ _ _ => (report .refl).bind fun _ _ _ => ?_
  exact skip (fun _ => List.dropWhile_suffix _) fun ts => List.dropWhile_map ..

end Simulates

section

variable (move : Pos → Pos)

lemma startsDefinition_relocate (word : String) (next : Option Token) :
    startsDefinition word (next.map (Token.relocate move)) = startsDefinition word next := by
  cases next <;> rfl

lemma atDefinition_relocate (t : Token) (ts : List Token) :
    atDefinition (t.relocate move) (ts.map (Token.relocate move)) = atDefinition t ts := by
  rcases ts with _ | ⟨next, _ | ⟨after, ts⟩⟩ <;> rfl

lemma nextDefinition_relocate (ts : List Token) :
    nextDefinition (ts.map (Token.relocate move)) = (nextDefinition ts).map (Token.relocate move) := by
  induction ts with
  | nil => rfl
  | cons t ts ih =>
    rw [List.map_cons, nextDefinition_eq, nextDefinition_eq, atDefinition_relocate, ih]
    split <;> rfl

lemma behindUnsupported_relocate (depth : Nat) (ts : List Token) :
    behindUnsupported depth (ts.map (Token.relocate move)) =
      (behindUnsupported depth ts).map (Token.relocate move) := by
  induction ts generalizing depth with
  | nil => rfl
  | cons t ts ih =>
    rw [List.map_cons, behindUnsupported, behindUnsupported, List.head?_map, startsDefinition_relocate,
      Token.relocate_kind, Token.relocate_text, ih, ih, ih]
    split
    · rfl
    split
    · rfl
    split
    · split <;> rfl
    · rfl

end

namespace Simulates

lemma unsupportedDefinition (keyword : Token) :
    Simulates r levels (fun _ _ => True) (unsupportedDefinition keyword)
      (unsupportedDefinition (keyword.relocate r.move)) := by
  have hskip : Simulates r levels (fun _ _ => True)
      (Parse.remaining >>= fun rest => continueAt (behindUnsupported 0 rest))
      (Parse.remaining >>= fun rest => continueAt (behindUnsupported 0 rest)) :=
    skip (fun _ => behindUnsupported_suffix _ _) (behindUnsupported_relocate r.move 0)
  exact advance.bind fun _ _ _ => (report .refl).bind fun _ _ _ =>
    ite Iff.rfl (advance.bind fun _ _ _ => hskip) hskip

/-- Two parses that do the same behind a token that was stepped over. -/
def AfterToken (r : Relocation) (levels : Nat) {α α' : Type} (R : α → α' → Prop) (t : Token) (p : Parse α)
    (p' : Parse α') : Prop :=
  ∀ st st', r.State st st' → st.rest.head? = some t → st.depth + levels = r.env.maxDepth →
    SameRun r R st.depth (p r.env { st with rest := st.rest.tail })
      (p' r.env' { st' with rest := st'.rest.tail })

section

variable {α α' : Type} {R : α → α' → Prop} {p : Parse α} {p' : Parse α'} {t : Token}

lemma behind (hp : Simulates r levels R p p') : AfterToken r levels R t p p' := fun _ _ hst _ hdepth =>
  hp _ _ (hst.moved hst.rest.tail (List.tail_suffix _).length_le hst.delimiters) hdepth

/-- Where the token is put back, it is as if it had not been stepped over. -/
lemma stepBack_behind (hp : Simulates r levels R p p') :
    AfterToken r levels R t (stepBack t >>= fun _ => p) (stepBack (t.relocate r.move) >>= fun _ => p') := by
  intro st st' hst hhead hdepth
  obtain ⟨ts, hts⟩ := List.head?_eq_some_iff.mp hhead
  have hts' : st'.rest = t.relocate r.move :: ts.map (Token.relocate r.move) := by
    rw [hst.rest.moved, hts, List.map_cons]
  have hback : { st with rest := t :: st.rest.tail } = st := by rw [hts, List.tail_cons, ← hts]
  have hback' : { st' with rest := t.relocate r.move :: st'.rest.tail } = st' := by
    rw [hts', List.tail_cons, ← hts']
  show SameRun r R st.depth (p r.env { st with rest := t :: st.rest.tail })
    (p' r.env' { st' with rest := t.relocate r.move :: st'.rest.tail })
  rw [hback, hback']
  exact hp st st' hst hdepth

/-- A step over the next token, if there is one. -/
lemma peek_advance {f f' : Option Token → Parse α} {g g' : Token → Parse α} {S : α → α → Prop}
    (hnone : Simulates r levels S (f none) (f' none))
    (hf : ∀ t, f (some t) = Parse.advance >>= fun _ => g t)
    (hf' : ∀ t, f' (some t) = Parse.advance >>= fun _ => g' t)
    (hsome : ∀ t, AfterToken r levels S t (g t) (g' (t.relocate r.move))) :
    Simulates r levels S (Parse.peek >>= f) (Parse.peek >>= f') := by
  intro st st' hst hdepth
  show SameRun r S st.depth (f st.rest.head? r.env st) (f' st'.rest.head? r.env' st')
  rw [hst.rest.moved, List.head?_map]
  cases hnext : st.rest.head? with
  | none => exact hnone st st' hst hdepth
  | some t =>
    rw [Option.map_some, hf, hf']
    exact hsome t st st' hst hnext hdepth

end

lemma typeDefinition {p p' : Pos} (hp : p' = r.move p) {desc desc' : Option String} (hdesc : desc = desc') :
    Simulates r levels (r.By TypeDefinition.relocate) (typeDefinition desc p) (typeDefinition desc' p') := by
  subst hp hdesc
  refine peek_advance fail (fun _ => rfl) (fun _ => rfl) fun t => ?_
  dsimp only [Token.relocate_text]
  split
  · exact behind <| (expectName _).bind_by fun _ => (directives _).bind_by fun _ => pure rfl
  · exact behind <| (expectName _).bind_by fun _ => implementsClause.bind fun _ _ _ =>
      (directives _).bind_by fun _ => (optionalGroup_by _ fieldDefinition .fieldDefinition).bind_by fun _ =>
        pure rfl
  · exact behind <| (expectName _).bind_by fun _ => (directives _).bind_by fun _ =>
      (optionalGroup_by _ enumValueDefinition .enumValueDefinition).bind_by fun _ => pure rfl
  · exact behind <| (expectName _).bind_by fun _ => (directives _).bind_by fun _ =>
      (optionalGroup_by _ inputDefinition .inputDefinition).bind_by fun _ => pure rfl
  · exact stepBack_behind (unexpected _)

/-! ### Definitions -/

lemma definition :
    Simulates r levels (r.By fun move => Option.map (Definition.relocate move)) definition definition := by
  refine peek_bind fail fun t _ => ?_
  dsimp only [Token.relocate_kind, Token.relocate_text, Token.relocate_start]
  cases t.kind with
  | braceOpen => exact shorthandOperation.bind_by fun _ => pure rfl
  | string | blockString =>
    refine description.bind fun desc _ hdesc => peek_bind (unexpected _) fun next _ => ?_
    refine ite Iff.rfl ((typeDefinition rfl hdesc).bind_by fun _ => pure rfl) (ite Iff.rfl ?_ (unexpected _))
    exact (unsupportedDefinition next).bind fun _ _ _ => pure rfl
  | name =>
    dsimp only
    cases OperationType.ofKeyword? t.text with
    | some type => exact (operationDefinition type).bind_by fun _ => pure rfl
    | none =>
      refine ite Iff.rfl (fragmentDefinition.bind_by fun _ => pure rfl) (ite Iff.rfl ?_ (ite Iff.rfl ?_ ?_))
      · exact (typeDefinition rfl rfl).bind_by fun _ => pure rfl
      · exact (unsupportedDefinition t).bind fun _ _ _ => pure rfl
      · exact unexpected _
  | _ => exact unexpected _

lemma behindFailed_relocate (move : Pos → Pos) (before rest : List Token) :
    behindFailed (before.map (Token.relocate move)) (rest.map (Token.relocate move)) =
      (behindFailed before rest).map (Token.relocate move) := by
  unfold behindFailed
  rw [List.length_map, List.length_map]
  split
  · exact List.map_tail.symm
  · rfl

lemma recoverDefinition {before before' : List Token} (h : r.Tokens before before') :
    Simulates r levels (fun _ _ => True) (recoverDefinition before) (recoverDefinition before') := by
  intro st st' hst _
  have hkept := behindFailed_suffix before st.rest
  rw [recoverDefinition_apply, recoverDefinition_apply]
  have hskipped : r.Tokens (nextDefinition (behindFailed before st.rest))
      (nextDefinition (behindFailed before' st'.rest)) :=
    ⟨by rw [hst.rest.moved, h.moved, behindFailed_relocate, nextDefinition_relocate],
      fun t ht => hst.rest.known t (hkept.subset ht)⟩
  exact ⟨.some trivial, hst.moved hskipped hkept.length_le rfl, rfl⟩

/-- Definitions that were read in both places, behind others that were read in the second one only. -/
def Behind (r : Relocation) (before ds ds' : List Definition) : Prop :=
  ds' = before ++ ds.map (Definition.relocate r.move)

lemma definitionsTurn {before read read' : List Definition} (h : Behind r before read.reverse read'.reverse) :
    Simulates r levels (Sum.LiftRel (fun read read' => Behind r before read.reverse read'.reverse)
      (Behind r before)) (definitionsTurn read) (definitionsTurn read') := by
  refine remaining.bind fun left left' hleft => isAborted.bind fun aborted _ haborted => ?_
  have hempty : left'.isEmpty = left.isEmpty := by
    rw [hleft.moved]
    cases left <;> rfl
  subst haborted
  rw [hempty]
  refine ite Iff.rfl (pure (.inr h)) (definition.attempt.bind fun o o' ho => ?_)
  cases ho with
  | none => exact (recoverDefinition hleft).bind fun _ _ _ => pure (.inl h)
  | @some o o' ho =>
    subst ho
    cases o with
    | none => exact pure (.inl h)
    | some d =>
      refine pure (.inl ?_)
      show _ = _
      rw [List.reverse_cons, h, List.reverse_cons, List.map_append, List.append_assoc]
      rfl

/-- **The same tokens make the same document**, wherever they stand, whatever was read before, and
however many steps are granted. -/
theorem definitions {before read read' : List Definition} {steps steps' : Nat} {st st' : ParseState}
    (hread : Behind r before read.reverse read'.reverse) (hst : r.State st st')
    (hdepth : st.depth + levels = r.env.maxDepth) (hsteps : st.rest.length < steps)
    (hsteps' : st.rest.length < steps') :
    SameRun r (Behind r before) st.depth (Parse.definitions steps read r.env st)
      (Parse.definitions steps' read' r.env' st') :=
  loop definitions_turns definitions_repeats definitions_repeats (fun _ _ h => definitionsTurn h) hread hst
    hst.enough hdepth hsteps hsteps'

end Simulates

end Parse

end GraphQL
