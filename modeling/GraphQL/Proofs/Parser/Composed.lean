import GraphQL.Proofs.Parser.Prefix
import GraphQL.Proofs.Parser.Total
import GraphQL.Proofs.Token.Joined

/-!
Documents one behind the other.

Behind a document without errors that ends with a brace, another text is read as if it stood alone. What
is made of it and what is wrong with it is the same, only further on.
-/

namespace GraphQL

/-- What is read behind a document, and moved by that. -/
def ParseResult.behind (r : ParseResult) (d : Document) (move : Pos → Pos) : ParseResult :=
  ⟨r.document?.map fun e => ⟨d.definitions ++ e.definitions.map (Definition.relocate move)⟩,
    r.errors.map (ParseError.relocate move)⟩

namespace Relocation

/-- A token that `n` bytes further on still ends at a place of its own. -/
def FitsBehind (n : Nat) (t : GraphQL.Token) : Prop := t.start.offset + t.text.utf8ByteSize + n ≤ Pos.maxOffset

/-- A reading `n` bytes further on. -/
def further (env env' : ParseLimits) (n : Nat) (hdepth : env'.maxDepth = env.maxDepth)
    (hend : env'.endPos = env.endPos.shift n) : Relocation where
  env := env
  env' := env'
  move := Pos.shift n
  extent := Eq
  known := FitsBehind n
  maxDepth := hdepth
  endPos p := by
    rw [hend]
    exact (Pos.shift_injective n).eq_iff
  extent_refl _ := rfl
  spans t u ht hu := by
    unfold FitsBehind at ht hu
    unfold Token.stop Token.relocate Pos.shift Pos.ofOffset
    dsimp only
    omega

variable {env env' : ParseLimits} {n : Nat} {hdepth : env'.maxDepth = env.maxDepth}
  {hend : env'.endPos = env.endPos.shift n}

lemma error_further {e e' : ParseError} (h : (further env env' n hdepth hend).Error e e') :
    e' = e.relocate (Pos.shift n) := by
  obtain ⟨p', extent', cause'⟩ := e'
  obtain ⟨hpos, hcause, hextent⟩ := h
  dsimp only at hpos hcause hextent
  rw [hpos, hcause, ← show e.extent = extent' from hextent]
  rfl

lemma errors_further {es es' : List ParseError} (h : List.Forall₂ (further env env' n hdepth hend).Error es es') :
    es' = es.map (ParseError.relocate (Pos.shift n)) := by
  induction h with
  | nil => rfl
  | cons he _ ih => rw [ih, error_further he, List.map_cons]

end Relocation

namespace Document

open Grammar Parse ParseState

variable {o : ParseOptions} {P S : List Char} {d : Document}

/-- Two runs that did the same make the same, further on. -/
lemma resultOf_further {env env' : ParseLimits} {n : Nat} {hdepth : env'.maxDepth = env.maxDepth}
    {hend : env'.endPos = env.endPos.shift n} {before : List Definition} {depth : Nat}
    {run run' : Option (List Definition) × ParseState}
    (h : SameRun (.further env env' n hdepth hend) (Simulates.Behind (.further env env' n hdepth hend) before)
      depth run run') (hmade : run.1.isSome = true) :
    resultOf run' = (resultOf run).behind ⟨before⟩ (Pos.shift n) := by
  obtain ⟨o, st⟩ := run
  obtain ⟨o', st'⟩ := run'
  obtain ⟨hmade', hst, -⟩ := h
  have herrors := Relocation.errors_further ((Relocation.errors_iff rfl).mp hst.errors)
  have haborted := hst.aborted
  dsimp only at hmade hmade' herrors haborted
  unfold resultOf ParseResult.behind
  dsimp only
  generalize st.aborted = a at haborted
  generalize st'.aborted = a' at haborted
  cases haborted with
  | some he => rw [Relocation.error_further he]; rfl
  | none =>
    cases hmade' with
    | none => exact absurd hmade Bool.false_ne_true
    | some hds =>
      dsimp only
      rw [herrors, ← List.map_reverse, Option.getD_some, Option.getD_some, hds]
      rfl

/-- Tokens that stand further on, and behind other definitions, are read in the same way. -/
lemma definitions_further {env env' : ParseLimits} {n steps steps' : Nat} (before : List Definition)
    {ts : List Token} (hdepth : env'.maxDepth = env.maxDepth) (hend : env'.endPos = env.endPos.shift n)
    (hfits : ∀ t ∈ ts, Relocation.FitsBehind n t) (hcount : ts.length ≤ env.tokenCount)
    (hcount' : ts.length ≤ env'.tokenCount) (hsteps : ts.length < steps) (hsteps' : ts.length < steps') :
    resultOf (Parse.definitions steps' before.reverse env' (.start (ts.map (Token.relocate (Pos.shift n))))) =
      (resultOf (Parse.definitions steps [] env (.start ts))).behind ⟨before⟩ (Pos.shift n) := by
  let r : Relocation := .further env env' n hdepth hend
  have hstate : r.State (.start ts) (.start (ts.map (Token.relocate (Pos.shift n)))) :=
    ⟨⟨rfl, hfits⟩, hcount, hcount', .nil, rfl, rfl, rfl, .none⟩
  have hread : Simulates.Behind r before ([] : List Definition).reverse before.reverse.reverse := by
    rw [List.reverse_reverse]
    exact (List.append_nil _).symm
  have hlevels : (ParseState.start ts).depth + env.maxDepth = r.env.maxDepth := Nat.zero_add _
  have hfinished : Finished env (.start ts) (Parse.definitions steps [] env (.start ts)) :=
    definitions_finished hcount hsteps
  exact resultOf_further (Simulates.definitions hread hstate hlevels hsteps hsteps') hfinished.made

lemma byteLength_joined (P S : List Char) :
    byteLength (P ++ '\n' :: S) = byteLength S + (byteLength P + 1) := by
  have hnewline : ('\n' : Char).utf8Size = 1 := rfl
  rw [byteLength_append, byteLength_cons, hnewline]
  omega

/-- The tokens of a text on a line of its own, behind a text that leaves no string open. -/
lemma lex_line (hlast : ∀ t ∈ (Token.lex P).getLast?, t.kind ≠ .blockString)
    (hplaces : byteLength (P ++ '\n' :: S) ≤ Pos.maxOffset) :
    Token.lex (P ++ '\n' :: S) =
      Token.lex P ++ (Token.lex S).map (Token.relocate (Pos.shift (byteLength P + 1))) := by
  rw [byteLength_joined] at hplaces
  unfold Token.lex at hlast ⊢
  rw [Token.lexFrom_line S 0 P hlast, Nat.add_assoc, Token.lexFrom_shift 0 _ S (by omega)]

/-- The tokens of a text that follows a document. -/
lemma lex_joined (hends : EndsWithBrace (Token.lex P)) (hplaces : byteLength (P ++ '\n' :: S) ≤ Pos.maxOffset) :
    Token.lex (P ++ '\n' :: S) =
      Token.lex P ++ (Token.lex S).map (Token.relocate (Pos.shift (byteLength P + 1))) := by
  refine lex_line (fun t' ht' => ?_) hplaces
  obtain ⟨t, ht, hk⟩ := hends
  obtain rfl : t' = t := Option.mem_unique ht' ht
  rw [hk]
  exact TokenKind.noConfusion

lemma fitsBehind {n : Nat} (hplaces : byteLength S + n ≤ Pos.maxOffset) :
    ∀ t ∈ Token.lex S, Relocation.FitsBehind n t := by
  intro t ht
  have hcut : Token.IsCut 0 S (Token.lex S) := Token.lexFrom_isCut 0 S (by omega)
  obtain ⟨-, -, front, behind, hS, hstart⟩ := Token.IsCut.member [] hcut ht
  have hlength := congrArg byteLength hS
  rw [List.nil_append, byteLength_append, byteLength_append, byteLength_eq_utf8ByteSize t.text.toList,
    String.ofList_toList] at hlength
  unfold Relocation.FitsBehind
  omega

/-- Behind the definitions of a document, the reading goes on as it would begin there. -/
lemma definitions_joined {env : ParseLimits} {ts more : List Token} {steps : Nat} (h : IsDocument ts d)
    (hnesting : d.nesting ≤ env.maxDepth) (hends : EndsWithBrace ts)
    (hcount : (ts ++ more).length ≤ env.tokenCount) (hsteps : (ts ++ more).length < steps) :
    Parse.definitions steps [] env (.start (ts ++ more)) =
      Parse.definitions steps d.definitions.reverse env (.start more) := by
  have hsound : Sound env (.start (ts ++ more)) := ⟨hcount, Nat.zero_le _, fun h => nomatch h⟩
  have hmore : Parse.definitions (steps + d.definitions.length) [] env (.start (ts ++ more)) =
      Parse.definitions steps [] env (.start (ts ++ more)) :=
    definitions_eq rfl rfl hsound hcount hsteps (Nat.lt_add_right _ hsteps) []
  have hprefix : Parse.definitions (steps + d.definitions.length) [] env (.start (ts ++ more)) =
      Parse.definitions steps (d.definitions.reverse ++ []) env (.start more) :=
    definitions_prefix (isDocument_within.mp ⟨h, hnesting⟩) hends hcount (Nat.zero_add env.maxDepth)
  rw [← hmore, hprefix, List.append_nil]

/-- **Parsing goes definition by definition.** Behind a document without errors whose last token is a
closing brace, and a line end, a text is read as it is read alone: the definitions are those of the
document and behind them those of the text, the errors are those of the text, and what is made of the
text and reported about it stands as many bytes further on as are in front of it. -/
theorem parseWith_joined (o : ParseOptions) (P S : List Char) (hvalid : (parseWith o P).errors = [])
    (hends : EndsWithBrace (Token.lex P)) (hsize : byteLength (P ++ '\n' :: S) ≤ o.maxSize)
    (hplaces : byteLength (P ++ '\n' :: S) ≤ Pos.maxOffset) :
    ∃ d, parseWith o P = ⟨some d, []⟩ ∧
      parseWith o (P ++ '\n' :: S) = (parseWith o S).behind d (Pos.shift (byteLength P + 1)) ∧
      ((parseWith o (P ++ '\n' :: S)).document? = none ↔ (parseWith o S).document? = none) := by
  obtain ⟨d, hd, -, hdocument, hnesting⟩ := parseWith_sound hvalid
  suffices hjoined : parseWith o (P ++ '\n' :: S) = (parseWith o S).behind d (Pos.shift (byteLength P + 1)) by
    refine ⟨d, hd, hjoined, ?_⟩
    rw [hjoined]
    exact Option.map_eq_none_iff
  have hlex := lex_joined hends hplaces
  have hbytes := byteLength_joined P S
  rw [hbytes] at hsize hplaces
  have hdepth : (limitsOf o (P ++ '\n' :: S)).maxDepth = (limitsOf o S).maxDepth := rfl
  have hend : (limitsOf o (P ++ '\n' :: S)).endPos = (limitsOf o S).endPos.shift (byteLength P + 1) :=
    (congrArg Pos.ofOffset hbytes).trans (Pos.ofOffset_add hplaces)
  have hcount : (Token.lex P ++ (Token.lex S).map (Token.relocate (Pos.shift (byteLength P + 1)))).length =
      (Token.lex (P ++ '\n' :: S)).length := by rw [hlex]
  have hfewer : (Token.lex S).length ≤ (Token.lex (P ++ '\n' :: S)).length := by
    rw [← hcount, List.length_append, List.length_map]
    exact Nat.le_add_left _ _
  have hfurther := definitions_further d.definitions hdepth hend (fitsBehind hplaces) (Nat.le_refl _) hfewer
    (Nat.lt_succ_self _) (Nat.lt_succ_of_le hfewer)
  have hroom : d.nesting ≤ (limitsOf o (P ++ '\n' :: S)).maxDepth := hnesting
  have hjoined := definitions_joined hdocument hroom hends (Nat.le_of_eq hcount)
    (Nat.lt_succ_of_le (Nat.le_of_eq hcount))
  rw [parseWith_eq (hbytes ▸ hsize), parseWith_eq (show byteLength S ≤ o.maxSize by omega), ← hfurther, ← hjoined,
    ← hlex]

/-- The theorem at a query and a text behind it that is malformed. -/
theorem parseWith_joined_of_sample :
    (parseWith .default "\x7b a \x7d".toList).errors = [] ∧
      EndsWithBrace (Token.lex "\x7b a \x7d".toList) ∧
      byteLength ("\x7b a \x7d".toList ++ '\n' :: "\x7d query \x7b b(".toList) ≤ ParseOptions.default.maxSize ∧
      ∃ d, parseWith .default "\x7b a \x7d".toList = ⟨some d, []⟩ ∧
        parseWith .default ("\x7b a \x7d".toList ++ '\n' :: "\x7d query \x7b b(".toList) =
          (parseWith .default "\x7d query \x7b b(".toList).behind d (Pos.shift 6) := by
  have hvalid : (parseWith .default "\x7b a \x7d".toList).errors = [] := by decide +kernel
  have hends : EndsWithBrace (Token.lex "\x7b a \x7d".toList) :=
    ⟨⟨.braceClose, "\x7d", ⟨4⟩⟩, by decide +kernel, rfl⟩
  have hsize : byteLength ("\x7b a \x7d".toList ++ '\n' :: "\x7d query \x7b b(".toList) ≤
      ParseOptions.default.maxSize := by decide +kernel
  obtain ⟨d, hd, hjoined, -⟩ := parseWith_joined .default "\x7b a \x7d".toList "\x7d query \x7b b(".toList hvalid
    hends hsize (Nat.le_trans hsize (by decide))
  exact ⟨hvalid, hends, hsize, d, hd, hjoined⟩

end Document

end GraphQL
