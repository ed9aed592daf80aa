import GraphQL.Proofs.Parser.Legal
import GraphQL.Proofs.Parser.Written
import GraphQL.Proofs.Parser.Exact.Document

/-!
Printing and parsing again.

A literal is printed into a field as its argument, a type into an operation as that of its variable.
Parsing gives the same literal and the same type back, places apart.
-/

namespace GraphQL

open Grammar Token

namespace Literal

/-- A query with the literal as its one argument. -/
def asArgument (v : Literal) : String := "\x7b f(a: " ++ v.render ++ ") \x7d"

/-- What such a query is parsed to. -/
def argumentDocument (w : Literal) (set field argument : Pos) : Document :=
  let f : Field := ⟨none, ⟨"f", field⟩, [⟨⟨"a", argument⟩, w⟩], [], field⟩
  ⟨[.operation ⟨.query, none, [], [], .mk [.field f none] set, true, set⟩]⟩

lemma nesting_argumentDocument (w : Literal) (set field argument : Pos) :
    (argumentDocument w set field argument).nesting = w.nesting + 1 := by
  simp [argumentDocument, Document.nesting, largest, Definition.nesting, OperationDefinition.nesting,
    SelectionSet.nesting, Selection.nestingOfAll, Selection.nesting,
    Field.nesting, Argument.nesting]

variable {v : Literal}

lemma isName_a : Lexeme.IsName "a".toList := by decide

lemma isName_f : Lexeme.IsName "f".toList := by decide

lemma derives_arguments (h : v.IsLegal) :
    Derives (['('] ++ (("a".toList ++ (": ".toList ++ v.render.toList)) ++ [')']))
      (Group .fieldArguments (IsArgument false))
      fun out => ∃ p w, out.1 = [⟨⟨"a", p⟩, w⟩] ∧ v.isEquivalent w = true := by
  have hargument : Derives ("a".toList ++ (": ".toList ++ v.render.toList)) (Many (IsArgument false))
      fun args => ∃ p w, args = [⟨⟨"a", p⟩, w⟩] ∧ v.isEquivalent w = true := by
    refine ((derives_render v h).named isName_a).map (fun out => [⟨out.1, out.2⟩]) ?_ ?_
    · exact fun ts out rest hout _ => .cons (.mk hout) .nil
    · rintro ⟨⟨text, p⟩, w⟩ ⟨rfl, hw⟩
      exact ⟨p, w, rfl, hw⟩
  refine .group rfl rfl (by decide) hargument ?_
  rintro args ⟨p, w, rfl, -⟩ hargs
  exact absurd hargs (by simp)

lemma derives_field (h : v.IsLegal) :
    Derives ("f".toList ++ (['('] ++ (("a".toList ++ (": ".toList ++ v.render.toList)) ++ [')']))) IsSelection
      fun s => ∃ q p w, s = .field ⟨none, ⟨"f", q⟩, [⟨⟨"a", p⟩, w⟩], [], q⟩ none ∧
        v.isEquivalent w = true := by
  refine (derives_arguments h).token_bind (k := .name) (fun _ _ => EndsToken.name (.cons (by decide) _) isName_f)
    (fun t out => .field ⟨none, ⟨t.text, t.start⟩, out.1, [], t.start⟩ none) ?_ ?_
  · rintro t ts ⟨args, p⟩ rest hk - hargs -
    exact .leaf (.mk (.plain (.mk hk)) (.present hargs) .nil)
  · rintro t out ht ⟨p, w, hout, hw⟩
    exact ⟨t.start, p, w, by rw [ht, hout], hw⟩

/-- The tokens and blanks around the argument. -/
lemma asArgument_eq (cs : List Char) : "\x7b f(a: ".toList ++ cs ++ ") \x7d".toList =
    ['\x7b'] ++ ((' ' :: (("f".toList ++ (['('] ++ (("a".toList ++ (": ".toList ++ cs)) ++ [')']))) ++
      [' '])) ++ ['\x7d']) := by
  have hfront : "\x7b f(a: ".toList = ['\x7b', ' '] ++ ("f".toList ++ (['('] ++ ("a".toList ++ ": ".toList))) := by
    decide
  have hback : ") \x7d".toList = [')', ' ', '\x7d'] := by decide
  simp only [hfront, hback, List.append_assoc, List.cons_append, List.nil_append]

lemma derives_asArgument (h : v.IsLegal) :
    Derives v.asArgument.toList IsDefinition fun d => ∃ r q p w,
      (argumentDocument w r q p).definitions = [d] ∧ v.isEquivalent w = true := by
  have hselections := (derives_field h).append_blank.blank_cons.map (S := Many IsSelection)
    (R := fun ss => ∃ q p w, ss = [.field ⟨none, ⟨"f", q⟩, [⟨⟨"a", p⟩, w⟩], [], q⟩ none] ∧
        v.isEquivalent w = true) (fun s => [s]) (fun _ _ _ hs _ => .cons hs .nil)
    fun s ⟨q, p, w, hs, hw⟩ => ⟨q, p, w, by rw [hs], hw⟩
  have hset := Derives.group (c := .selectionSet) (o := '\x7b') (e := '\x7d') rfl rfl (by decide) hselections (by
    rintro ss ⟨q, p, w, rfl, -⟩ hss
    exact absurd hss (by simp))
  rw [asArgument, String.toList_append, String.toList_append, asArgument_eq]
  refine hset.map (fun out => .operation ⟨.query, none, [], [], .mk out.1 out.2, true, out.2⟩) ?_ ?_
  · exact fun ts out rest hout _ => .operation (.shorthand (.mk hout))
  · rintro ⟨ss, r⟩ ⟨q, p, w, rfl, hw⟩
    exact ⟨r, q, p, w, rfl, hw⟩

end Literal

namespace Derives

/-- What a whole source derives. -/
lemma isDocument {source : List Char} {Q : Definition → Prop} (h : Derives source IsDefinition Q) :
    ∃ d, (∀ document : Document, document.definitions = [d] → IsDocument (lex source) document) ∧ Q d := by
  obtain ⟨d, there, hd, hQ⟩ := h 0 [] (by simp [EndsToken])
  rw [List.append_nil, (lexFrom_of_nil rfl : lexFrom there [] = [])] at hd
  refine ⟨d, fun document hdocument => ?_, hQ⟩
  rw [IsDocument, hdocument]
  exact .cons hd .nil

end Derives

namespace TypeRef

/-- An operation with a variable of the type. -/
def asVariableType (t : TypeRef) : String := "query ($v: " ++ t.render ++ ") \x7b f \x7d"

/-- What such an operation is parsed to. -/
def variableDocument (u : TypeRef) (operation variable_ name set field : Pos) : Document :=
  let f : Field := ⟨none, ⟨"f", field⟩, [], [], field⟩
  ⟨[.operation ⟨.query, none, [⟨⟨"v", name⟩, u, none, [], variable_⟩], [], .mk [.field f none] set, false,
    operation⟩]⟩

variable {t : TypeRef}

lemma nesting_variableDocument (u : TypeRef) (o v n s f : Pos) :
    (variableDocument u o v n s f).nesting = u.nesting := by
  have hpos := u.nesting_pos
  simp [variableDocument, Document.nesting, largest, Definition.nesting, OperationDefinition.nesting,
    SelectionSet.nesting, Selection.nestingOfAll, Selection.nesting, Field.nesting,
    VariableDefinition.nesting]
  omega

lemma derives_variables (h : t.IsLegal) :
    Derives (['('] ++ (("$".toList ++ ("v".toList ++ (": ".toList ++ t.render.toList))) ++ [')']))
      (Group .variableDefinitions IsVariableDefinition)
      fun out => ∃ p n u, out.1 = [⟨⟨"v", n⟩, u, none, [], p⟩] ∧ t.isEquivalent u = true := by
  have hname : Lexeme.IsName "v".toList := by decide
  have hvariable : Derives ("$".toList ++ ("v".toList ++ (": ".toList ++ t.render.toList)))
      (Many IsVariableDefinition)
      fun ds => ∃ p n u, ds = [⟨⟨"v", n⟩, u, none, [], p⟩] ∧ t.isEquivalent u = true := by
    refine ((derives_render t h).named hname).token_bind (k := .dollar) (fun _ _ => isSpelled_punctuator rfl _)
      (fun dollar out => [⟨out.1, out.2, none, [], dollar.start⟩]) ?_ ?_
    · rintro dollar ts out rest hk - ⟨names, separates, here⟩ -
      exact .cons (.mk (.mk hk) names separates here .absent .nil) .nil
    · rintro dollar ⟨⟨text, n⟩, u⟩ - ⟨rfl, hu⟩
      exact ⟨dollar.start, n, u, rfl, hu⟩
  refine .group rfl rfl (by decide) hvariable ?_
  rintro ds ⟨p, n, u, rfl, -⟩ hds
  exact absurd hds (by simp)

lemma derives_fieldSet :
    Derives "\x7b f \x7d".toList IsSelectionSet
      fun s => ∃ r q, s = .mk [.field ⟨none, ⟨"f", q⟩, [], [], q⟩ none] r := by
  have hfield : Derives "f".toList (Many IsSelection)
      fun ss => ∃ q, ss = [.field ⟨none, ⟨"f", q⟩, [], [], q⟩ none] :=
    .token (fun _ hbehind => hbehind.name Literal.isName_f)
      (fun t => [.field ⟨none, ⟨t.text, t.start⟩, [], [], t.start⟩ none])
      (fun t ts hk _ => .cons (.leaf (.mk (.plain (.mk hk)) .absent .nil)) .nil)
      fun t ht => ⟨t.start, by rw [ht]⟩
  refine (Derives.group (c := .selectionSet) (o := '\x7b') (e := '\x7d') rfl rfl (by decide)
    hfield.append_blank.blank_cons ?_).map (fun out => .mk out.1 out.2) (fun _ _ _ hout _ => .mk hout) ?_
  · rintro ss ⟨q, rfl⟩ hss
    exact absurd hss (by simp)
  · rintro ⟨ss, r⟩ ⟨q, rfl⟩
    exact ⟨r, q, rfl⟩

/-- The tokens and blanks around the type. -/
lemma asVariableType_eq (cs : List Char) : "query ($v: ".toList ++ cs ++ ") \x7b f \x7d".toList =
    "query".toList ++ (' ' :: ((['('] ++ (("$".toList ++ ("v".toList ++ (": ".toList ++ cs))) ++ [')'])) ++
      (' ' :: "\x7b f \x7d".toList))) := by
  have hfront : "query ($v: ".toList =
      "query".toList ++ (' ' :: (['('] ++ ("$".toList ++ ("v".toList ++ ": ".toList)))) := by decide
  have hback : ") \x7b f \x7d".toList = ')' :: ' ' :: "\x7b f \x7d".toList := by decide
  simp only [hfront, hback, List.append_assoc, List.cons_append, List.nil_append]

lemma derives_asVariableType (h : t.IsLegal) :
    Derives t.asVariableType.toList IsDefinition fun d => ∃ o v n s f u,
      (variableDocument u o v n s f).definitions = [d] ∧ t.isEquivalent u = true := by
  have hname : Lexeme.IsName "query".toList := by decide
  have hbehind := (derives_variables h).bind derives_fieldSet.blank_cons (fun _ => .cons (by decide) _)
    Prod.mk (U := fun ts out rest => ∃ mid, Group .variableDefinitions IsVariableDefinition ts out.1 mid ∧
      IsSelectionSet mid out.2 rest) (fun ts out mid set rest hout hset _ => ⟨mid, hout, hset⟩)
    (R := fun out => (∃ p n u, out.1.1 = [⟨⟨"v", n⟩, u, none, [], p⟩] ∧ t.isEquivalent u = true) ∧
      ∃ r q, out.2 = .mk [.field ⟨none, ⟨"f", q⟩, [], [], q⟩ none] r) fun _ _ hout hset => ⟨hout, hset⟩
  rw [asVariableType, String.toList_append, String.toList_append, asVariableType_eq]
  refine hbehind.blank_cons.token_bind (fun _ _ => EndsToken.name (.cons (by decide) _) hname)
    (fun keyword out => .operation ⟨.query, none, out.1.1, [], out.2, false, keyword.start⟩) ?_ ?_
  · rintro keyword ts out rest hk hword ⟨mid, hout, hset⟩ -
    exact .operation (.full (.mk hk hword) .absent (.present hout) .nil hset)
  · rintro keyword ⟨⟨ds, q⟩, set⟩ - ⟨⟨p, n, u, rfl, hu⟩, r, f, rfl⟩
    exact ⟨_, p, n, r, f, u, rfl, hu⟩

end TypeRef

namespace Literal

mutual

lemma nesting_unplaced : ∀ v : Literal, v.unplaced.nesting = v.nesting
  | .null _ => rfl
  | .var _ _ => rfl
  | .scalar _ _ _ => rfl
  | .list items _ => by rw [unplaced, nesting, nesting, nestingOfItems_unplaced items]
  | .object fields _ => by rw [unplaced, nesting, nesting, nestingOfFields_unplaced fields]

lemma nestingOfItems_unplaced : ∀ vs, nestingOfItems (unplacedItems vs) = nestingOfItems vs
  | [] => rfl
  | v :: vs => by
    rw [unplacedItems, nestingOfItems, nestingOfItems, nesting_unplaced v, nestingOfItems_unplaced vs]

lemma nestingOfFields_unplaced : ∀ fs, nestingOfFields (unplacedFields fs) = nestingOfFields fs
  | [] => rfl
  | (_, v) :: fs => by
    rw [unplacedFields, nestingOfFields, nestingOfFields, nesting_unplaced v, nestingOfFields_unplaced fs]

end

lemma nesting_eq {v w : Literal} (h : v.isEquivalent w = true) : w.nesting = v.nesting := by
  rw [← nesting_unplaced w, ← (isEquivalent_iff v w).mp h, nesting_unplaced]

lemma parseWith_asArgument (o : ParseOptions) {v : Literal} (h : v.IsLegal)
    (hsize : byteLength v.asArgument.toList ≤ o.maxSize) (hnesting : v.nesting + 1 ≤ o.maxDepth) :
    ∃ w r q p, Document.parseWith o v.asArgument.toList = ⟨some (argumentDocument w r q p), []⟩ ∧
      v.isEquivalent w = true := by
  obtain ⟨d, hd, r, q, p, w, hdefinitions, hw⟩ := (derives_asArgument h).isDocument
  refine ⟨w, r, q, p, Document.parseWith_complete hsize ?_ ?_, hw⟩
  · exact hd _ hdefinitions
  · rwa [nesting_argumentDocument, nesting_eq hw]

end Literal

namespace TypeRef

lemma nesting_eq {t u : TypeRef} (h : t.isEquivalent u = true) : u.nesting = t.nesting := by
  induction t generalizing u <;> cases u <;> simp_all [isEquivalent, nesting]

lemma parseWith_asVariableType (o : ParseOptions) {t : TypeRef} (h : t.IsLegal)
    (hsize : byteLength t.asVariableType.toList ≤ o.maxSize) (hnesting : t.nesting ≤ o.maxDepth) :
    ∃ u p v n s f, Document.parseWith o t.asVariableType.toList = ⟨some (variableDocument u p v n s f), []⟩ ∧
      t.isEquivalent u = true := by
  obtain ⟨d, hd, p, v, n, s, f, u, hdefinitions, hu⟩ := (derives_asVariableType h).isDocument
  refine ⟨u, p, v, n, s, f, Document.parseWith_complete hsize ?_ ?_, hu⟩
  · exact hd _ hdefinitions
  · rwa [nesting_variableDocument, nesting_eq hu]

end TypeRef

namespace Document

/-- **Parsing undoes printing.** A literal that can be written is parsed again from its text, as an
argument within the limits, and so is a type that can be; nothing but the places is lost. What the parser
makes of the tokens of any source can be written, and so can literals from JSON with names for keys. -/
theorem parseWith_printed (o : ParseOptions) :
    (∀ v : Literal, v.IsLegal → byteLength v.asArgument.toList ≤ o.maxSize → v.nesting + 1 ≤ o.maxDepth →
      ∃ w r q p, parseWith o v.asArgument.toList = ⟨some (Literal.argumentDocument w r q p), []⟩ ∧
        v.isEquivalent w = true) ∧
    (∀ t : TypeRef, t.IsLegal → byteLength t.asVariableType.toList ≤ o.maxSize → t.nesting ≤ o.maxDepth →
      ∃ u p v n s f, parseWith o t.asVariableType.toList = ⟨some (TypeRef.variableDocument u p v n s f), []⟩ ∧
        t.isEquivalent u = true) ∧
    (∀ source env st, st.rest <:+ lex source →
      (∀ place v, (Parse.value place env st).1 = some v → v.IsLegal) ∧
      ∀ t, (Parse.typeRef env st).1 = some t → t.IsLegal) ∧
    ∀ j : Json, j.HasNames → (Literal.ofJson j).IsLegal := by
  refine ⟨fun v => Literal.parseWith_asArgument o, fun t => TypeRef.parseWith_asVariableType o, ?_,
    Literal.ofJson_isLegal⟩
  intro source env st hst
  have htext : Parse.FromText st.rest := fun t ht => lex_isSpelledOut (hst.subset ht)
  constructor
  · intro place v hv
    obtain ⟨_, _, hlegal⟩ := Parse.value_legal place st.rest htext env st rfl
    exact hlegal v hv
  · intro t ht
    obtain ⟨_, _, hlegal⟩ := Parse.typeRef_legal st.rest htext env st rfl
    exact hlegal t ht

/-- The theorem at a list that holds a text with a quote and a line end in it, and at the type of a list. -/
theorem parseWith_printed_of_sample :
    Literal.IsLegal (.list [.scalar .string "a\"\n" .start, .null .start] .start) ∧
      TypeRef.IsLegal (.list (.nonNull (.named ⟨"T", .start⟩) .start) .start) ∧
      (∃ w r q p, parseWith .default
          (Literal.asArgument (.list [.scalar .string "a\"\n" .start, .null .start] .start)).toList =
          ⟨some (Literal.argumentDocument w r q p), []⟩ ∧
        Literal.isEquivalent (.list [.scalar .string "a\"\n" .start, .null .start] .start) w = true) ∧
      ∃ u p v n s f, parseWith .default
          (TypeRef.asVariableType (.list (.nonNull (.named ⟨"T", .start⟩) .start) .start)).toList =
          ⟨some (TypeRef.variableDocument u p v n s f), []⟩ ∧
        TypeRef.isEquivalent (.list (.nonNull (.named ⟨"T", .start⟩) .start) .start) u = true := by
  have hlegal : Literal.IsLegal (.list [.scalar .string "a\"\n" .start, .null .start] .start) := by
    refine .list fun v hv => ?_
    obtain rfl | rfl : v = .scalar .string "a\"\n" .start ∨ v = .null .start := by simpa using hv
    · exact .scalar trivial
    · exact .null
  have htype : TypeRef.IsLegal (.list (.nonNull (.named ⟨"T", .start⟩) .start) .start) :=
    .list (.nonNull (.named (by decide)) rfl)
  obtain ⟨hvalues, htypes, -⟩ := parseWith_printed .default
  exact ⟨hlegal, htype, hvalues _ hlegal (by decide +kernel) (by decide +kernel),
    htypes _ htype (by decide +kernel) (by decide +kernel)⟩

end Document

end GraphQL
