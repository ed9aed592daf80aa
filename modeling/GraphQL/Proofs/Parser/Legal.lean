import GraphQL.Proofs.Document.Legal
import GraphQL.Proofs.Parser.Places
import GraphQL.Proofs.Token.Cut

/-!
What the parser makes can be written.

Tokens of a source are spelled as their kinds say, whatever else is wrong with it. So the names and the
numbers that a parse makes of them are names and numbers.
-/

namespace GraphQL

namespace Token

/-- The token has a text of its kind; of an unknown token nothing is said. -/
def IsSpelledOut (t : Token) : Prop := t.kind ≠ .unknown → t.kind.Spells t.text.toList

lemma lex_isSpelledOut {source : List Char} {t : Token} (h : t ∈ lex source) : t.IsSpelledOut := by
  obtain ⟨ahead, hcut⟩ := lex_cutFrom h
  intro hkind
  rw [hcut.kind] at hkind ⊢
  rw [hcut.text, String.toList_ofList]
  cases ahead with
  | nil => exact absurd rfl hkind
  | cons c cs => exact extent_spells c cs

end Token

namespace Parse

variable {α β : Type} {rest : List Token}

/-- Tokens as they are cut off a source. -/
def FromText (rest : List Token) : Prop := ∀ t ∈ rest, t.IsSpelledOut

lemma FromText.suffix {tokens : List Token} (h : FromText rest) (hs : tokens <:+ rest) : FromText tokens :=
  fun t ht => h t (hs.subset ht)

/-- In front of such tokens, a parse makes something with the property. -/
def MakesOfText (p : Parse α) (P : α → Prop) : Prop :=
  ∀ rest, FromText rest → Reads p rest fun _ a => P a

namespace MakesOfText

variable {p : Parse α} {f : α → Parse β} {P : α → Prop} {S : β → Prop}

lemma of_makes (h : Makes p P) : MakesOfText p P := fun rest _ => h rest

lemma bind (hp : MakesOfText p P) (hf : ∀ a, P a → MakesOfText (f a) S) : MakesOfText (p >>= f) S :=
  fun rest hrest => (hp rest hrest).bind fun a read rest' hsplit ha =>
    hf a ha rest' (hrest.suffix ⟨read, hsplit.symm⟩)

lemma nested (h : MakesOfText p P) : MakesOfText (Parse.nested p) P := fun rest hrest => (h rest hrest).nested

lemma attempt (h : MakesOfText p P) : MakesOfText (Parse.attempt p) fun o => ∀ a ∈ o, P a :=
  fun rest hrest => (h rest hrest).attempt

lemma expectName (what : String) : MakesOfText (Parse.expectName what) fun n => Lexeme.IsName n.text.toList := by
  refine fun rest hrest => .peek_bind ?_
  cases rest with
  | nil => exact .unexpected _
  | cons t tokens =>
    refine .ite (fun hk => .advance_bind (.pure ?_)) fun _ => .unexpected _
    have hspells := hrest t List.mem_cons_self
    rw [Token.IsSpelledOut, hk] at hspells
    exact hspells (by decide)

lemma group {member : Parse α} (c : Construct) (hm : MakesOfText member P) :
    MakesOfText (Parse.group c member) fun out => ∀ a ∈ out.1, P a := by
  intro rest hrest
  refine (group_reads c rest fun tokens htokens => hm tokens (hrest.suffix htokens)).mono fun _ _ h => ?_
  obtain ⟨_, _, -, -, -, hturn⟩ := h
  exact hturn.forall_mem fun _ _ ha => ha

lemma optionalGroup {member : Parse α} (c : Construct) (hm : MakesOfText member P) :
    MakesOfText (Parse.optionalGroup c member) fun as => ∀ a ∈ as, P a := by
  refine (MakesOfText.of_makes (.neutral (.nextIs _))).bind fun next _ => ?_
  cases next with
  | false => exact .of_makes (.pure (by simp))
  | true => exact (hm.group c).bind fun out hout => .of_makes (.pure hout)

end MakesOfText

/-! ### Values -/

lemma literalOfName_legal {t : Token} (h : Lexeme.IsName t.text.toList) : (literalOfName t).IsLegal := by
  unfold literalOfName
  split
  · exact .null
  · exact .scalar (.inl ‹_›)
  · exact .scalar (.inr ‹_›)
  · exact .scalar ⟨h, ‹_›, ‹_›, ‹_›⟩

lemma variableReference_legal (place : Option ConstantPlace) (dollar : Token) :
    MakesOfText (variableReference place dollar) Literal.IsLegal := by
  refine (MakesOfText.of_makes .advance).bind fun _ _ => (MakesOfText.expectName _).bind fun name hname => ?_
  cases place with
  | none => exact .of_makes (.pure (.var hname))
  | some place => exact .of_makes (.anywhere (.report _) fun _ => .pure (.var hname))

lemma namedValue_legal {what : String} {value : Parse Literal} (hv : MakesOfText value Literal.IsLegal) :
    MakesOfText (namedValue what value) fun f => Lexeme.IsName f.1.text.toList ∧ f.2.IsLegal := by
  refine (MakesOfText.expectName what).bind fun name hname => ?_
  refine (MakesOfText.of_makes (Makes.expect _).discard).bind fun _ _ => ?_
  exact hv.bind fun v hv => .of_makes (.pure ⟨hname, hv⟩)

lemma valueWithin_legal (place : Option ConstantPlace) (levels : Nat) :
    MakesOfText (valueWithin place levels) Literal.IsLegal := by
  induction levels with
  | zero => exact .of_makes .tooDeep
  | succ levels ih =>
    rw [valueWithin]
    refine .nested fun rest hrest => .peek_bind ?_
    cases rest with
    | nil => exact .unexpected _
    | cons t tokens =>
      have hspells := hrest t List.mem_cons_self
      rw [Token.IsSpelledOut] at hspells
      dsimp only [List.head?_cons]
      split
      · exact variableReference_legal place t _ hrest
      · rename_i hk
        rw [hk] at hspells
        exact .advance_bind (.pure (.scalar (hspells (by decide))))
      · rename_i hk
        rw [hk] at hspells
        exact .advance_bind (.pure (.scalar (hspells (by decide))))
      · exact .advance_bind (.neutral_bind (.cook t) fun text => .pure (.scalar trivial))
      · exact .advance_bind (.neutral_bind (.cook t) fun text => .pure (.scalar trivial))
      · rename_i hk
        rw [hk] at hspells
        exact .advance_bind (.pure (literalOfName_legal (hspells (by decide))))
      · exact (ih.group _).bind (fun out hout => .of_makes (.pure (.list hout))) _ hrest
      · refine ((namedValue_legal ih).group _).bind (fun out hout => .of_makes (.pure ?_)) _ hrest
        exact .object (fun f hf => (hout f hf).1) fun f hf => (hout f hf).2
      · exact .unexpected _

lemma value_legal (place : Option ConstantPlace) : MakesOfText (value place) Literal.IsLegal :=
  (MakesOfText.of_makes (.neutral .limits)).bind fun _ _ => valueWithin_legal place _

/-! ### Types -/

lemma requiredMark_legal (p : Pos) {t : TypeRef} (h : t.IsLegal) (once : t.isNonNull = false) :
    Makes (requiredMark p t) TypeRef.IsLegal := by
  refine .anywhere (.nextIs _) fun next => .ite (fun _ => ?_) fun _ => .pure h
  exact Makes.advance.bind fun _ _ => .pure (.nonNull h once)

lemma typeRefWithin_legal (levels : Nat) : MakesOfText (typeRefWithin levels) TypeRef.IsLegal := by
  induction levels with
  | zero => exact .of_makes .tooDeep
  | succ levels ih =>
    rw [typeRefWithin]
    refine .nested ((MakesOfText.of_makes (.neutral .here)).bind fun start _ => ?_)
    refine (MakesOfText.of_makes (.neutral (.nextIs _))).bind fun next _ => ?_
    have hlist : MakesOfText (do
        let t ← typeRefWithin levels
        discard <| expect .bracketClose
        return t) TypeRef.IsLegal :=
      ih.bind fun t ht => .of_makes ((Makes.expect _).discard.bind fun _ _ => .pure ht)
    split
    · refine (MakesOfText.of_makes (Makes.expect _)).bind fun opening _ => ?_
      refine (MakesOfText.of_makes (.neutral (.openDelimiter _))).bind fun _ _ => ?_
      refine hlist.attempt.bind fun element helement => ?_
      refine (MakesOfText.of_makes (.neutral .closeDelimiter)).bind fun _ _ => ?_
      cases element with
      | none => exact .of_makes .fail
      | some t => exact .of_makes (requiredMark_legal _ (.list (helement t rfl)) rfl)
    · exact (MakesOfText.expectName _).bind fun name hname =>
        .of_makes (requiredMark_legal _ (.named hname) rfl)

lemma typeRef_legal : MakesOfText typeRef TypeRef.IsLegal :=
  (MakesOfText.of_makes (.neutral .limits)).bind fun _ _ => typeRefWithin_legal _

/-! ### Variables -/

/-- The types of the variables that a definition declares can be written. -/
def DeclaresLegal (d : Definition) : Prop :=
  ∀ op, d = .operation op → ∀ v ∈ op.variableDefinitions, v.type.IsLegal

lemma variableDefinition_legal : MakesOfText variableDefinition fun d => d.type.IsLegal := by
  refine (MakesOfText.of_makes (Makes.expect _)).bind fun _ _ => ?_
  refine (MakesOfText.of_makes (Makes.expectName _)).bind fun _ _ => ?_
  refine (MakesOfText.of_makes (Makes.expect _).discard).bind fun _ _ => typeRef_legal.bind fun t ht => ?_
  exact .of_makes ((defaultValue_locates _).makes.bind fun _ _ => (directives_locates _).makes.bind fun _ _ => .pure ht)

lemma shorthandOperation_legal : Makes shorthandOperation fun op => DeclaresLegal (.operation op) := by
  refine .anywhere .here fun p rest => (selectionSet_sites rest).bind fun below _ _ _ _ => .pure ?_
  rintro op ⟨⟩ v hv
  cases hv

lemma operationDefinition_legal (type : OperationType) :
    MakesOfText (operationDefinition type) fun op => DeclaresLegal (.operation op) := by
  refine (MakesOfText.of_makes (Makes.expectKeyword _)).bind fun _ _ => ?_
  refine (MakesOfText.of_makes operationName_locates.makes).bind fun _ _ => ?_
  refine (variableDefinition_legal.optionalGroup _).bind fun ds hds => ?_
  refine (MakesOfText.of_makes (directives_locates _).makes).bind fun _ _ => ?_
  refine MakesOfText.bind (P := fun _ => True) (fun rest _ => (selectionSet_sites rest).mono fun _ _ _ => trivial) ?_
  refine fun below _ => .of_makes (.pure ?_)
  rintro op ⟨⟩
  exact hds

lemma typeDefinition_legal (desc : Option String) (p : Pos) : Makes (do
    let d ← typeDefinition desc p
    return some (Definition.type d)) fun o => ∀ d ∈ o, DeclaresLegal d := by
  refine fun rest => (typeDefinition_starts desc p).bind fun d _ _ _ _ => .pure ?_
  rintro e ⟨⟩ op ⟨⟩

lemma unsupportedDefinition_legal (keyword : Token) : Makes (do
    unsupportedDefinition keyword
    return none) fun o => ∀ d ∈ o, DeclaresLegal d :=
  (unsupportedDefinition_makes keyword).bind fun _ _ => .pure (by simp)

lemma described_legal (start : Pos) : Makes (do
    let desc ← description
    match ← peek with
    | some next =>
      if next.kind = .name && isTypeKeyword next.text then
        let d ← typeDefinition desc start
        return some (.type d)
      else if next.kind = .name && isUnsupportedKeyword next.text then
        unsupportedDefinition next
        return none
      else unexpected "a type definition after description"
    | none => unexpected "a type definition after description") fun o => ∀ d ∈ o, DeclaresLegal d := by
  refine description_makes.bind fun desc _ => .anywhere .peek fun t => ?_
  cases t with
  | none => exact .unexpected _
  | some next =>
    refine .ite (fun _ => typeDefinition_legal desc start) fun _ => ?_
    exact .ite (fun _ => unsupportedDefinition_legal next) fun _ => .unexpected _

lemma definition_legal : MakesOfText definition fun o => ∀ d ∈ o, DeclaresLegal d := by
  refine (MakesOfText.of_makes (.neutral .peek)).bind fun next _ => ?_
  cases next with
  | none => exact .of_makes .fail
  | some t =>
    dsimp only
    split
    · refine .of_makes (shorthandOperation_legal.bind fun op hop => .pure ?_)
      rintro d ⟨⟩
      exact hop
    · exact .of_makes (described_legal t.start)
    · exact .of_makes (described_legal t.start)
    · split
      · refine (operationDefinition_legal _).bind fun op hop => .of_makes (.pure ?_)
        rintro d ⟨⟩
        exact hop
      · refine .of_makes (.ite (fun _ => ?_) fun _ => .ite (fun _ => ?_) fun _ => .ite (fun _ => ?_) fun _ => ?_)
        · refine fun rest => (fragmentDefinition_sites rest).bind fun f _ _ _ _ => .pure ?_
          rintro d ⟨⟩ op ⟨⟩
        · exact typeDefinition_legal none t.start
        · exact unsupportedDefinition_legal t
        · exact .unexpected _
    · exact .of_makes (.unexpected _)

lemma definitions_legal (steps : Nat) {before : List Definition} (hbefore : ∀ d ∈ before, DeclaresLegal d) :
    MakesOfText (definitions steps before) fun out => ∀ d ∈ out, DeclaresLegal d := by
  induction steps generalizing before with
  | zero => exact .of_makes (.pure (by simpa using hbefore))
  | succ steps ih =>
    rw [definitions]
    intro rest hrest
    refine .remaining_bind (.neutral_bind .isAborted fun aborted => ?_)
    refine .ite (fun _ => .pure (by simpa using hbefore)) fun _ => ?_
    refine (definition_legal.attempt.bind fun o ho => ?_) rest hrest
    rcases o with - | - | d
    · exact (MakesOfText.of_makes (recoverDefinition_makes _)).bind fun _ _ => ih hbefore
    · exact ih hbefore
    · exact ih (List.forall_mem_cons.mpr ⟨ho _ rfl d rfl, hbefore⟩)

end Parse

/-- The types of the variables in a parsed document can be written. -/
theorem Document.parse_variables_isLegal {source : List Char} {d : Document} {errors : List ParseError}
    (h : parse source = ⟨some d, errors⟩) :
    ∀ op ∈ d.operations, ∀ v ∈ op.variableDefinitions, v.type.IsLegal := by
  unfold parse parseWith at h
  extract_lets size tokens env at h
  have htokens : Parse.FromText tokens := fun t ht => Token.lex_isSpelledOut ht
  split at h
  · simp at h
  · have hlegal : Parse.MakesOfText (Parse.definitions (tokens.length + 1) []) fun out =>
        ∀ d ∈ out, Parse.DeclaresLegal d := Parse.definitions_legal _ (by simp)
    obtain ⟨read, -, hout⟩ := hlegal tokens htokens env (.start tokens) rfl
    generalize Parse.definitions (tokens.length + 1) [] env (.start tokens) = run at h hout
    obtain ⟨out, st⟩ := run
    dsimp only at h hout
    split at h
    · simp at h
    · simp only [ParseResult.mk.injEq, Option.some.injEq] at h
      obtain ⟨rfl, -⟩ := h
      intro op hop
      obtain ⟨e, he, heq⟩ := List.mem_filterMap.mp hop
      cases out with
      | none => simp at he
      | some definitions =>
        refine hout definitions rfl e he op ?_
        cases e <;> simp_all [Definition.operation?]

end GraphQL
