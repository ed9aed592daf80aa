import GraphQL.Proofs.Parser.Exact.Document
import GraphQL.Proofs.Parser.Local
import GraphQL.Proofs.Parser.Progress

/-!
Definitions in front of any tokens.

Behind a closing brace a definition is over, whatever follows. So where the last of some definitions
ends with one, all of them are read in front of anything, and the parse is then as it was at the start.
-/

namespace GraphQL

open Grammar

namespace Parse

open ParseState

variable {env : ParseLimits} {levels : Nat} {α β : Type}

/-- In front of the tokens `ts`, a parse makes `a` without any error, and the tokens `rest` are left. -/
def ReadsTo (env : ParseLimits) (levels : Nat) (p : Parse α) (ts : List Token) (a : α) (rest : List Token) :
    Prop :=
  ∀ ds depth, depth + levels = env.maxDepth → p env (clean ts ds depth) = (some a, clean rest ds depth)

namespace ReadsTo

variable {p : Parse α} {f : α → Parse β} {ts mid rest : List Token} {a : α} {b : β}

lemma pure (a : α) : ReadsTo env levels (Pure.pure a : Parse α) ts a ts := fun _ _ _ => rfl

lemma bind (hp : ReadsTo env levels p ts a mid) (hf : ReadsTo env levels (f a) mid b rest) :
    ReadsTo env levels (p >>= f) ts b rest := fun ds depth hdepth => by
  rw [bind_apply, hp ds depth hdepth]
  exact hf ds depth hdepth

lemma map (make : α → β) (hp : ReadsTo env levels p ts a rest) :
    ReadsTo env levels (p >>= fun a => Pure.pure (make a)) ts (make a) rest :=
  hp.bind (pure _)

lemma of_exact {P : Production α} {first follow : List TokenKind} {nullable : Bool}
    (h : Exact env levels p P first nullable follow) (hts : ts.length ≤ env.tokenCount) (ha : P ts a rest)
    (hrest : NotNext follow rest) : ReadsTo env levels p ts a rest := fun ds depth hdepth =>
  (h.exactAt ts hts).complete ds depth hdepth a rest ha hrest

lemma of_exactAt {Q : α → List Token → Prop} {follow : List Token → Prop}
    (h : ExactAt env levels p Q follow ts) (ha : Q a rest) (hrest : follow rest) :
    ReadsTo env levels p ts a rest := fun ds depth hdepth => h.complete ds depth hdepth a rest ha hrest

lemma peek_bind {f : Option Token → Parse α} (h : ReadsTo env levels (f ts.head?) ts a rest) :
    ReadsTo env levels (peek >>= f) ts a rest := h

lemma advance_bind {f : Unit → Parse α} {t : Token} (h : ReadsTo env levels (f ()) ts a rest) :
    ReadsTo env levels (advance >>= f) (t :: ts) a rest := h

end ReadsTo

variable {ts mid rest : List Token}

/-- A brace is the last token that is read. -/
def Closed (ts rest : List Token) : Prop :=
  ∃ before closing, ts = before ++ closing :: rest ∧ closing.kind = .braceClose

lemma Closed.not_unclosed (h : Closed ts rest) : ¬Unclosed ts rest := by
  obtain ⟨before, closing, hts, hclosing⟩ := h
  exact fun hunclosed => hunclosed.not_closed hts hclosing

/-! ### Types with a body -/

lemma bodyOf_opens {c : Construct} {P : Production α} {as : List α} (hc : c.opening = .braceOpen)
    (h : Body c P mid as rest) (hne : mid ≠ rest) : ∃ t us, mid = t :: us ∧ t.kind = .braceOpen := by
  obtain _ | ⟨⟨opens, -, -, -⟩⟩ := h
  · exact absurd rfl hne
  · exact ⟨_, _, rfl, opens.trans hc⟩

/-- The body of a type, if it has one, starts with a brace. -/
lemma typeBody_opens {b : TypeBody} (h : IsTypeBody mid b rest) (hne : mid ≠ rest) :
    ∃ t us, mid = t :: us ∧ t.kind = .braceOpen := by
  obtain _ | here | here | here := h
  · exact absurd rfl hne
  all_goals exact bodyOf_opens rfl here hne

/-- What is read behind the name of a type, where a body follows. -/
lemma afterTypeName_reads {γ : Type} {holds : Parse γ} (make : γ → TypeBody) {c : γ} {dirs : List Directive}
    (desc : Option String) (p : Pos) (name : Name) (hts : ts.length ≤ env.tokenCount)
    (hdirs : IsDirectives true ts dirs mid) (hsize : largest Directive.nesting dirs ≤ levels)
    (hopens : ∃ t us, mid = t :: us ∧ t.kind = .braceOpen) (hholds : ReadsTo env levels holds mid c rest) :
    ReadsTo env levels (directives (some .schemaDirective) >>= fun dirs => holds >>= fun c =>
      pure (TypeDefinition.mk desc name dirs (make c) p)) ts ⟨desc, name, dirs, make c, p⟩ rest := by
  obtain ⟨t, us, rfl, ht⟩ := hopens
  have hnext : NotNext [.atSign, .parenOpen] (t :: us) := by simp [NotNext, ht]
  have hdirectives : ReadsTo env levels (directives (some .schemaDirective)) ts dirs (t :: us) :=
    .of_exact directives_exact hts ⟨hdirs, hsize⟩ hnext
  exact hdirectives.bind (hholds.map fun c => TypeDefinition.mk desc name dirs (make c) p)

/-- No list of interfaces stands in front of directives and a body. -/
lemma implementsClause_reads {dirs : List Directive} (hdirs : IsDirectives true ts dirs mid)
    (hopens : ∃ t us, mid = t :: us ∧ t.kind = .braceOpen) : ReadsTo env levels implementsClause ts () ts := by
  obtain ⟨t, us, rfl, ht⟩ : ∃ t us, ts = t :: us ∧ t.kind ≠ .name := by
    obtain _ | ⟨⟨⟨ht⟩, -, -⟩, -⟩ := hdirs
    · obtain ⟨t, us, rfl, ht⟩ := hopens
      exact ⟨t, us, rfl, by rw [ht]; exact TokenKind.noConfusion⟩
    · exact ⟨_, _, rfl, by rw [ht]; exact TokenKind.noConfusion⟩
  refine .peek_bind ?_
  simp only [List.head?_cons, Token.isKeyword, ht, decide_false, Bool.false_and, Bool.false_eq_true, if_false]
  exact .pure ()

/-- **A type with a body is read**, whatever follows. -/
lemma typeDefinition_reads {word : Token} {desc : Option String} {p : Pos} {d : TypeDefinition}
    (h : Within TypeDefinition.nesting levels (AfterTypeKeyword word.text desc p) ts d rest)
    (hts : ts.length ≤ env.tokenCount) (hclosed : Closed ts rest) :
    ReadsTo env levels (typeDefinition desc p) (word :: ts) d rest := by
  obtain ⟨⟨name, mid₁, names, dirs, mid, body, directives, holds, hword, rfl⟩, hsize⟩ := h
  obtain ⟨hdirs, hbody⟩ := Nat.max_le.mp hsize
  have hne : mid ≠ rest := by
    rintro rfl
    refine hclosed.not_unclosed ?_
    obtain rfl | hdirectives := directives_unclosed directives
    · exact name_unclosed names
    · exact hdirectives.behind (Local.name _ names).suffix
  have hopens := typeBody_opens holds hne
  have hlen₁ := Nat.le_trans (Local.name _ names).suffix.length_le hts
  have hlen := Nat.le_trans (Local.directives _ directives).suffix.length_le hlen₁
  have hname : ∀ what, ReadsTo env levels (expectName what) ts name mid₁ := fun what =>
    .of_exact (expectName_exact what) hts names (by simp [NotNext])
  refine .peek_bind (.advance_bind ?_)
  obtain _ | here | here | here := holds
  · exact absurd rfl hne
  all_goals simp only [← hword, TypeBody.keyword]
  · have hfields := ReadsTo.of_exact (body_exact .fieldsDefinition fieldDefinition_exact (by decide)) hlen
      ⟨here, hbody⟩ (by simp [NotNext])
    exact (hname _).bind ((implementsClause_reads directives hopens).bind
      (afterTypeName_reads .object desc p name hlen₁ directives hdirs hopens hfields))
  · have hvalues := ReadsTo.of_exact (body_exact .enumValues enumValueDefinition_exact (by decide)) hlen
      ⟨here, hbody⟩ (by simp [NotNext])
    exact (hname _).bind (afterTypeName_reads .enum desc p name hlen₁ directives hdirs hopens hvalues)
  · have hfields := ReadsTo.of_exact (body_exact .inputFields inputDefinition_exact (by decide)) hlen
      ⟨here, hbody⟩ (by simp [NotNext])
    exact (hname _).bind (afterTypeName_reads .input desc p name hlen₁ directives hdirs hopens hfields)

/-! ### Definitions -/

lemma Closed.tail {t : Token} (h : Closed (t :: ts) rest) (ht : t.kind ≠ .braceClose) : Closed ts rest := by
  obtain ⟨_ | ⟨t', before⟩, closing, hts, hclosing⟩ := h
  · obtain ⟨rfl, -⟩ := List.cons.inj hts
    exact absurd hclosing ht
  · exact ⟨before, closing, (List.cons.inj hts).2, hclosing⟩

/-- What a description stands in front of. -/
lemma afterDescription_reads {desc : Option String} {p : Pos} {d : TypeDefinition}
    (h : Within TypeDefinition.nesting levels (AtTypeKeyword desc p) ts d rest)
    (hts : ts.length ≤ env.tokenCount) (hclosed : Closed ts rest) :
    ReadsTo env levels (afterDescription desc p) ts (some (.type d)) rest := by
  obtain ⟨⟨word, us, rfl, hword, h⟩, hsize⟩ := h
  have hkeyword : (word.kind = .name && isTypeKeyword word.text) = true := by
    simp [hword, type_keyword h]
  have hus : Closed us rest := hclosed.tail (by simp [hword])
  refine .peek_bind ?_
  simp only [List.head?_cons]
  rw [if_pos hkeyword]
  exact (typeDefinition_reads ⟨h, hsize⟩ (Nat.le_of_succ_le hts) hus).map fun d => some (Definition.type d)

/-- The keyword of a type starts nothing else. -/
lemma typeKeyword_alone {word : String} (h : isTypeKeyword word = true) :
    OperationType.ofKeyword? word = none ∧ (word == "fragment") = false := by
  constructor
  · cases hop : OperationType.ofKeyword? word with
    | none => rfl
    | some type => exact absurd h (by simp [not_typeKeyword hop])
  · refine beq_false_of_ne ?_
    rintro rfl
    exact absurd h (by decide)

/-- **A definition that ends with a brace is read**, whatever follows. -/
lemma definition_reads_closed {d : Definition} (h : Within Definition.nesting levels IsDefinition ts d rest)
    (hts : ts.length ≤ env.tokenCount) (hclosed : Closed ts rest) :
    ReadsTo env levels definition ts (some d) rest := by
  obtain ⟨h, hsize⟩ := h
  cases ts with
  | nil => exact absurd h isDefinition_nil
  | cons t us =>
  have hnot : t.kind ≠ .braceClose := by
    intro hk
    simp only [isDefinition_cons, DefinitionAt, hk] at h
  have hus : Closed us rest := hclosed.tail hnot
  have hlen : us.length ≤ env.tokenCount := Nat.le_of_succ_le hts
  refine .peek_bind ?_
  dsimp only [List.head?_cons]
  rw [isDefinition_cons, DefinitionAt] at h
  cases hk : t.kind <;> simp only [hk] at h ⊢
  case braceOpen =>
    obtain ⟨below, h, rfl⟩ := h
    exact (ReadsTo.of_exact shorthandOperation_exact hts ⟨⟨below, h, rfl⟩, hsize⟩ (by simp [NotNext])).map
      fun op => some (Definition.operation op)
  case string | blockString =>
    obtain ⟨text, d', hcooks, h, rfl⟩ := h
    have hstring : IsString (t :: us) text us := .mk (isString_iff.mpr (by simp [hk])) hcooks
    have hnext : NotNext [.string, .blockString] us := by
      obtain ⟨word, vs, rfl, hword, -⟩ := h
      simp [NotNext, hword]
    have hdesc : ReadsTo env levels description (t :: us) (some text) us :=
      .of_exact description_exact hts (.present hstring) hnext
    exact hdesc.bind (afterDescription_reads ⟨h, hsize⟩ hlen hus)
  case name =>
    obtain ⟨op, h, hop, rfl⟩ | ⟨f, h, rfl⟩ | ⟨d', h, rfl⟩ := h
    · simp only [operation_keyword h hop]
      exact (ReadsTo.of_exact (operationDefinition_exact op.type) hts ⟨⟨h, hop, rfl⟩, hsize⟩
        (by simp [NotNext])).map fun op => some (Definition.operation op)
    · simp only [fragment_keyword h, beq_self_eq_true, if_true]
      exact (ReadsTo.of_exact fragmentDefinition_exact hts ⟨h, hsize⟩ (by simp [NotNext])).map
        fun f => some (Definition.fragment f)
    · have hkeyword := type_keyword h
      obtain ⟨hop, hfragment⟩ := typeKeyword_alone hkeyword
      simp only [hop, hfragment, hkeyword, Bool.false_eq_true, if_false, if_true]
      exact (typeDefinition_reads ⟨h, hsize⟩ hlen hus).map fun d => some (Definition.type d)

/-- A definition is read where it is over. -/
lemma definition_reads {d : Definition} (h : Within Definition.nesting levels IsDefinition ts d rest)
    (hts : ts.length ≤ env.tokenCount) (hends : EndsType rest) :
    ReadsTo env levels definition ts (some d) rest := by
  have hne : ts ≠ [] := by
    rintro rfl
    exact isDefinition_nil h.1
  exact .of_exactAt (definition_exactAt hne hts) ⟨d, h, rfl⟩ hends

/-! ### Documents -/

/-- The last token is a closing brace. -/
def EndsWithBrace (ts : List Token) : Prop := ∃ t ∈ ts.getLast?, t.kind = .braceClose

lemma EndsWithBrace.closed (h : EndsWithBrace ts) : Closed ts [] := by
  obtain ⟨t, ht, hk⟩ := h
  obtain ⟨before, rfl⟩ := List.getLast?_eq_some_iff.mp ht
  exact ⟨before, t, rfl, hk⟩

lemma EndsWithBrace.suffix (h : EndsWithBrace ts) (hmid : mid <:+ ts) (hne : mid ≠ []) : EndsWithBrace mid := by
  obtain ⟨front, rfl⟩ := hmid
  rwa [EndsWithBrace, List.getLast?_append_of_ne_nil _ hne] at h

/-- How a definition may go on is told by the next token. -/
lemma EndsType.congr {more : List Token} (h : EndsType mid) (hhead : more.head? = mid.head?) : EndsType more := by
  unfold EndsType NotNext NotKeyword
  rw [hhead]
  exact h

/-- A turn that reads a definition. -/
lemma definitionsTurn_reads {read : List Definition} {d : Definition} {ds : List Delimiter} {depth : Nat}
    (h : ReadsTo env levels definition ts (some d) rest) (hne : ts ≠ []) (hdepth : depth + levels = env.maxDepth) :
    definitionsTurn read env (clean ts ds depth) = (some (.inl (d :: read)), clean rest ds depth) := by
  obtain ⟨t, us, rfl⟩ := List.exists_cons_of_ne_nil hne
  have hgo : ((clean (t :: us) ds depth).aborted.isSome || (clean (t :: us) ds depth).rest.isEmpty) = false := rfl
  simp only [definitionsTurn, bind_apply, remaining, isAborted, hgo, Bool.false_eq_true, if_false, attempt,
    h ds depth hdepth]
  rfl

/-- The first of several definitions is read in front of any tokens, if the last one ends with a brace. -/
lemma definition_reads_first {d : Definition} {found : List Definition}
    (h : Within Definition.nesting levels IsDefinition ts d mid)
    (hmore : Many (Within Definition.nesting levels IsDefinition) mid found []) (hends : EndsWithBrace ts)
    (more : List Token) (hts : (ts ++ more).length ≤ env.tokenCount) :
    ReadsTo env levels definition (ts ++ more) (some d) (mid ++ more) := by
  obtain ⟨h, hsize⟩ := h
  obtain ⟨⟨front, rfl, hnext⟩, hbrace⟩ := definition_rests h
  cases mid with
  | nil =>
    obtain ⟨before, closing, hclosed, hk⟩ := hends.closed
    have hall : front ++ [] ++ more = before ++ closing :: more := by
      rw [hclosed, List.append_assoc, List.singleton_append]
    rw [hall] at hts ⊢
    exact definition_reads_closed ⟨hbrace before closing hclosed hk more, hsize⟩ hts ⟨before, closing, rfl, hk⟩
  | cons t us =>
    rw [List.append_assoc] at hts ⊢
    exact definition_reads ⟨hnext _ rfl, hsize⟩ hts ((many_endsType hmore).congr rfl)

/-- **Definitions in front of any tokens.** If the last one ends with a brace, all of them are read, and
what follows is read as if nothing had been in front of it. -/
lemma definitions_prefix {read found : List Definition} {ds : List Delimiter} {depth steps : Nat}
    {more : List Token} (h : Many (Within Definition.nesting levels IsDefinition) ts found [])
    (hends : EndsWithBrace ts) (hts : (ts ++ more).length ≤ env.tokenCount)
    (hdepth : depth + levels = env.maxDepth) :
    definitions (steps + found.length) read env (clean (ts ++ more) ds depth) =
      definitions steps (found.reverse ++ read) env (clean more ds depth) := by
  generalize hrest : ([] : List Token) = rest at h
  induction h generalizing read with
  | nil =>
    subst hrest
    obtain ⟨t, ht, -⟩ := hends
    exact absurd ht (by simp)
  | @cons ts mid rest d found head tail ih =>
    subst hrest
    have hread : ReadsTo env levels definition (ts ++ more) (some d) (mid ++ more) :=
      definition_reads_first head tail hends more hts
    have hsuffix : mid <:+ ts := by
      obtain ⟨⟨front, rfl, -⟩, -⟩ := definition_rests head.1
      exact List.suffix_append _ _
    have hne : ts ++ more ≠ [] := by
      obtain ⟨t, ht, -⟩ := hends
      exact List.append_ne_nil_of_left_ne_nil (List.ne_nil_of_mem (List.mem_of_mem_getLast? ht)) more
    rw [List.length_cons, ← Nat.add_assoc, definitions_repeats.apply, definitionsTurn_reads hread hne hdepth]
    dsimp only
    by_cases hmid : mid = []
    · subst hmid
      obtain ⟨rfl, -⟩ | ⟨_, _, _, hnone, -⟩ := many_iff.mp tail
      · rfl
      · exact absurd hnone.1 isDefinition_nil
    · have hlen : (mid ++ more).length ≤ env.tokenCount := by
        have hle := hsuffix.length_le
        simp only [List.length_append] at hts ⊢
        omega
      rw [ih (hends.suffix hsuffix hmid) hlen rfl, List.reverse_cons, List.append_assoc]
      rfl

end Parse

end GraphQL
