import GraphQL.Proofs.Parser.Exact.TypeDefinition

/-!
Documents follow the grammar.

Where a definition is wrong, an error is reported before the next one is looked for. So a run
without errors takes no detour, and what it read are definitions one behind the other.
-/

namespace GraphQL

open Grammar

namespace Parse

open ParseState

variable {env : ParseLimits} {levels : Nat}

/-! ### Definitions -/

/-- A type from its keyword on. -/
def AtTypeKeyword (desc : Option String) (p : Pos) : Production TypeDefinition := fun ts d rest =>
  ∃ word mid, ts = word :: mid ∧ word.kind = .name ∧ AfterTypeKeyword word.text desc p mid d rest

lemma isTypeDefinition_iff {d : TypeDefinition} {t : Token} {ts rest : List Token} :
    IsTypeDefinition (t :: ts) d rest ↔ ∃ desc mid, Optional IsString (t :: ts) desc mid ∧
      AtTypeKeyword desc t.start mid d rest := by
  constructor
  · rintro ⟨describes, ⟨hk, hword⟩, names, directives, holds⟩
    exact ⟨_, _, describes, _, _, rfl, hk, _, _, names, _, _, _, directives, holds, hword.symm, rfl⟩
  · rintro ⟨desc, _, describes, word, mid, rfl, hk, name, ts₁, names, dirs, ts₂, body, directives, holds,
      hword, rfl⟩
    exact ⟨describes, ⟨hk, hword.symm⟩, names, directives, holds⟩

/-- The definitions that a token may begin, by its kind. -/
def DefinitionAt (t : Token) (ts : List Token) (d : Definition) (rest : List Token) : Prop :=
  match t.kind with
  | .braceOpen => ∃ below, IsSelectionSet (t :: ts) below rest ∧
      d = .operation ⟨.query, none, [], [], below, true, below.pos⟩
  | .string | .blockString => ∃ text d', StringLiteral.cook t.text = .ok text ∧
      AtTypeKeyword (some text) t.start ts d' rest ∧ d = .type d'
  | .name => (∃ op, IsOperation (t :: ts) op rest ∧ op.isShorthand = false ∧ d = .operation op) ∨
      (∃ f, IsFragment (t :: ts) f rest ∧ d = .fragment f) ∨
      ∃ d', AfterTypeKeyword t.text none t.start ts d' rest ∧ d = .type d'
  | _ => False

section

variable {t : Token} {ts rest : List Token}

lemma operation_definitionAt {op : OperationDefinition} (h : IsOperation (t :: ts) op rest) :
    DefinitionAt t ts (.operation op) rest := by
  cases h with
  | shorthand h =>
    have hk : t.kind = .braceOpen := by
      obtain ⟨⟨hk, -, -, -⟩⟩ := h
      exact hk
    simp only [DefinitionAt, hk]
    exact ⟨_, h, rfl⟩
  | full starts names declares directives selects =>
    have hk : t.kind = .name := by
      obtain ⟨hk, -⟩ := starts
      exact hk
    simp only [DefinitionAt, hk]
    exact .inl ⟨_, .full starts names declares directives selects, rfl, rfl⟩

lemma fragment_definitionAt {f : FragmentDefinition} (h : IsFragment (t :: ts) f rest) :
    DefinitionAt t ts (.fragment f) rest := by
  have hk : t.kind = .name := by
    obtain ⟨⟨hk, -⟩, -⟩ := h
    exact hk
  simp only [DefinitionAt, hk]
  exact .inr (.inl ⟨_, h, rfl⟩)

lemma type_definitionAt {d : TypeDefinition} (h : IsTypeDefinition (t :: ts) d rest) :
    DefinitionAt t ts (.type d) rest := by
  obtain ⟨desc, mid, describes, h⟩ := isTypeDefinition_iff.mp h
  unfold DefinitionAt
  obtain _ | ⟨hk, hcooks⟩ := describes
  · obtain ⟨word, mid, heq, hk, h⟩ := h
    cases heq
    simp only [hk]
    exact .inr (.inr ⟨_, h, rfl⟩)
  · obtain hk | hk := isString_iff.mp hk <;> simp only [hk] <;> exact ⟨_, _, hcooks, h, rfl⟩

lemma DefinitionAt.isDefinition {d : Definition} (h : DefinitionAt t ts d rest) :
    IsDefinition (t :: ts) d rest := by
  unfold DefinitionAt at h
  cases hk : t.kind <;> simp only [hk] at h
  case braceOpen =>
    obtain ⟨below, h, rfl⟩ := h
    exact .operation (.shorthand h)
  case string | blockString =>
    obtain ⟨text, d', hcooks, h, rfl⟩ := h
    exact .type (isTypeDefinition_iff.mpr ⟨_, _, .present ⟨by rw [hk]; rfl, hcooks⟩, h⟩)
  case name =>
    obtain ⟨op, h, -, rfl⟩ | ⟨f, h, rfl⟩ | ⟨d', h, rfl⟩ := h
    · exact .operation h
    · exact .fragment h
    · exact .type (isTypeDefinition_iff.mpr ⟨none, _, .absent, t, ts, rfl, hk, h⟩)

/-- **The first token of a definition tells which kind it is.** -/
lemma isDefinition_cons {d : Definition} :
    IsDefinition (t :: ts) d rest ↔ DefinitionAt t ts d rest := by
  refine ⟨fun h => ?_, DefinitionAt.isDefinition⟩
  cases h with
  | operation h => exact operation_definitionAt h
  | fragment h => exact fragment_definitionAt h
  | type h => exact type_definitionAt h

end

lemma unsupportedDefinition_keeps (keyword : Token) :
    KeepsErrors env (unsupportedDefinition keyword) := by
  refine .silent_bind .advance fun _ => (KeepsErrors.report _).bind fun _ => .ite ?_ ?_
  · exact .silent_bind .advance fun _ => .silent_bind .remaining fun _ => .silent (.continueAt _)
  · exact .silent_bind .remaining fun _ => .silent (.continueAt _)

/-- An unsupported definition is skipped, but not without an error. -/
lemma unsupportedDefinition_complains (keyword : Token) :
    Complains env (unsupportedDefinition keyword >>= fun _ => pure (none : Option Definition)) := by
  refine .bind (.silent_bind .advance fun _ => (Complains.report _).bind fun _ => .ite ?_ ?_)
    fun _ => .pure _
  · exact .silent_bind .advance fun _ => .silent_bind .remaining fun _ => .silent (.continueAt _)
  · exact .silent_bind .remaining fun _ => .silent (.continueAt _)

lemma type_keyword {word : String} {desc : Option String} {p : Pos} {d : TypeDefinition}
    {ts rest : List Token} (h : AfterTypeKeyword word desc p ts d rest) : isTypeKeyword word = true := by
  obtain ⟨-, -, -, -, -, body, -, -, hbody, -⟩ := h
  rw [isTypeKeyword_iff, ← hbody]
  cases body <;> simp [TypeBody.keyword]

lemma atTypeKeyword_cons {desc : Option String} {p : Pos} {d : TypeDefinition} {t : Token}
    {ts rest : List Token} :
    AtTypeKeyword desc p (t :: ts) d rest ↔
      (t.kind = .name ∧ isTypeKeyword t.text = true) ∧ AfterTypeKeyword t.text desc p ts d rest := by
  constructor
  · rintro ⟨word, mid, heq, hk, h⟩
    cases heq
    exact ⟨⟨hk, type_keyword h⟩, h⟩
  · rintro ⟨⟨hk, -⟩, h⟩
    exact ⟨t, ts, rfl, hk, h⟩

/-- What `definition` does behind a description. -/
def afterDescription (desc : Option String) (p : Pos) : Parse (Option Definition) := do
  match ← peek with
  | some next =>
    if next.kind = .name && isTypeKeyword next.text then
      let d ← typeDefinition desc p
      return some (.type d)
    else if next.kind = .name && isUnsupportedKeyword next.text then
      unsupportedDefinition next
      return none
    else unexpected "a type definition after description"
  | none => unexpected "a type definition after description"

lemma afterDescription_keeps (desc : Option String) (p : Pos) :
    KeepsErrors env (afterDescription desc p) := by
  refine .silent_bind .peek fun t => ?_
  cases t with
  | none => exact .unexpected _
  | some t =>
    exact .ite ((typeDefinition_keeps desc p).bind fun _ => .pure _)
      (.ite ((unsupportedDefinition_keeps t).bind fun _ => .pure _) (.unexpected _))

/-- What is described must be a type. -/
lemma afterDescription_exactAt (desc : Option String) (p : Pos) {ts : List Token}
    (hts : ts.length ≤ env.tokenCount) :
    ExactAt env levels (afterDescription desc p)
      (fun o rest => ∃ d, Within TypeDefinition.nesting levels (AtTypeKeyword desc p) ts d rest ∧
        o = some (.type d)) EndsType ts := by
  refine .peek_bind ?_
  cases ts with
  | nil =>
    refine .complains (.unexpected _) ?_
    rintro o rest ⟨d, ⟨⟨word, mid, heq, -⟩, -⟩, -⟩
    exact absurd heq.symm (List.cons_ne_nil _ _)
  | cons t us =>
    refine .ite (fun ht => ?_) fun ht => ?_
    · simp only [Bool.and_eq_true, decide_eq_true_eq] at ht
      refine ((typeDefinition_exactAt desc p ht.2 (Nat.le_of_succ_le hts)).map
        (fun d => some (Definition.type d))).congr (fun o rest => exists_congr fun d => ?_) fun _ h => h
      rw [Within, atTypeKeyword_cons, and_iff_right ht, Within]
    · have hnone : ∀ o rest, ¬∃ d, Within TypeDefinition.nesting levels (AtTypeKeyword desc p) (t :: us) d
          rest ∧ o = some (Definition.type d) := by
        rintro o rest ⟨d, ⟨h, -⟩, -⟩
        exact ht (by simpa using (atTypeKeyword_cons.mp h).1)
      exact .ite (fun _ => .complains (unsupportedDefinition_complains t) hnone)
        fun _ => .complains (.unexpected _) hnone

lemma definition_keeps : KeepsErrors env definition := by
  have hdescription := (description_exact : Exact env 0 _ _ _ _ _).keeps
  refine .silent_bind .peek fun t => ?_
  cases t with
  | none => exact .fail
  | some t =>
    dsimp only
    split
    · exact (shorthandOperation_exact : Exact env 0 _ _ _ _ _).keeps.bind fun _ => .pure _
    · exact hdescription.bind fun desc => afterDescription_keeps desc _
    · exact hdescription.bind fun desc => afterDescription_keeps desc _
    · split
      · exact (operationDefinition_exact _ : Exact env 0 _ _ _ _ _).keeps.bind fun _ => .pure _
      · refine .ite ?_ (.ite ?_ (.ite ?_ (.unexpected _)))
        · exact (fragmentDefinition_exact : Exact env 0 _ _ _ _ _).keeps.bind fun _ => .pure _
        · exact (typeDefinition_keeps none _).bind fun _ => .pure _
        · exact (unsupportedDefinition_keeps t).bind fun _ => .pure _
    · exact .unexpected _

lemma ofKeyword?_eq_some {text : String} {type : OperationType} :
    OperationType.ofKeyword? text = some type ↔ text = type.keyword := by
  constructor
  · intro h
    unfold OperationType.ofKeyword? at h
    split at h <;> cases h <;> rfl
  · rintro rfl
    exact OperationType.ofKeyword?_keyword type

/-- What a definition is, as far as the levels allow. -/
def IsDefinitionWithin (levels : Nat) : Production (Option Definition) := fun ts o rest =>
  ∃ d, Within Definition.nesting levels IsDefinition ts d rest ∧ o = some d

section

variable {t : Token} {ts us rest : List Token}

lemma operation_keyword {op : OperationDefinition} (h : IsOperation (t :: ts) op rest)
    (hop : op.isShorthand = false) : OperationType.ofKeyword? t.text = some op.type := by
  cases h with
  | shorthand => exact absurd hop (by simp)
  | full starts =>
    obtain ⟨-, htext⟩ := starts
    exact ofKeyword?_eq_some.mpr htext

lemma fragment_keyword {f : FragmentDefinition} (h : IsFragment (t :: ts) f rest) :
    t.text = "fragment" := by
  obtain ⟨⟨-, htext⟩, -⟩ := h
  exact htext

lemma not_typeKeyword {word : String} {type : OperationType}
    (h : OperationType.ofKeyword? word = some type) : isTypeKeyword word = false := by
  rw [ofKeyword?_eq_some.mp h]
  cases type <;> rfl

section

variable {d : Definition}

lemma isDefinition_name (hk : t.kind = .name) : IsDefinition (t :: ts) d rest ↔
    (∃ op, IsOperation (t :: ts) op rest ∧ op.isShorthand = false ∧ d = .operation op) ∨
      (∃ f, IsFragment (t :: ts) f rest ∧ d = .fragment f) ∨
      ∃ d', AfterTypeKeyword t.text none t.start ts d' rest ∧ d = .type d' := by
  simp only [isDefinition_cons, DefinitionAt, hk]

lemma isDefinition_operation {type : OperationType} (hk : t.kind = .name)
    (hword : OperationType.ofKeyword? t.text = some type) : IsDefinition (t :: ts) d rest ↔
      ∃ op, (IsOperation (t :: ts) op rest ∧ op.isShorthand = false ∧ op.type = type) ∧
        d = .operation op := by
  rw [isDefinition_name hk]
  constructor
  · rintro (⟨op, h, hop, rfl⟩ | ⟨f, h, -⟩ | ⟨d', h, -⟩)
    · have hsame := hword.symm.trans (operation_keyword h hop)
      exact ⟨op, ⟨h, hop, (Option.some.inj hsame).symm⟩, rfl⟩
    · rw [fragment_keyword h] at hword
      exact absurd hword (by simp [OperationType.ofKeyword?])
    · exact absurd (type_keyword h) (by simp [not_typeKeyword hword])
  · rintro ⟨op, ⟨h, hop, -⟩, rfl⟩
    exact .inl ⟨op, h, hop, rfl⟩

lemma isDefinition_fragment (hk : t.kind = .name) (hword : t.text = "fragment") :
    IsDefinition (t :: ts) d rest ↔ ∃ f, IsFragment (t :: ts) f rest ∧ d = .fragment f := by
  rw [isDefinition_name hk]
  refine ⟨?_, fun h => .inr (.inl h)⟩
  rintro (⟨op, h, hop, -⟩ | h | ⟨d', h, -⟩)
  · have hkeyword := operation_keyword h hop
    rw [hword] at hkeyword
    exact absurd hkeyword (by simp [OperationType.ofKeyword?])
  · exact h
  · exact absurd (type_keyword h) (by simp [hword, isTypeKeyword])

lemma isDefinition_type (hk : t.kind = .name) (hword : isTypeKeyword t.text = true) :
    IsDefinition (t :: ts) d rest ↔
      ∃ d', AfterTypeKeyword t.text none t.start ts d' rest ∧ d = .type d' := by
  rw [isDefinition_name hk]
  refine ⟨?_, fun h => .inr (.inr h)⟩
  rintro (⟨op, h, hop, -⟩ | ⟨f, h, -⟩ | h)
  · exact absurd hword (by simp [not_typeKeyword (operation_keyword h hop)])
  · exact absurd hword (by simp [fragment_keyword h, isTypeKeyword])
  · exact h

/-- Any other word starts no definition. -/
lemma not_isDefinition (hk : t.kind = .name) (hop : OperationType.ofKeyword? t.text = none)
    (hf : t.text ≠ "fragment") (hty : ¬isTypeKeyword t.text = true) :
    ¬IsDefinition (t :: ts) d rest := by
  rw [isDefinition_name hk]
  rintro (⟨op, h, hshort, -⟩ | ⟨f, h, -⟩ | ⟨d', h, -⟩)
  · exact Option.some_ne_none _ ((operation_keyword h hshort).symm.trans hop)
  · exact hf (fragment_keyword h)
  · exact hty (type_keyword h)

end

/-- A parse of what a definition is made of reads that definition. -/
lemma made_exactAt {α : Type} {p : Parse α} {make : α → Definition} {Q : α → List Token → Prop}
    {follow : List Token → Prop}
    (hp : ExactAt env levels p (fun a rest => Q a rest ∧ (make a).nesting ≤ levels) follow us)
    (hmade : ∀ d rest, IsDefinition ts d rest ↔ ∃ a, Q a rest ∧ d = make a)
    (hfollow : ∀ rest, EndsType rest → follow rest) :
    ExactAt env levels (p >>= fun a => pure (some (make a))) (IsDefinitionWithin levels ts) EndsType
      us := by
  refine (hp.map fun a => some (make a)).congr (fun o rest => ?_) hfollow
  constructor
  · rintro ⟨d, ⟨hd, hsize⟩, rfl⟩
    obtain ⟨a, ha, rfl⟩ := (hmade d rest).mp hd
    exact ⟨a, ⟨ha, hsize⟩, rfl⟩
  · rintro ⟨a, ⟨ha, hsize⟩, rfl⟩
    exact ⟨make a, ⟨(hmade _ rest).mpr ⟨a, ha, rfl⟩, hsize⟩, rfl⟩

/-- A definition that starts with a name. -/
lemma namedDefinition_exactAt (hk : t.kind = .name) (hts : (t :: ts).length ≤ env.tokenCount) :
    ExactAt env levels
      (match OperationType.ofKeyword? t.text with
        | some type => operationDefinition type >>= fun op => pure (some (.operation op))
        | none =>
          if (t.text == "fragment") = true then fragmentDefinition >>= fun f => pure (some (.fragment f))
          else if isTypeKeyword t.text = true then
            typeDefinition none t.start >>= fun d => pure (some (.type d))
          else if isUnsupportedKeyword t.text = true then unsupportedDefinition t >>= fun _ => pure none
          else unexpected "a definition")
      (IsDefinitionWithin levels (t :: ts)) EndsType (t :: ts) := by
  split
  · rename_i type hword
    exact made_exactAt ((operationDefinition_exact type).exactAt _ hts)
      (fun _ _ => isDefinition_operation hk hword) fun _ _ _ _ => List.not_mem_nil
  · rename_i hop
    refine .ite (fun hf => ?_) fun hf => .ite (fun hty => ?_) fun hty => ?_
    · exact made_exactAt (fragmentDefinition_exact.exactAt _ hts)
        (fun _ _ => isDefinition_fragment hk (beq_iff_eq.mp hf)) fun _ _ _ _ => List.not_mem_nil
    · exact made_exactAt (typeDefinition_exactAt none t.start hty (Nat.le_of_succ_le hts))
        (fun _ _ => isDefinition_type hk hty) fun _ h => h
    · have hnone : ∀ o rest, ¬IsDefinitionWithin levels (t :: ts) o rest := by
        rintro o rest ⟨d, ⟨hd, -⟩, -⟩
        exact not_isDefinition hk hop (by simpa using hf) hty hd
      exact .ite (fun _ => .complains (unsupportedDefinition_complains t) hnone)
        fun _ => .complains (.unexpected _) hnone

end

lemma definition_exactAt {ts : List Token} (hne : ts ≠ []) (hts : ts.length ≤ env.tokenCount) :
    ExactAt env levels definition (IsDefinitionWithin levels ts) EndsType ts := by
  obtain ⟨t, us, rfl⟩ := List.exists_cons_of_ne_nil hne
  refine .peek_bind ?_
  dsimp only [List.head?_cons]
  cases hk : t.kind
  case braceOpen =>
    refine made_exactAt (shorthandOperation_exact.exactAt _ hts) (fun d rest => ?_)
      fun _ _ _ _ => List.not_mem_nil
    simp only [isDefinition_cons, DefinitionAt, hk]
    constructor
    · rintro ⟨below, h, rfl⟩
      exact ⟨_, ⟨below, h, rfl⟩, rfl⟩
    · rintro ⟨_, ⟨below, h, rfl⟩, rfl⟩
      exact ⟨below, h, rfl⟩
  case string | blockString =>
    have hdesc : Exact env levels description _ _ _ _ := description_exact
    refine ((hdesc.exactAt _ hts).bind (fun desc => afterDescription_keeps desc t.start)
      (fun desc mid h => afterDescription_exactAt desc t.start ?_) ?_).relax ?_ ?_ fun _ h => h
    · exact Nat.le_trans (hdesc.starts _ desc mid h).length_le hts
    · rintro desc mid o rest - ⟨d, ⟨⟨word, _, rfl, hword, -⟩, -⟩, -⟩ -
      simp [NotNext, hword]
    · rintro o rest ⟨desc, mid, describes, d, ⟨h, hsize⟩, rfl⟩
      exact ⟨.type d, ⟨.type (isTypeDefinition_iff.mpr ⟨desc, mid, describes, h⟩), hsize⟩, rfl⟩
    · rintro o rest ⟨d, ⟨h, hsize⟩, rfl⟩ -
      simp only [isDefinition_cons, DefinitionAt, hk] at h
      obtain ⟨text, d, hcooks, h, rfl⟩ := h
      exact ⟨some text, us, .present ⟨isString_iff.mpr (by simp [hk]), hcooks⟩, d, ⟨h, hsize⟩, rfl⟩
  case name => exact namedDefinition_exactAt hk hts
  all_goals
    refine .complains (.unexpected _) fun o rest h => ?_
    obtain ⟨d, ⟨h, -⟩, -⟩ := h
    simpa only [DefinitionAt, hk] using isDefinition_cons.mp h

/-! ### Documents -/

section

variable {t : Token} {ts rest : List Token}

lemma afterTypeKeyword_length {word : String} {desc : Option String} {p : Pos} {d : TypeDefinition}
    (h : Within TypeDefinition.nesting levels (AfterTypeKeyword word desc p) ts d rest) :
    rest.length ≤ ts.length := by
  have env : ParseLimits := ⟨.start, 0, 0⟩
  obtain ⟨⟨name, mid, ⟨hk⟩, h⟩, hsize⟩ := h
  have hmid : rest.length ≤ mid.length := by
    obtain rfl | rfl | rfl | rfl := isTypeKeyword_iff.mp (type_keyword ⟨_, mid, ⟨hk⟩, h⟩)
    · exact ((afterScalarName_exact desc p _ : Exact env _ _ _ _ _ _).starts _ _ _ ⟨h, hsize⟩).length_le
    · exact ((afterObjectName_exact desc p _ : Exact env _ _ _ _ _ _).starts _ _ _ ⟨h, hsize⟩).length_le
    · exact ((afterEnumName_exact desc p _ : Exact env _ _ _ _ _ _).starts _ _ _ ⟨h, hsize⟩).length_le
    · exact ((afterInputName_exact desc p _ : Exact env _ _ _ _ _ _).starts _ _ _ ⟨h, hsize⟩).length_le
  exact Nat.le_succ_of_le hmid

lemma definition_length {d : Definition}
    (h : Within Definition.nesting levels IsDefinition (t :: ts) d rest) : rest.length ≤ ts.length := by
  have env : ParseLimits := ⟨.start, 0, 0⟩
  obtain ⟨h, hsize⟩ := h
  cases h with
  | operation h =>
    cases h with
    | shorthand h =>
      exact ((shorthandOperation_exact : Exact env _ _ _ _ _ _).starts _ _ _
        ⟨⟨_, h, rfl⟩, hsize⟩).length_tail
    | full starts names declares directives selects =>
      exact ((operationDefinition_exact _ : Exact env _ _ _ _ _ _).starts _ _ _
        ⟨⟨.full starts names declares directives selects, rfl, rfl⟩, hsize⟩).length_tail
  | fragment h =>
    exact ((fragmentDefinition_exact : Exact env _ _ _ _ _ _).starts _ _ _ ⟨h, hsize⟩).length_tail
  | type h =>
    obtain ⟨desc, mid, describes, word, mid', rfl, -, h⟩ := isTypeDefinition_iff.mp h
    have hlen := afterTypeKeyword_length ⟨h, hsize⟩
    obtain _ | ⟨-, -⟩ := describes
    · exact hlen
    · exact Nat.le_succ_of_le hlen

lemma isDefinition_nil {d : Definition} : ¬IsDefinition [] d rest := by
  rintro (h | h | h)
  · cases h with
    | shorthand h => obtain ⟨⟨⟩⟩ := h
    | full starts => cases starts
  · obtain ⟨⟨⟩⟩ := h
  · cases h

/-- A definition does not start as a type definition might go on. -/
lemma isDefinition_endsType {d : Definition} (h : IsDefinition ts d rest) : EndsType ts := by
  cases ts with
  | nil => exact absurd h isDefinition_nil
  | cons t us =>
    have hkind : t.kind ∉ [.atSign, .parenOpen] ∧ t.isKeyword "implements" = false := by
      rw [isDefinition_cons, DefinitionAt] at h
      cases hk : t.kind <;> simp only [hk] at h
      case braceOpen | string | blockString => simp [Token.isKeyword, hk]
      case name =>
        have htext : t.text ≠ "implements" := by
          obtain ⟨op, h, hop, -⟩ | ⟨f, h, -⟩ | ⟨d', h, -⟩ := h
          · rw [ofKeyword?_eq_some.mp (operation_keyword h hop)]
            cases op.type <;> decide
          · rw [fragment_keyword h]
            decide
          · intro heq
            exact absurd (type_keyword h) (by rw [heq]; decide)
        simp [Token.isKeyword, htext]
    refine ⟨fun t' ht' => ?_, fun t' ht' => ?_⟩
    · obtain rfl : t = t' := Option.some.inj ht'
      exact hkind.1
    · obtain rfl : t = t' := Option.some.inj ht'
      exact hkind.2

end

lemma recoverDefinition_silent (before : List Token) : Silent env (recoverDefinition before) := by
  refine .bind .remaining fun _ => ?_
  split
  · exact .bind .advance fun _ => .bind .remaining fun _ => .bind (.continueAt _) fun _ =>
      .dropDelimiters
  · exact .bind .remaining fun _ => .bind (.continueAt _) fun _ => .dropDelimiters

/-- What `definitions` does once the first definition of `before` was tried. -/
def afterDefinition (steps : Nat) (read : List Definition) (before : List Token) :
    Option (Option Definition) → Parse (List Definition)
  | some (some d) => definitions steps (d :: read)
  | some none => definitions steps read
  | none => recoverDefinition before >>= fun _ => definitions steps read

lemma afterDefinition_keeps {steps : Nat} {read : List Definition} {before : List Token}
    (h : ∀ read, KeepsErrors env (definitions steps read)) (o : Option (Option Definition)) :
    KeepsErrors env (afterDefinition steps read before o) := by
  unfold afterDefinition
  split
  · exact h _
  · exact h _
  · exact .silent_bind (recoverDefinition_silent _) fun _ => h _

lemma definitions_keeps (steps : Nat) (read : List Definition) :
    KeepsErrors env (definitions steps read) := by
  induction steps generalizing read with
  | zero => exact .pure _
  | succ steps ih =>
    exact .silent_bind .remaining fun before => .silent_bind .isAborted fun aborted =>
      .ite (.pure _) ((KeepsErrors.attempt definition_keeps).bind (afterDefinition_keeps ih))

/-- Where nothing is left, or nothing but definitions, a definition may end. -/
lemma many_endsType {ts : List Token} {ds : List Definition}
    (h : Many (Within Definition.nesting levels IsDefinition) ts ds []) : EndsType ts := by
  obtain _ | ⟨hd, -⟩ := h
  · exact ⟨.nil, .nil⟩
  · exact isDefinition_endsType hd.1

/-- What `definitions` makes behind the definitions that were read before. -/
def MoreDefinitions (levels : Nat) (read : List Definition) : Production (List Definition) :=
  fun ts out rest => ∃ ds, Many (Within Definition.nesting levels IsDefinition) ts ds [] ∧ rest = [] ∧
    out = read.reverse ++ ds

/-- **Definitions one behind the other.** A run that skips tokens has reported an error. -/
lemma definitions_exactAt {steps : Nat} {read : List Definition} {ts : List Token}
    (hsteps : ts.length < steps) (hts : ts.length ≤ env.tokenCount) :
    ExactAt env levels (definitions steps read) (MoreDefinitions levels read ts) (fun _ => True) ts := by
  induction steps generalizing read ts with
  | zero => exact absurd hsteps (Nat.not_lt_zero _)
  | succ steps ih =>
    cases ts with
    | nil =>
      have hrun : ∀ ds depth, definitions (steps + 1) read env (clean [] ds depth) =
          (pure read.reverse : Parse _) env (clean [] ds depth) := fun _ _ => rfl
      refine ((ExactAt.pure read.reverse).of_run hrun).congr (fun out rest => ?_) fun _ h => h
      constructor
      · rintro ⟨ds, hmany, rfl, rfl⟩
        obtain ⟨rfl, -⟩ | ⟨d, mid, more, h, -⟩ := many_iff.mp hmany
        · exact ⟨List.append_nil _, rfl⟩
        · exact absurd h.1 isDefinition_nil
      · rintro ⟨rfl, rfl⟩
        exact ⟨[], .nil, rfl, (List.append_nil _).symm⟩
    | cons t us =>
      have hrun : ∀ ds depth, definitions (steps + 1) read env (clean (t :: us) ds depth) =
          (attempt definition >>= afterDefinition steps read (t :: us)) env
            (clean (t :: us) ds depth) := fun _ _ => rfl
      have hdefinition : ExactAt env levels definition (IsDefinitionWithin levels (t :: us)) EndsType
        (t :: us) := definition_exactAt (List.cons_ne_nil t us) hts
      refine .of_run ((hdefinition.attempt_bind (R := fun o => MoreDefinitions levels (o.toList ++ read))
        (fun o => ?_) (fun o mid h => ?_) ?_).relax ?_ ?_ fun _ h => h) hrun
      · exact afterDefinition_keeps (definitions_keeps steps) o
      · obtain ⟨d, h, rfl⟩ := h
        have hmid := definition_length h
        rw [List.length_cons] at hsteps hts
        exact ih (by omega) (by omega)
      · rintro o mid out rest - ⟨ds, hmany, -⟩ -
        exact many_endsType hmany
      · rintro out rest ⟨_, mid, ⟨d, h, rfl⟩, ds, hmany, rfl, rfl⟩
        exact ⟨d :: ds, .cons h hmany, rfl, by simp⟩
      · rintro out rest ⟨ds, hmany, rfl, rfl⟩ -
        obtain ⟨-, heq⟩ | ⟨d, mid, more, h, hmore, rfl⟩ := many_iff.mp hmany
        · exact absurd heq.symm (List.cons_ne_nil _ _)
        · exact ⟨some d, mid, ⟨d, h, rfl⟩, more, hmore, rfl, by simp⟩

end Parse

namespace Document

open Parse ParseState

variable {o : ParseOptions} {source : List Char} {d : Document}

lemma isDocument_within {tokens : List Token} {levels : Nat} :
    IsDocument tokens d ∧ d.nesting ≤ levels ↔
      Many (Within Definition.nesting levels IsDefinition) tokens d.definitions [] := by
  rw [IsDocument, many_within, Document.nesting, largest_le]

/-- **The grammar is unambiguous.** Of two documents that some tokens derive, a reading with room for
both makes each. -/
theorem isDocument_unique {tokens : List Token} {d d' : Document} (h : IsDocument tokens d)
    (h' : IsDocument tokens d') : d = d' := by
  let env : ParseLimits := ⟨.start, tokens.length, max d.nesting d'.nesting⟩
  have hexact : ExactAt env env.maxDepth (Parse.definitions (tokens.length + 1) []) _ _ tokens :=
    definitions_exactAt (Nat.lt_succ_self _) (Nat.le_refl tokens.length)
  have hrun : ∀ {d : Document}, IsDocument tokens d → d.nesting ≤ env.maxDepth →
      Parse.definitions (tokens.length + 1) [] env (clean tokens [] 0) =
        (some d.definitions, clean [] [] 0) := fun {d} hd hnesting =>
    hexact.complete [] 0 (Nat.zero_add _) _ [] ⟨_, isDocument_within.mp ⟨hd, hnesting⟩, rfl, rfl⟩ trivial
  have heq := (hrun h (Nat.le_max_left _ _)).symm.trans (hrun h' (Nat.le_max_right _ _))
  obtain ⟨ds⟩ := d
  obtain ⟨ds'⟩ := d'
  cases heq
  rfl

/-- The run behind a reading, for a source that is not too large. -/
lemma parseWith_run (hsize : byteLength source ≤ o.maxSize) :
    ∃ run : Option (List Definition) × ParseState,
      (parseWith o source = match run.2.aborted with
        | some e => ⟨none, [e]⟩
        | none => ⟨some ⟨run.1.getD []⟩, run.2.errors.reverse⟩) ∧
      (run.2.IsClean → ∃ d, IsDocument (Token.lex source) d ∧ d.nesting ≤ o.maxDepth ∧
        run = (some d.definitions, clean [] [] 0)) ∧
      ∀ d, IsDocument (Token.lex source) d → d.nesting ≤ o.maxDepth →
        run = (some d.definitions, clean [] [] 0) := by
  let env : ParseLimits := ⟨.ofOffset (byteLength source), (Token.lex source).length, o.maxDepth⟩
  have hexact : ExactAt env o.maxDepth (Parse.definitions ((Token.lex source).length + 1) []) _ _ _ :=
    definitions_exactAt (Nat.lt_succ_self _) (Nat.le_refl (Token.lex source).length)
  have hdepth : 0 + o.maxDepth = env.maxDepth := Nat.zero_add _
  refine ⟨_, if_neg (Nat.not_lt_of_le hsize), fun hclean => ?_, fun d hd hnesting => ?_⟩
  · obtain ⟨out, rest, ⟨ds, hmany, rfl, hout⟩, hrun⟩ := hexact.sound [] 0 hdepth hclean
    obtain rfl : out = ds := hout
    obtain ⟨hd, hnesting⟩ := (isDocument_within (d := ⟨out⟩)).mpr hmany
    exact ⟨⟨out⟩, hd, hnesting, hrun⟩
  · have hmany := isDocument_within.mp ⟨hd, hnesting⟩
    exact hexact.complete [] 0 hdepth _ [] ⟨d.definitions, hmany, rfl, rfl⟩ trivial

lemma parseWith_sound (h : (parseWith o source).errors = []) :
    ∃ d, parseWith o source = ⟨some d, []⟩ ∧ byteLength source ≤ o.maxSize ∧
      IsDocument (Token.lex source) d ∧ d.nesting ≤ o.maxDepth := by
  have hsize : byteLength source ≤ o.maxSize := by
    by_contra hlarge
    rw [parseWith, if_pos (Nat.lt_of_not_le hlarge)] at h
    exact absurd h (List.cons_ne_nil _ _)
  obtain ⟨run, heq, hsound, -⟩ := parseWith_run (o := o) hsize
  have hclean : run.2.IsClean := by
    rw [heq] at h
    cases haborted : run.2.aborted with
    | some e => simp [haborted] at h
    | none =>
      rw [haborted] at h
      exact ⟨by simpa using h, haborted⟩
  obtain ⟨d, hd, hnesting, rfl⟩ := hsound hclean
  exact ⟨d, heq, hsize, hd, hnesting⟩

lemma parseWith_complete (hsize : byteLength source ≤ o.maxSize) (hd : IsDocument (Token.lex source) d)
    (hnesting : d.nesting ≤ o.maxDepth) : parseWith o source = ⟨some d, []⟩ := by
  obtain ⟨run, heq, -, hcomplete⟩ := parseWith_run (o := o) hsize
  rw [heq, hcomplete d hd hnesting]
  rfl

/-- **Parsing reads the grammar.** A source within the limits is read without errors if and only if
its tokens derive a document, and the document that is read is the one derived. -/
theorem parseWith_exact (o : ParseOptions) (source : List Char) :
    ((parseWith o source).errors = [] ↔ byteLength source ≤ o.maxSize ∧
      ∃ d, IsDocument (Token.lex source) d ∧ d.nesting ≤ o.maxDepth) ∧
    ∀ d, parseWith o source = ⟨some d, []⟩ ↔ byteLength source ≤ o.maxSize ∧
      IsDocument (Token.lex source) d ∧ d.nesting ≤ o.maxDepth := by
  have hcomplete : ∀ d, byteLength source ≤ o.maxSize ∧ IsDocument (Token.lex source) d ∧
      d.nesting ≤ o.maxDepth → parseWith o source = ⟨some d, []⟩ :=
    fun d ⟨hsize, hd, hnesting⟩ => parseWith_complete hsize hd hnesting
  refine ⟨⟨fun h => ?_, ?_⟩, fun d => ⟨fun h => ?_, hcomplete d⟩⟩
  · obtain ⟨d, -, hsize, hd, hnesting⟩ := parseWith_sound h
    exact ⟨hsize, d, hd, hnesting⟩
  · rintro ⟨hsize, d, hd, hnesting⟩
    rw [hcomplete d ⟨hsize, hd, hnesting⟩]
  · obtain ⟨d', hd', hderived⟩ := parseWith_sound (show (parseWith o source).errors = [] by rw [h])
    rw [h] at hd'
    cases hd'
    exact hderived

end Document

end GraphQL
