import GraphQL.Proofs.Parser.Exact.Operation

/-!
Type definitions follow the grammar.
-/

namespace GraphQL

open Grammar

namespace Parse

open ParseState

variable {env : ParseLimits} {levels : Nat}

lemma description_exact :
    Exact env levels description (Optional IsString) [.string, .blockString] true
      [.string, .blockString] := by
  refine ⟨.silent_bind .peek fun t => ?_, fun ts desc rest h => ?_, fun ts hts => .peek_bind ?_⟩
  · cases t with
    | none => exact .pure _
    | some t =>
      have hcook := (cook_exact t : Exact env 0 _ _ _ _ _).keeps
      exact .ite (.silent_bind .advance fun _ => hcook.bind fun _ => .pure _) (.pure _)
  · obtain _ | ⟨hk, -⟩ := h
    · exact .inl ⟨rfl, rfl⟩
    · exact .inr ⟨_, rest, rfl, by simpa using isString_iff.mp hk, Nat.le_refl _⟩
  · have hnone : NotNext [.string, .blockString] ts → ∀ desc rest,
        Optional IsString ts desc rest ↔ desc = none ∧ rest = ts := fun hnext desc rest => by
      constructor
      · rintro (_ | ⟨hk, -⟩)
        · exact ⟨rfl, rfl⟩
        · exact absurd (by simpa using isString_iff.mp hk) (hnext _ rfl)
      · rintro ⟨rfl, rfl⟩
        exact .absent
    cases ts with
    | nil => exact (ExactAt.pure none).congr (hnone .nil) fun _ h => h
    | cons t us =>
      refine .ite (fun hk => ?_) fun hk => ?_
      · have hcook : Exact env levels _ _ _ _ _ := (cook_exact t).map some
        refine (ExactAt.advance_bind (hcook.exactAt us (Nat.le_of_succ_le hts))).relax ?_ ?_ fun _ _ => by
          simp [NotNext]
        · rintro desc rest ⟨text, ⟨hcooks, rfl⟩, rfl⟩
          exact .present ⟨hk, hcooks⟩
        · rintro desc rest (_ | ⟨-, hcooks⟩) hrest
          · exact absurd (by simpa using isString_iff.mp hk) (hrest _ rfl)
          · exact ⟨_, ⟨hcooks, rfl⟩, rfl⟩
      · refine (ExactAt.pure none).congr (hnone fun t' ht' => ?_) fun _ h => h
        obtain rfl : t = t' := Option.some.inj ht'
        simpa using fun h => hk (isString_iff.mpr h)

/-- A description and a name are not without tokens. -/
lemma described_cons {ts ts₁ ts₂ : List Token} {desc : Option String} {name : Name}
    (h : Optional IsString ts desc ts₁) (hname : IsName ts₁ name ts₂) : ∃ t us, ts = t :: us := by
  obtain _ | ⟨-, -⟩ := h
  · obtain ⟨-⟩ := hname
    exact ⟨_, _, rfl⟩
  · exact ⟨_, _, rfl⟩

lemma inputDefinition_exact :
    Exact env levels inputDefinition (Within InputDefinition.nesting levels IsInputDefinition)
      [.string, .blockString, .name] false [.bang, .equals, .atSign, .parenOpen] := by
  refine (Exact.here_bind fun p => description_exact.bind (by decide) fun desc =>
    (expectName_exact "input value name").bind (by simp) fun name =>
      (discard_exact (expect_exact .colon)).bind (by simp) fun _ =>
        typeRef_exact.bind (by decide) fun type =>
          (defaultValue_exact .inputDefault).bind (by simp) fun default? =>
            directives_exact.bind (by simp) fun dirs =>
              .pure (InputDefinition.mk desc name type default? dirs p)).congr
    (fun ts i rest => ?_) (by simp) (by simp) (by decide)
  constructor
  · rintro ⟨⟨describes, names, separates, types, defaults, directives⟩, hsize⟩
    simp only [InputDefinition.nesting, Nat.max_le] at hsize
    obtain ⟨htype, hdefault, hdirs⟩ := hsize
    exact ⟨_, _, describes, _, _, names, (), _, ⟨_, separates⟩, _, _, ⟨types, htype⟩, _, _,
      ⟨defaults, hdefault⟩, _, _, ⟨directives, hdirs⟩, rfl, rfl⟩
  · rintro ⟨desc, ts₁, describes, name, ts₂, names, -, ts₃, ⟨colon, separates⟩, type, ts₄,
      ⟨types, htype⟩, default?, ts₅, ⟨defaults, hdefault⟩, dirs, mid, ⟨directives, hdirs⟩, rfl, rfl⟩
    obtain ⟨t, us, rfl⟩ := described_cons describes names
    refine ⟨⟨describes, names, separates, types, defaults, directives⟩, ?_⟩
    exact Nat.max_le.mpr ⟨htype, Nat.max_le.mpr ⟨hdefault, hdirs⟩⟩

lemma fieldDefinition_exact :
    Exact env levels fieldDefinition (Within FieldDefinition.nesting levels IsFieldDefinition)
      [.string, .blockString, .name] false [.bang, .atSign, .parenOpen] := by
  have hargs : Exact env levels _ _ _ _ _ :=
    optionalGroup_exact .argumentDefinitions inputDefinition_exact (by decide)
  refine (Exact.here_bind fun p => description_exact.bind (by decide) fun desc =>
    (expectName_exact "field name").bind (by simp) fun name => hargs.bind (by decide) fun args =>
      (discard_exact (expect_exact .colon)).bind (by simp) fun _ =>
        typeRef_exact.bind (by decide) fun type => directives_exact.bind (by simp) fun dirs =>
          .pure (FieldDefinition.mk desc name args type dirs p)).congr
    (fun ts f rest => ?_) (by simp) (by simp) (by decide)
  constructor
  · rintro ⟨⟨describes, names, declares, separates, types, directives⟩, hsize⟩
    simp only [FieldDefinition.nesting, Nat.max_le] at hsize
    obtain ⟨hargs, htype, hdirs⟩ := hsize
    exact ⟨_, _, describes, _, _, names, _, _, ⟨declares, hargs⟩, (), _, ⟨_, separates⟩, _, _,
      ⟨types, htype⟩, _, _, ⟨directives, hdirs⟩, rfl, rfl⟩
  · rintro ⟨desc, ts₁, describes, name, ts₂, names, args, ts₃, ⟨declares, hargs⟩, -, ts₄,
      ⟨colon, separates⟩, type, ts₅, ⟨types, htype⟩, dirs, mid, ⟨directives, hdirs⟩, rfl, rfl⟩
    obtain ⟨t, us, rfl⟩ := described_cons describes names
    refine ⟨⟨describes, names, declares, separates, types, directives⟩, ?_⟩
    exact Nat.max_le.mpr ⟨hargs, Nat.max_le.mpr ⟨htype, hdirs⟩⟩

lemma isReservedValue_iff {text : String} :
    ¬isReservedValue text = true ↔ text ≠ "true" ∧ text ≠ "false" ∧ text ≠ "null" := by
  simp [isReservedValue, and_assoc]

lemma enumValueDefinition_exact :
    Exact env levels enumValueDefinition (Within EnumValueDefinition.nesting levels IsEnumValue)
      [.string, .blockString, .name] false [.atSign, .parenOpen] := by
  have hrest : ∀ (p : Pos) (desc : Option String) (name : Name), Exact env levels _ _ _ _ _ :=
    fun p desc name =>
      (directives_exact : Exact env levels (directives (some .schemaDirective)) _ _ _ _).bind (by simp)
        fun dirs => .pure (EnumValueDefinition.mk desc name dirs p)
  refine (Exact.here_bind fun p => description_exact.bind (by decide) fun desc =>
    (expectName_exact "enum value").bind (by simp) fun name => .ite_complains
      (fun _ => ⟨(KeepsErrors.report _).bind fun _ => (hrest p desc name).keeps,
        (Complains.report _).bind fun _ => (hrest p desc name).keeps⟩) (hrest p desc name)).congr
    (fun ts v rest => ?_) (by simp) (by simp) (by decide)
  constructor
  · rintro ⟨⟨describes, names, isOther, directives⟩, hsize⟩
    exact ⟨_, _, describes, _, _, names, isReservedValue_iff.mpr isOther, _, _, ⟨directives, hsize⟩, rfl,
      rfl⟩
  · rintro ⟨desc, ts₁, describes, name, ts₂, names, isOther, dirs, mid, ⟨directives, hdirs⟩, rfl, rfl⟩
    obtain ⟨t, us, rfl⟩ := described_cons describes names
    exact ⟨⟨describes, names, isReservedValue_iff.mp isOther, directives⟩, hdirs⟩

/-! ### Types -/

/-- What is behind the name of a type. -/
def AfterTypeName (word : String) (desc : Option String) (p : Pos) (name : Name) :
    Production TypeDefinition := fun ts d rest =>
  ∃ dirs mid body, IsDirectives true ts dirs mid ∧ IsTypeBody mid body rest ∧ body.keyword = word ∧
    d = ⟨desc, name, dirs, body, p⟩

/-- What is behind the keyword of a type. -/
def AfterTypeKeyword (word : String) (desc : Option String) (p : Pos) : Production TypeDefinition :=
  fun ts d rest => ∃ name mid, IsName ts name mid ∧ AfterTypeName word desc p name mid d rest

lemma afterTypeName_exact {γ : Type} {holds : Parse γ} (make : γ → TypeBody) {word : String}
    {first : List TokenKind} {nullable : Bool} (desc : Option String) (p : Pos) (name : Name)
    (hmake : ∀ c, (make c).keyword = word) (hword : ∀ body, body.keyword = word → ∃ c, body = make c)
    (hholds : Exact env levels holds
      (fun ts c rest => IsTypeBody ts (make c) rest ∧ (make c).nesting ≤ levels) first nullable [])
    (hfirst : ∀ k ∈ [.atSign, .parenOpen], k ∉ first) :
    Exact env levels (directives (some .schemaDirective) >>= fun dirs => holds >>= fun c =>
        pure (TypeDefinition.mk desc name dirs (make c) p))
      (Within TypeDefinition.nesting levels (AfterTypeName word desc p name)) (.atSign :: first) nullable
      [.atSign, .parenOpen] := by
  refine (directives_exact.bind (by simpa using hfirst) fun dirs => hholds.bind (by simp) fun c =>
    .pure (TypeDefinition.mk desc name dirs (make c) p)).congr (fun ts d rest => ?_) (by simp)
    (by simp) (by cases nullable <;> simp)
  constructor
  · rintro ⟨⟨dirs, mid, body, directives, h, hbody, rfl⟩, hsize⟩
    obtain ⟨c, rfl⟩ := hword body hbody
    obtain ⟨hdirs, hbody⟩ := Nat.max_le.mp hsize
    exact ⟨dirs, mid, ⟨directives, hdirs⟩, c, rest, ⟨h, hbody⟩, rfl, rfl⟩
  · rintro ⟨dirs, mid, ⟨directives, hdirs⟩, c, mid', ⟨h, hbody⟩, rfl, rfl⟩
    exact ⟨⟨dirs, mid, _, directives, h, hmake c, rfl⟩, Nat.max_le.mpr ⟨hdirs, hbody⟩⟩

lemma afterScalarName_exact (desc : Option String) (p : Pos) (name : Name) :
    Exact env levels (directives (some .schemaDirective) >>= fun dirs =>
        pure (TypeDefinition.mk desc name dirs .scalar p))
      (Within TypeDefinition.nesting levels (AfterTypeName "scalar" desc p name)) [.atSign] true
      [.atSign, .parenOpen] := by
  refine afterTypeName_exact (fun _ : Unit => .scalar) desc p name (fun _ => rfl) (fun body h => ?_)
    ((Exact.pure ()).congr (fun ts u rest => ?_) (by simp) id (by simp)) (by simp)
  · cases body <;> simp [TypeBody.keyword] at h
    exact ⟨(), rfl⟩
  · constructor
    · rintro ⟨⟨⟩, -⟩
      exact ⟨rfl, rfl⟩
    · rintro ⟨rfl, rfl⟩
      exact ⟨.scalar, Nat.zero_le _⟩

lemma afterObjectName_exact (desc : Option String) (p : Pos) (name : Name) :
    Exact env levels (directives (some .schemaDirective) >>= fun dirs =>
        optionalGroup .fieldsDefinition fieldDefinition >>= fun fields =>
        pure (TypeDefinition.mk desc name dirs (.object fields) p))
      (Within TypeDefinition.nesting levels (AfterTypeName "type" desc p name))
      [.atSign, .braceOpen] true [.atSign, .parenOpen] := by
  refine afterTypeName_exact .object desc p name (fun _ => rfl) (fun body h => ?_)
    ((body_exact .fieldsDefinition fieldDefinition_exact (by decide)).congr (fun ts fields rest => ?_)
      (by decide) id (by simp)) (by decide)
  · cases body <;> simp [TypeBody.keyword] at h
    exact ⟨_, rfl⟩
  · exact and_congr_left fun _ => ⟨fun | .object h => h, .object⟩

lemma afterEnumName_exact (desc : Option String) (p : Pos) (name : Name) :
    Exact env levels (directives (some .schemaDirective) >>= fun dirs =>
        optionalGroup .enumValues enumValueDefinition >>= fun values =>
        pure (TypeDefinition.mk desc name dirs (.enum values) p))
      (Within TypeDefinition.nesting levels (AfterTypeName "enum" desc p name))
      [.atSign, .braceOpen] true [.atSign, .parenOpen] := by
  refine afterTypeName_exact .enum desc p name (fun _ => rfl) (fun body h => ?_)
    ((body_exact .enumValues enumValueDefinition_exact (by decide)).congr (fun ts values rest => ?_)
      (by decide) id (by simp)) (by decide)
  · cases body <;> simp [TypeBody.keyword] at h
    exact ⟨_, rfl⟩
  · exact and_congr_left fun _ => ⟨fun | .enum h => h, .enum⟩

lemma afterInputName_exact (desc : Option String) (p : Pos) (name : Name) :
    Exact env levels (directives (some .schemaDirective) >>= fun dirs =>
        optionalGroup .inputFields inputDefinition >>= fun fields =>
        pure (TypeDefinition.mk desc name dirs (.input fields) p))
      (Within TypeDefinition.nesting levels (AfterTypeName "input" desc p name))
      [.atSign, .braceOpen] true [.atSign, .parenOpen] := by
  refine afterTypeName_exact .input desc p name (fun _ => rfl) (fun body h => ?_)
    ((body_exact .inputFields inputDefinition_exact (by decide)).congr (fun ts fields rest => ?_)
      (by decide) id (by simp)) (by decide)
  · cases body <;> simp [TypeBody.keyword] at h
    exact ⟨_, rfl⟩
  · exact and_congr_left fun _ => ⟨fun | .input h => h, .input⟩

/-- The next token is not this word. -/
def NotKeyword (word : String) (ts : List Token) : Prop := ∀ t ∈ ts.head?, t.isKeyword word = false

lemma NotKeyword.nil {word : String} : NotKeyword word [] := by
  rintro t ⟨⟩

lemma implementsClause_keeps : KeepsErrors env implementsClause := by
  refine .silent_bind .peek fun t => ?_
  cases t with
  | none => exact .pure _
  | some t =>
    refine .ite (.silent_bind .advance fun _ => (KeepsErrors.report _).bind fun _ => ?_) (.pure _)
    exact .silent_bind .remaining fun _ => .silent (.continueAt _)

/-- Where no list of interfaces can stand, leaving one out makes no difference. -/
lemma implements_exactAt {α : Type} {q : Parse α} {P : Production α} {first follow : List TokenKind}
    {nullable : Bool} {ts : List Token} (h : Exact env levels q P first nullable follow)
    (hname : .name ∉ first) (hts : ts.length ≤ env.tokenCount) :
    ExactAt env levels (implementsClause >>= fun _ => q) (P ts)
      (fun rest => NotNext follow rest ∧ NotKeyword "implements" rest) ts := by
  by_cases hword : NotKeyword "implements" ts
  · refine ((h.exactAt ts hts).congr (fun _ _ => Iff.rfl) fun _ h => h.1).of_run fun ds depth => ?_
    rw [bind_apply]
    cases ts with
    | nil => rfl
    | cons t us =>
      have ht : t.isKeyword "implements" = false := hword t rfl
      simp [implementsClause, bind_apply, peek, clean, pure_apply, ht]
  · obtain ⟨t, us, rfl, ht⟩ : ∃ t us, ts = t :: us ∧ t.isKeyword "implements" = true := by
      cases ts with
      | nil => exact absurd .nil hword
      | cons t us =>
        refine ⟨t, us, rfl, ?_⟩
        by_contra ht
        exact hword fun t' ht' => by cases ht'; simpa using ht
    refine ⟨fun ds depth _ hclean => ?_, fun ds depth _ a rest ha hrest => ?_⟩
    · have hclause := KeepsErrors.of_bind (fun _ => h.keeps) hclean
      simp [implementsClause, bind_apply, peek, clean, ht, advance, report, remaining, continueAt,
        ParseErrorCause.isUnfinished, IsClean] at hclause
    · obtain ⟨-, rfl⟩ | ⟨t', us', heq, hk, -⟩ := h.starts _ a rest ha
      · exact absurd hrest.2 hword
      · cases heq
        exact absurd ((isKeyword_iff.mp ht).1 ▸ hk) hname

lemma isTypeKeyword_iff {word : String} :
    isTypeKeyword word = true ↔ word = "scalar" ∨ word = "type" ∨ word = "enum" ∨ word = "input" := by
  simp [isTypeKeyword, or_assoc]

lemma typeDefinition_keeps (desc : Option String) (p : Pos) :
    KeepsErrors env (typeDefinition desc p) := by
  refine .silent_bind .peek fun t => ?_
  cases t with
  | none => exact .fail
  | some t =>
    refine .silent_bind .advance fun _ => ?_
    have hname : ∀ what, KeepsErrors env (expectName what) := fun what =>
      (expectName_exact what : Exact env 0 _ _ _ _ _).keeps
    split
    · exact (hname _).bind fun name => (afterScalarName_exact desc p name : Exact env 0 _ _ _ _ _).keeps
    · exact (hname _).bind fun name => implementsClause_keeps.bind fun _ =>
        (afterObjectName_exact desc p name : Exact env 0 _ _ _ _ _).keeps
    · exact (hname _).bind fun name => (afterEnumName_exact desc p name : Exact env 0 _ _ _ _ _).keeps
    · exact (hname _).bind fun name => (afterInputName_exact desc p name : Exact env 0 _ _ _ _ _).keeps
    · exact .silent_bind (.stepBack t) fun _ => .unexpected _

/-- What must not follow a type definition. -/
def EndsType (rest : List Token) : Prop :=
  NotNext [.atSign, .parenOpen] rest ∧ NotKeyword "implements" rest

/-- A type definition is read from its keyword on. -/
lemma typeDefinition_exactAt (desc : Option String) (p : Pos) {t : Token} {ts : List Token}
    (ht : isTypeKeyword t.text = true) (hts : ts.length ≤ env.tokenCount) :
    ExactAt env levels (typeDefinition desc p)
      (Within TypeDefinition.nesting levels (AfterTypeKeyword t.text desc p) ts) EndsType (t :: ts) := by
  refine .peek_bind (.advance_bind ?_)
  have hiff : ∀ d rest, Within TypeDefinition.nesting levels (AfterTypeKeyword t.text desc p) ts d rest ↔
      ∃ name mid, IsName ts name mid ∧
        Within TypeDefinition.nesting levels (AfterTypeName t.text desc p name) mid d rest := by
    refine fun d rest => ⟨?_, ?_⟩
    · rintro ⟨⟨name, mid, names, h⟩, hsize⟩
      exact ⟨name, mid, names, h, hsize⟩
    · rintro ⟨name, mid, names, h, hsize⟩
      exact ⟨⟨name, mid, names, h⟩, hsize⟩
  obtain hword | hword | hword | hword := isTypeKeyword_iff.mp ht
  all_goals simp only [hword] at hiff ⊢
  · have h : Exact env levels _ _ _ _ _ := (expectName_exact "scalar name").bind (by simp) fun name =>
      afterScalarName_exact desc p name
    exact (h.exactAt ts hts).congr hiff fun _ h => h.1
  · have hname : Exact env levels (expectName "object type name") _ _ _ _ := expectName_exact _
    refine ((hname.exactAt ts hts).bind (fun name => ?_) (fun name mid h =>
      implements_exactAt (afterObjectName_exact desc p name) (by simp) ?_) ?_).congr hiff fun _ h => h
    · exact implementsClause_keeps.bind fun _ =>
        (afterObjectName_exact desc p name : Exact env 0 _ _ _ _ _).keeps
    · exact Nat.le_trans (hname.starts ts name mid h).length_le hts
    · exact fun _ _ _ _ _ _ _ _ _ => List.not_mem_nil
  · have h : Exact env levels _ _ _ _ _ := (expectName_exact "enum name").bind (by simp) fun name =>
      afterEnumName_exact desc p name
    exact (h.exactAt ts hts).congr hiff fun _ h => h.1
  · have h : Exact env levels _ _ _ _ _ := (expectName_exact "input object name").bind (by simp)
      fun name => afterInputName_exact desc p name
    exact (h.exactAt ts hts).congr hiff fun _ h => h.1

end Parse

end GraphQL
