import GraphQL.Proofs.Parser.Composed

/-!
Definitions that are not supported.

The skip of such a definition knows nothing of its grammar. It counts delimiters, and stops behind a body
in braces or else where a keyword seems to start the next definition. So a body is skipped exactly, and
behind a definition without one the next type is read from its keyword on: a description in front of it is
skipped too.
-/

namespace GraphQL

/-! ### The grammar -/

/-- The words that definitions start with. -/
def definitionKeywords : List String :=
  ["query", "mutation", "subscription", "fragment", "type", "scalar", "enum", "input", "interface", "union",
    "directive", "schema", "extend"]

namespace Grammar

/-- A name behind a mark. -/
inductive IsMarked (mark : Production Token) : Production Name where
  | mk {name : Name} (marks : mark ts t mid) (names : IsName mid name rest) : IsMarked mark ts name rest

/-- Names with marks between them. There may be one in front of the first, too. -/
inductive IsListed (mark : Production Token) : Production (List Name) where
  | mk {name : Name} {names : List Name} (first : IsName ts name mid ∨ IsMarked mark ts name mid)
      (more : Many (IsMarked mark) mid names rest) : IsListed mark ts (name :: names) rest

/-- An ampersand is a token of no kind of its own. -/
inductive IsAmpersand : Production Token where
  | mk {t : Token} (kind : t.kind = .unknown) (text : t.text = "&") : IsAmpersand (t :: rest) t rest

inductive IsImplements : Production (List Name) where
  | mk {names : List Name} (keyword : IsKeyword "implements" ts t mid)
      (interfaces : IsListed IsAmpersand mid names rest) : IsImplements ts names rest

/-- The members of a union. -/
inductive IsUnited : Production (List Name) where
  | mk {names : List Name} (marks : IsToken .equals ts t mid)
      (types : IsListed (IsToken .pipe) mid names rest) : IsUnited ts names rest

/-- A type of operation and the type that its fields are looked up in. -/
inductive IsRoot : Production (OperationType × Name) where
  | mk {op : OperationType} {name : Name} {keyword colon : Token} {ts₁ ts₂ : List Token}
      (starts : IsKeyword op.keyword ts keyword ts₁) (separates : IsToken .colon ts₁ colon ts₂)
      (names : IsName ts₂ name rest) : IsRoot ts (op, name) rest

/-- All that stands behind the keyword of a definition, but for a body in braces. -/
inductive IsHead : String → List Token → Prop where
  | plain {name : Name} {dirs : List Directive} (isOne : word = "scalar" ∨ word = "enum" ∨ word = "input")
      (names : IsName ts name ts₁) (directives : IsDirectives true ts₁ dirs []) : IsHead word ts
  | implementing {name : Name} {interfaces : Option (List Name)} {dirs : List Directive}
      (isOne : word = "type" ∨ word = "interface") (names : IsName ts name ts₁)
      (implements : Optional IsImplements ts₁ interfaces ts₂) (directives : IsDirectives true ts₂ dirs []) :
      IsHead word ts
  | union {name : Name} {dirs : List Directive} {types : Option (List Name)} (names : IsName ts name ts₁)
      (directives : IsDirectives true ts₁ dirs ts₂) (unites : Optional IsUnited ts₂ types []) :
      IsHead "union" ts
  | directive {mark on : Token} {name : Name} {args : List InputDefinition} {repeatable : Option Token}
      {locations : List Name} {ts₃ ts₄ ts₅ : List Token} (marks : IsToken .atSign ts mark ts₁)
      (names : IsName ts₁ name ts₂) (declares : OptionalGroup .argumentDefinitions IsInputDefinition ts₂ args ts₃)
      (repeats : Optional (IsKeyword "repeatable") ts₃ repeatable ts₄) (places : IsKeyword "on" ts₄ on ts₅)
      (lists : IsListed (IsToken .pipe) ts₅ locations []) : IsHead "directive" ts
  | schema {dirs : List Directive} (directives : IsDirectives true ts dirs []) : IsHead "schema" ts

/-- A body in braces, where the definition has one. Of a schema its root operations stand between braces as
fields do. -/
inductive IsBody : String → List Token → Prop where
  | absent : IsBody word []
  | fields {out : List FieldDefinition × Pos} (isOne : word = "type" ∨ word = "interface")
      (here : Group .fieldsDefinition IsFieldDefinition ts out []) : IsBody word ts
  | values {out : List EnumValueDefinition × Pos} (here : Group .enumValues IsEnumValue ts out []) :
      IsBody "enum" ts
  | inputs {out : List InputDefinition × Pos} (here : Group .inputFields IsInputDefinition ts out []) :
      IsBody "input" ts
  | roots {out : List (OperationType × Name) × Pos} (here : Group .fieldsDefinition IsRoot ts out []) :
      IsBody "schema" ts

/-- The tokens of a definition that is not supported: its keyword, the rest of it up to its body, and the
body. An extension has the word in front that is extended. That a schema needs a body, and that an extension
adds something, is not asked for. -/
inductive IsUnsupported : List Token → Token → List Token → List Token → Prop where
  | definition {keyword : Token} {desc : Option String}
      (describes : Optional IsString ts desc (keyword :: (head ++ body))) (isName : keyword.kind = .name)
      (isOne : keyword.text ∈ ["interface", "union", "directive", "schema"]) (heads : IsHead keyword.text head)
      (holds : IsBody keyword.text body) : IsUnsupported ts keyword head body
  | extension {keyword word : Token} (isName : keyword.kind = .name) (isExtend : keyword.text = "extend")
      (isName' : word.kind = .name)
      (isOne : word.text ∈ ["schema", "scalar", "type", "interface", "union", "enum", "input"])
      (heads : IsHead word.text head) (holds : IsBody word.text body) :
      IsUnsupported (keyword :: word :: (head ++ body)) keyword head body

/-! ### Heads -/

/-- Outside of parentheses no delimiter stands, and no string. -/
inductive Loose : List Token → Prop where
  | nil : Loose []
  | token {t : Token} (plain : t.kind.IsPlain) (unquoted : t.kind.isString = false) (more : Loose ts) :
      Loose (t :: ts)
  | parens {opening closing : Token} (opens : opening.kind = .parenOpen) (inner : Balanced ts)
      (closes : closing.kind = .parenClose) (more : Loose us) : Loose (opening :: (ts ++ closing :: us))

/-- What is read is loose. -/
def LooseFront (ts rest : List Token) : Prop := ∃ front, ts = front ++ rest ∧ Loose front

variable {α : Type} {P : Production α} {ts us mid rest head body : List Token} {t : Token} {word : String}

lemma Loose.append (h : Loose ts) (h' : Loose us) : Loose (ts ++ us) := by
  induction h with
  | nil => exact h'
  | token plain unquoted _ ih => exact .token plain unquoted ih
  | parens opens inner closes _ ih =>
    rw [List.cons_append, List.append_assoc, List.cons_append]
    exact .parens opens inner closes ih

lemma Loose.last (h : Loose ts) : ∀ t ∈ ts.getLast?, t.kind.isString = false := by
  induction h with
  | nil => simp
  | @token ts t plain unquoted more ih =>
    cases ts with
    | nil => simpa using unquoted
    | cons u us => simpa using ih
  | @parens ts us opening closing opens inner closes more ih =>
    intro t ht
    rw [← List.cons_append, List.getLast?_append_of_ne_nil _ (List.cons_ne_nil _ _)] at ht
    cases us with
    | nil =>
      obtain rfl : closing = t := Option.some.inj ht
      rw [closes]
      rfl
    | cons u us => exact ih t (by rwa [List.getLast?_cons_cons] at ht)

namespace LooseFront

lemma refl (ts : List Token) : LooseFront ts ts := ⟨[], rfl, .nil⟩

lemma trans (h : LooseFront ts mid) (h' : LooseFront mid rest) : LooseFront ts rest := by
  obtain ⟨front, rfl, hfront⟩ := h
  obtain ⟨front', rfl, hfront'⟩ := h'
  exact ⟨front ++ front', (List.append_assoc ..).symm, hfront.append hfront'⟩

lemma all (h : LooseFront ts []) : Loose ts := by
  obtain ⟨front, rfl, hfront⟩ := h
  rwa [List.append_nil]

lemma single (plain : t.kind.IsPlain) (unquoted : t.kind.isString = false) :
    LooseFront (t :: rest) rest := ⟨[t], rfl, .token plain unquoted .nil⟩

lemma token {k : TokenKind} (plain : k.IsPlain) (unquoted : k.isString = false)
    (h : IsToken k ts t rest) : LooseFront ts rest := by
  obtain ⟨rfl⟩ := h
  exact single plain unquoted

lemma keyword (h : IsKeyword word ts t rest) : LooseFront ts rest := by
  obtain ⟨hk, -⟩ := h
  exact single (hk ▸ ⟨rfl, rfl⟩) (hk ▸ rfl)

lemma name {n : Name} (h : IsName ts n rest) : LooseFront ts rest := by
  obtain ⟨hk⟩ := h
  exact single (hk ▸ ⟨rfl, rfl⟩) (hk ▸ rfl)

lemma ampersand (h : IsAmpersand ts t rest) : LooseFront ts rest := by
  obtain ⟨hk, -⟩ := h
  exact single (hk ▸ ⟨rfl, rfl⟩) (hk ▸ rfl)

lemma optional {a? : Option α} (hP : ∀ {ts a rest}, P ts a rest → LooseFront ts rest)
    (h : Optional P ts a? rest) : LooseFront ts rest := by
  obtain _ | h := h
  · exact refl ts
  · exact hP h

lemma many {as : List α} (hP : ∀ {ts a rest}, P ts a rest → LooseFront ts rest) (h : Many P ts as rest) :
    LooseFront ts rest := by
  induction h with
  | nil => exact refl _
  | cons head _ ih => exact (hP head).trans ih

lemma parens {c : Construct} {as : List α} (hP : ∀ a, Local P a) (hopens : c.opening = .parenOpen)
    (hcloses : c.closing = .parenClose) (h : OptionalGroup c P ts as rest) : LooseFront ts rest := by
  obtain _ | here := h
  · exact refl ts
  · obtain ⟨inner, opening, closing, rfl, opens, closes, hinner⟩ := Local.group_closed (fun a _ => hP a) here
    exact ⟨opening :: (inner ++ [closing]), by simp,
      .parens (opens.trans hopens) hinner (closes.trans hcloses) .nil⟩

lemma directives {dirs : List Directive} (h : IsDirectives true ts dirs rest) : LooseFront ts rest :=
  many (fun ⟨marks, names, arguments⟩ => (token ⟨rfl, rfl⟩ rfl marks).trans
    ((name names).trans (parens Local.argument rfl rfl arguments))) h

lemma listed {mark : Production Token} {names : List Name}
    (hmark : ∀ {ts t rest}, mark ts t rest → LooseFront ts rest) (h : IsListed mark ts names rest) :
    LooseFront ts rest := by
  have hmarked : ∀ {ts n rest}, IsMarked mark ts n rest → LooseFront ts rest :=
    fun ⟨marks, names⟩ => (hmark marks).trans (name names)
  obtain ⟨first, more⟩ := h
  exact (first.elim name hmarked).trans (many hmarked more)

end LooseFront

lemma IsHead.loose (h : IsHead word head) : Loose head := by
  have hpipes : ∀ {ts names rest}, IsListed (IsToken .pipe) ts names rest → LooseFront ts rest :=
    LooseFront.listed fun h => .token ⟨rfl, rfl⟩ rfl h
  cases h with
  | plain _ names directives => exact ((LooseFront.name names).trans (.directives directives)).all
  | implementing _ names implements directives =>
    have himplements := LooseFront.optional (fun ⟨keyword, interfaces⟩ =>
      (LooseFront.keyword keyword).trans (.listed .ampersand interfaces)) implements
    exact ((LooseFront.name names).trans (himplements.trans (.directives directives))).all
  | union names directives unites =>
    have hunites := LooseFront.optional (fun ⟨marks, types⟩ =>
      (LooseFront.token ⟨rfl, rfl⟩ rfl marks).trans (hpipes types)) unites
    exact ((LooseFront.name names).trans ((LooseFront.directives directives).trans hunites)).all
  | directive marks names declares repeats places lists =>
    have hnamed := (LooseFront.token ⟨rfl, rfl⟩ rfl marks).trans (.name names)
    have hplaced := (LooseFront.keyword places).trans (hpipes lists)
    exact (hnamed.trans ((LooseFront.parens Local.inputDefinition rfl rfl declares).trans
      ((LooseFront.optional .keyword repeats).trans hplaced))).all
  | schema directives => exact (LooseFront.directives directives).all

lemma Local.root (r : OperationType × Name) : Local IsRoot r := by
  rintro ts rest ⟨starts, separates, names⟩
  exact ((keyword _ starts).behind ((token ⟨rfl, rfl⟩ _ separates).behind (name _ names))).mono
    fun _ _ ⟨_, starts, _, separates, names⟩ => .mk starts separates names

/-- A body is braces with balanced tokens between them. -/
lemma IsBody.braces (h : IsBody word body) (hne : body ≠ []) :
    ∃ inner opening closing, body = opening :: (inner ++ [closing]) ∧ opening.kind = .braceOpen ∧
      closing.kind = .braceClose ∧ Balanced inner := by
  cases h with
  | absent => exact absurd rfl hne
  | fields _ here => exact Local.group_closed (fun d _ => Local.fieldDefinition d) here
  | values here => exact Local.group_closed (fun d _ => Local.enumValue d) here
  | inputs here => exact Local.group_closed (fun d _ => Local.inputDefinition d) here
  | roots here => exact Local.group_closed (fun r _ => Local.root r) here

variable {keyword : Token}

/-- A name stands in front of the head, the keyword or the word that is extended. -/
lemma IsUnsupported.parts (h : IsUnsupported ts keyword head body) : ∃ front word,
    ts = front ++ word :: (head ++ body) ∧ word.kind = .name ∧ IsHead word.text head ∧
      IsBody word.text body := by
  cases h with
  | definition describes isName isOne heads holds =>
    obtain _ | ⟨-, -⟩ := describes
    · exact ⟨[], keyword, rfl, isName, heads, holds⟩
    · exact ⟨[_], keyword, rfl, isName, heads, holds⟩
  | extension isName isExtend isName' isOne heads holds => exact ⟨[keyword], _, rfl, isName', heads, holds⟩

/-- The last token is no string that might go on. -/
lemma IsUnsupported.last (h : IsUnsupported ts keyword head body) : ∀ t ∈ ts.getLast?, t.kind ≠ .blockString := by
  obtain ⟨front, word, rfl, isName, heads, holds⟩ := h.parts
  intro t ht hk
  rw [List.getLast?_append_of_ne_nil _ (List.cons_ne_nil _ _)] at ht
  by_cases hne : body = []
  · rw [hne, List.append_nil] at ht
    have hloose : Loose (word :: head) := .token (isName ▸ ⟨rfl, rfl⟩) (isName ▸ rfl) heads.loose
    have hquoted := hloose.last t ht
    rw [hk] at hquoted
    exact absurd hquoted (by decide)
  · obtain ⟨inner, opening, closing, rfl, -, hclosing, -⟩ := holds.braces hne
    rw [← List.cons_append, ← List.cons_append, ← List.append_assoc, List.getLast?_concat] at ht
    obtain rfl : closing = t := Option.some.inj ht
    rw [hk] at hclosing
    exact absurd hclosing (by decide)

end Grammar

open Grammar

namespace Parse

open ParseState

/-! ### The skip -/

section

variable {depth : Nat} {t : Token} {ts : List Token}

lemma startsDefinition_keyword {word : String} {next : Option Token} (h : startsDefinition word next = true) :
    word ∈ definitionKeywords := by
  unfold startsDefinition at h
  dsimp only at h
  split at h <;> first | exact absurd h Bool.false_ne_true | decide

lemma behindUnsupported_plain (plain : t.kind.IsPlain)
    (hfree : depth = 0 → t.kind = .name → t.text ∉ definitionKeywords) :
    behindUnsupported depth (t :: ts) = behindUnsupported depth ts := by
  have hgo : ¬(depth = 0 && t.kind = .name && startsDefinition t.text ts.head?) = true := by
    intro h
    simp only [Bool.and_eq_true, decide_eq_true_eq] at h
    exact hfree h.1.1 h.1.2 (startsDefinition_keyword h.2)
  rw [behindUnsupported, if_neg hgo, if_neg (by simp [plain.1]), if_neg (by simp [plain.2])]

lemma behindUnsupported_opening (h : t.kind.isOpening = true) :
    behindUnsupported depth (t :: ts) = behindUnsupported (depth + 1) ts := by
  have hname : t.kind ≠ .name := ne_of_apply_ne TokenKind.isOpening (by rw [h]; decide)
  rw [behindUnsupported, if_neg (by simp [hname]), if_pos h]

lemma behindUnsupported_closing (h : t.kind.isClosing = true) :
    behindUnsupported depth (t :: ts) =
      if depth ≤ 1 && t.kind = .braceClose then ts else behindUnsupported (depth - 1) ts := by
  have hname : t.kind ≠ .name := ne_of_apply_ne TokenKind.isClosing (by rw [h]; decide)
  rw [behindUnsupported, if_neg (by simp [hname]), if_neg (by simp [not_isOpening_of_isClosing h]), if_pos h]

end

section

variable {inner head body : List Token} {opening closing : Token}

/-- Within a group that is open, balanced tokens are stepped over, names as well. -/
lemma behindUnsupported_inner (h : Balanced inner) (depth : Nat) (more : List Token) :
    behindUnsupported (depth + 1) (inner ++ more) = behindUnsupported (depth + 1) more := by
  -- The depth is any, as a group within is stepped over one level further down.
  induction h generalizing depth more with
  | nil => rfl
  | token plain _ ih =>
    rw [List.cons_append, behindUnsupported_plain plain fun h => absurd h (Nat.succ_ne_zero depth), ih]
  | @group ts us opening closing closes _ _ ih ih' =>
    have hopening : opening.kind.isOpening = true := by rw [TokenKind.isOpening, closes, Option.isSome_some]
    have hclosing : closing.kind.isClosing = true := TokenKind.isClosing_of_closing? closes
    rw [List.cons_append, List.append_assoc, List.cons_append, behindUnsupported_opening hopening, ih,
      behindUnsupported_closing hclosing, if_neg (by simp), Nat.add_sub_cancel, ih']

/-- A group that is opened outside of all others. -/
lemma behindUnsupported_group (hopening : opening.kind.isOpening = true) (hinner : Balanced inner)
    (hclosing : closing.kind.isClosing = true) (more : List Token) :
    behindUnsupported 0 (opening :: (inner ++ closing :: more)) =
      if closing.kind = .braceClose then more else behindUnsupported 0 more := by
  rw [behindUnsupported_opening hopening, behindUnsupported_inner hinner, behindUnsupported_closing hclosing]
  simp

/-- **The head of a definition is stepped over**, unless one of its names seems to start another one. -/
lemma behindUnsupported_loose (h : Loose head)
    (hfree : ∀ t ∈ head, t.kind = .name → t.text ∉ definitionKeywords) (more : List Token) :
    behindUnsupported 0 (head ++ more) = behindUnsupported 0 more := by
  induction h with
  | nil => rfl
  | token plain _ _ ih =>
    obtain ⟨ht, hts⟩ := List.forall_mem_cons.mp hfree
    rw [List.cons_append, behindUnsupported_plain plain fun _ => ht, ih hts]
  | parens opens inner closes _ ih =>
    rw [List.cons_append, List.append_assoc, List.cons_append,
      behindUnsupported_group (by rw [opens]; rfl) inner (by rw [closes]; rfl), if_neg (by simp [closes])]
    exact ih fun t ht => hfree t (by simp [ht])

/-- **A body is skipped exactly.** -/
lemma behindUnsupported_body {word : String} (h : IsBody word body) (hne : body ≠ []) (more : List Token) :
    behindUnsupported 0 (body ++ more) = more := by
  obtain ⟨inner, opening, closing, rfl, hopening, hclosing, hinner⟩ := h.braces hne
  rw [List.cons_append, List.append_assoc, List.singleton_append,
    behindUnsupported_group (by rw [hopening]; rfl) hinner (by rw [hclosing]; rfl), if_pos hclosing]

/-- Behind the keyword, what is left are the tokens behind the body, or where another definition seems to
start. -/
lemma behindUnsupported_skips {ts : List Token} {keyword : Token} (h : IsUnsupported ts keyword head body)
    (hfree : ∀ t ∈ head, t.kind = .name → t.text ∉ definitionKeywords) (more : List Token) :
    behindUnsupported 0 (head ++ (body ++ more)) = if body = [] then behindUnsupported 0 more else more := by
  obtain ⟨-, front, -, -, heads, holds⟩ := h.parts
  rw [behindUnsupported_loose heads.loose hfree]
  by_cases hne : body = []
  · rw [if_pos hne, hne, List.nil_append]
  · rw [if_neg hne, behindUnsupported_body holds hne]

end

/-! ### The run -/

/-- What is reported of a definition that is skipped. -/
def unsupported (keyword : Token) : ParseError :=
  ⟨keyword.start, max 1 keyword.text.utf8ByteSize, .unsupportedDefinition keyword.text⟩

/-- Where a parse stands that has reported one error. -/
def reported (e : ParseError) (ts : List Token) : ParseState := ⟨ts, [e], [], 0, false, none⟩

variable {env : ParseLimits} {ts head body : List Token} {keyword : Token}

lemma unsupportedDefinition_run (keyword : Token) (us : List Token) :
    unsupportedDefinition keyword env (.start (keyword :: us)) =
      (some (), reported (unsupported keyword)
        (behindUnsupported 0 (if keyword.text = "extend" then us.tail else us))) := by
  have hrun : unsupportedDefinition keyword env (.start (keyword :: us)) =
      (if (keyword.text == "extend") = true then
        advance >>= fun _ => remaining >>= fun rest => continueAt (behindUnsupported 0 rest)
      else remaining >>= fun rest => continueAt (behindUnsupported 0 rest)) env
        (reported (unsupported keyword) us) := rfl
  rw [hrun]
  by_cases h : keyword.text = "extend"
  · rw [if_pos (beq_iff_eq.mpr h), if_pos h]
    rfl
  · rw [if_neg (by simpa using h), if_neg h]
    rfl

/-- Of the keywords none starts a definition that is supported. -/
lemma unsupported_alone {word : String} (h : isUnsupportedKeyword word = true) :
    OperationType.ofKeyword? word = none ∧ (word == "fragment") = false ∧ isTypeKeyword word = false := by
  simp only [isUnsupportedKeyword, Bool.or_eq_true, beq_iff_eq] at h
  obtain (((rfl | rfl) | rfl) | rfl) | rfl := h <;> exact ⟨rfl, by decide, by decide⟩

lemma definition_keyword (isName : keyword.kind = .name) (hword : isUnsupportedKeyword keyword.text = true)
    (us : List Token) :
    definition env (.start (keyword :: us)) =
      (unsupportedDefinition keyword >>= fun _ => pure none) env (.start (keyword :: us)) := by
  obtain ⟨hoperation, hfragment, htype⟩ := unsupported_alone hword
  rw [definition, bind_apply]
  simp only [peek, ParseState.start, List.head?_cons, isName, hoperation, hfragment, htype, hword,
    Bool.false_eq_true, if_false, if_true]

lemma definition_described {t : Token} {text : String} (hk : t.kind.isString = true)
    (hcooks : StringLiteral.cook t.text = .ok text) (isName : keyword.kind = .name)
    (hword : isUnsupportedKeyword keyword.text = true) (us : List Token) :
    definition env (.start (t :: keyword :: us)) =
      (unsupportedDefinition keyword >>= fun _ => pure none) env (.start (keyword :: us)) := by
  obtain ⟨-, -, htype⟩ := unsupported_alone hword
  have hdescription : description env (.start (t :: keyword :: us)) = (some (some text), .start (keyword :: us)) := by
    simp only [description, bind_apply, peek, ParseState.start, List.head?_cons, hk, if_true, advance, cook, hcooks,
      List.tail_cons, pure_apply]
  have hdefinition : definition env (.start (t :: keyword :: us)) =
      (description >>= fun desc => afterDescription desc t.start) env (.start (t :: keyword :: us)) := by
    rw [definition, bind_apply]
    obtain hk | hk := isString_iff.mp hk <;> simp only [peek, ParseState.start, List.head?_cons, hk] <;> rfl
  rw [hdefinition, bind_apply, hdescription]
  dsimp only
  rw [afterDescription, bind_apply]
  simp only [peek, ParseState.start, List.head?_cons, isName, htype, hword, decide_true, Bool.true_and,
    Bool.and_false, Bool.false_eq_true, if_false, if_true]

/-- **An unsupported definition is one error**, and the rest of it is skipped. -/
lemma definition_unsupported (h : IsUnsupported ts keyword head body) (more : List Token) :
    definition env (.start (ts ++ more)) = (some none,
      reported (unsupported keyword) (behindUnsupported 0 (head ++ (body ++ more)))) := by
  cases h with
  | definition describes isName isOne =>
    have hword : isUnsupportedKeyword keyword.text = true ∧ keyword.text ≠ "extend" := by
      simp only [List.mem_cons, List.not_mem_nil, or_false] at isOne
      obtain hk | hk | hk | hk := isOne <;> rw [hk] <;> decide
    obtain ⟨hunsupported, hextend⟩ := hword
    obtain _ | ⟨hk, hcooks⟩ := describes
    · rw [List.cons_append, List.append_assoc, definition_keyword isName hunsupported, bind_apply,
        unsupportedDefinition_run, if_neg hextend]
      rfl
    · rw [List.cons_append, List.cons_append, List.append_assoc,
        definition_described hk hcooks isName hunsupported, bind_apply, unsupportedDefinition_run, if_neg hextend]
      rfl
  | extension isName isExtend =>
    rw [List.cons_append, List.cons_append, List.append_assoc, definition_keyword isName (by rw [isExtend]; rfl),
      bind_apply, unsupportedDefinition_run, if_pos isExtend, List.tail_cons]
    rfl

/-- The reading goes on behind it. -/
lemma definitions_unsupported (h : IsUnsupported ts keyword head body) (more : List Token) (steps : Nat) :
    Parse.definitions (steps + 1) [] env (.start (ts ++ more)) = Parse.definitions steps [] env
      (reported (unsupported keyword) (behindUnsupported 0 (head ++ (body ++ more)))) := by
  have hne : ts ++ more ≠ [] := by
    obtain ⟨front, word, hts, -⟩ := h.parts
    simp [hts]
  have hturn : Parse.definitions (steps + 1) [] env (.start (ts ++ more)) =
      (attempt definition >>= afterDefinition steps [] (ts ++ more)) env (.start (ts ++ more)) := by
    obtain ⟨t, us, heq⟩ := List.exists_cons_of_ne_nil hne
    rw [heq]
    rfl
  rw [hturn, bind_apply, attempt, definition_unsupported h]
  rfl

/-- Behind an error that was reported, tokens further on are read as they are alone. -/
lemma definitions_reported {env' : ParseLimits} {n steps steps' : Nat} {ds : List Definition} (e : ParseError)
    (hdepth : env'.maxDepth = env.maxDepth) (hend : env'.endPos = env.endPos.shift n)
    (hfits : ∀ t ∈ ts, Relocation.FitsBehind n t) (hcount : ts.length ≤ env.tokenCount)
    (hcount' : ts.length ≤ env'.tokenCount) (hsteps : ts.length < steps) (hsteps' : ts.length < steps')
    (hclean : Parse.definitions steps [] env (.start ts) = (some ds, clean [] [] 0)) :
    Document.resultOf (Parse.definitions steps' [] env' (reported e (ts.map (Token.relocate (Pos.shift n))))) =
      ⟨some ⟨ds.map (Definition.relocate (Pos.shift n))⟩, [e]⟩ := by
  -- The second reading begins with the error and reports none of its own, as the first does not.
  let r : Relocation := { Relocation.further env env' n hdepth hend with before := [e] }
  have hstate : r.State (.start ts) (reported e (ts.map (Token.relocate (Pos.shift n)))) :=
    ⟨⟨rfl, hfits⟩, hcount, hcount', .nil, rfl, rfl, rfl, .none⟩
  have hread : Simulates.Behind r [] ([] : List Definition).reverse ([] : List Definition).reverse := rfl
  have hlevels : (ParseState.start ts).depth + env.maxDepth = r.env.maxDepth := Nat.zero_add _
  have hsame := Simulates.definitions hread hstate hlevels hsteps hsteps'
  have hrun : Parse.definitions steps [] r.env (.start ts) = (some ds, clean [] [] 0) := hclean
  rw [hrun] at hsame
  obtain ⟨hmade, ⟨-, -, -, herrors, -, -, -, haborted⟩, -⟩ := hsame
  change Document.resultOf (Parse.definitions steps' [] r.env' _) = _
  generalize Parse.definitions steps' [] r.env' (reported e (ts.map (Token.relocate (Pos.shift n)))) = run'
    at hmade herrors haborted
  obtain ⟨o', st'⟩ := run'
  unfold Document.resultOf
  dsimp only [clean] at hmade herrors haborted ⊢
  generalize st'.aborted = a' at haborted
  generalize st'.errors = es' at herrors
  cases haborted
  cases herrors
  cases hmade with
  | some hds => rw [Option.getD_some, hds]; rfl

end Parse

/-- Without a description in front of it a definition stands at its keyword. -/
def TypeDefinition.bare (d : TypeDefinition) (word : Token) : TypeDefinition :=
  { d with description := none, pos := word.start }

namespace Document

open Parse ParseState

variable {o : ParseOptions} {U S : List Char} {ts : List Token} {d : TypeDefinition} {ds : List Definition}

lemma startsDefinition_type {b : TypeBody} {t : Token} (ht : t.kind = .name) :
    startsDefinition b.keyword (some t) = true := by
  cases b <;> simp [TypeBody.keyword, startsDefinition, ht]

/-- **A skip goes on to the keyword of a type**, over the description in front of it. -/
lemma behindUnsupported_document (h : IsDocument ts ⟨.type d :: ds⟩) : ∃ word,
    ts[d.description.toList.length]? = some word ∧ word.isKeyword d.body.keyword = true ∧
      (d.description = none → d.bare word = d) ∧
      IsDocument (behindUnsupported 0 ts) ⟨.type (d.bare word) :: ds⟩ := by
  obtain _ | ⟨⟨⟩ | ⟨⟩ | here, tail⟩ := h
  cases here with
  | @mk t _ _ _ us _ _ desc word _ dirs body describes starts names directives holds =>
  obtain ⟨hk, htext⟩ := starts
  obtain ⟨hnext⟩ := names
  rename_i u
  have hkeyword : word.isKeyword body.keyword = true := by simp [Token.isKeyword, hk, htext]
  have hstop : behindUnsupported 0 (word :: u :: us) = word :: u :: us := by
    rw [behindUnsupported, if_pos (by simp [hk, htext, startsDefinition_type hnext])]
  have hbare : IsDocument (word :: u :: us) ⟨.type ⟨none, ⟨u.text, u.start⟩, dirs, body, word.start⟩ :: ds⟩ :=
    .cons (.type (.mk .absent (.mk hk htext) (.mk hnext) directives holds)) tail
  obtain _ | ⟨hstring, -⟩ := describes
  · exact ⟨_, rfl, hkeyword, fun _ => rfl, by rwa [hstop]⟩
  · have hname : t.kind ≠ .name := ne_of_apply_ne TokenKind.isString (by rw [hstring]; decide)
    refine ⟨word, rfl, hkeyword, fun h => absurd h (Option.some_ne_none _), ?_⟩
    rwa [behindUnsupported_plain (TokenKind.isPlain_of_isString hstring) fun _ h => absurd h hname, hstop]

/-- A document that is read without an error. -/
lemma definitions_clean {env : ParseLimits} {steps : Nat} {d : Document} (h : IsDocument ts d)
    (hnesting : d.nesting ≤ env.maxDepth) (hcount : ts.length ≤ env.tokenCount) (hsteps : ts.length < steps) :
    Parse.definitions steps [] env (.start ts) = (some d.definitions, clean [] [] 0) := by
  have hexact : ExactAt env env.maxDepth (Parse.definitions steps []) _ _ ts := definitions_exactAt hsteps hcount
  exact hexact.complete [] 0 (Nat.zero_add _) _ [] ⟨_, isDocument_within.mp ⟨h, hnesting⟩, rfl, rfl⟩ trivial

/-- Of what stands behind a definition that is skipped, tokens are left that make a document. -/
lemma parseWith_skipped {keyword : Token} {head body left : List Token} {d : Document}
    (hU : IsUnsupported (Token.lex U) keyword head body) (hsuffix : left <:+ Token.lex S)
    (hleft : behindUnsupported 0 (head ++ (body ++ (Token.lex S).map
      (Token.relocate (Pos.shift (byteLength U + 1))))) = left.map (Token.relocate (Pos.shift (byteLength U + 1))))
    (hd : IsDocument left d) (hnesting : d.nesting ≤ o.maxDepth) (hsize : byteLength (U ++ '\n' :: S) ≤ o.maxSize)
    (hplaces : byteLength (U ++ '\n' :: S) ≤ Pos.maxOffset) :
    parseWith o (U ++ '\n' :: S) =
      ⟨some ⟨d.definitions.map (Definition.relocate (Pos.shift (byteLength U + 1)))⟩, [unsupported keyword]⟩ := by
  have hlex := lex_line hU.last hplaces
  have hbytes := byteLength_joined U S
  have hdepth : (limitsOf o (U ++ '\n' :: S)).maxDepth = (limitsOf o S).maxDepth := rfl
  have hend : (limitsOf o (U ++ '\n' :: S)).endPos = (limitsOf o S).endPos.shift (byteLength U + 1) :=
    (congrArg Pos.ofOffset hbytes).trans (Pos.ofOffset_add (hbytes ▸ hplaces))
  have hfits : ∀ t ∈ left, Relocation.FitsBehind (byteLength U + 1) t :=
    fun t ht => fitsBehind (hbytes ▸ hplaces) t (hsuffix.subset ht)
  have hfewer : left.length < (Token.lex (U ++ '\n' :: S)).length := by
    obtain ⟨front, word, hparts, -⟩ := hU.parts
    have hlength := hsuffix.length_le
    rw [hlex, hparts]
    simp only [List.length_append, List.length_cons, List.length_map]
    omega
  have hclean : Parse.definitions ((Token.lex S).length + 1) [] (limitsOf o S) (.start left) = _ :=
    definitions_clean hd hnesting hsuffix.length_le (Nat.lt_succ_of_le hsuffix.length_le)
  rw [parseWith_eq hsize, hlex, definitions_unsupported hU, hleft, ← hlex]
  exact definitions_reported _ hdepth hend hfits hsuffix.length_le (Nat.le_of_lt hfewer)
    (Nat.lt_succ_of_le hsuffix.length_le) hfewer hclean

/-- **What is skipped in front of a document.** A definition that is not supported, in whose head no name is a
keyword of definitions, is one error at its keyword, and of a document on the next line that begins with a type
all definitions are read. They are the same, further on, if the definition has a body in braces. If it has none,
the description of the first type is skipped with it: the type has no description then, and stands at its
keyword. So all is read as it is alone exactly if there is a body to stop behind or no description to skip. -/
theorem parseWith_unsupported (o : ParseOptions) (U S : List Char) {keyword : Token} {head body : List Token}
    (hU : IsUnsupported (Token.lex U) keyword head body)
    (hfree : ∀ t ∈ head, t.kind = .name → t.text ∉ definitionKeywords)
    (hS : parseWith o S = ⟨some ⟨.type d :: ds⟩, []⟩) (hsize : byteLength (U ++ '\n' :: S) ≤ o.maxSize)
    (hplaces : byteLength (U ++ '\n' :: S) ≤ Pos.maxOffset) :
    ∃ word, (Token.lex S)[d.description.toList.length]? = some word ∧ word.isKeyword d.body.keyword = true ∧
      (d.description = none → d.bare word = d) ∧
      parseWith o (U ++ '\n' :: S) =
        ⟨some ⟨(Definition.type (if body = [] then d.bare word else d) :: ds).map
          (Definition.relocate (Pos.shift (byteLength U + 1)))⟩, [unsupported keyword]⟩ ∧
      ((parseWith o (U ++ '\n' :: S)).document? =
        some ⟨(Definition.type d :: ds).map (Definition.relocate (Pos.shift (byteLength U + 1)))⟩ ↔
          body ≠ [] ∨ d.description = none) := by
  obtain ⟨-, hdocument, hnesting⟩ := ((parseWith_exact o S).2 _).mp hS
  obtain ⟨word, hword, hkeyword, hbare, hskipped⟩ := behindUnsupported_document hdocument
  have hskips := behindUnsupported_skips hU hfree
    ((Token.lex S).map (Token.relocate (Pos.shift (byteLength U + 1))))
  refine ⟨word, hword, hkeyword, hbare, ?_⟩
  by_cases hne : body = []
  · rw [if_pos hne, behindUnsupported_relocate] at hskips
    have hparse := parseWith_skipped hU (behindUnsupported_suffix 0 _) hskips hskipped hnesting hsize hplaces
    rw [if_pos hne, hparse]
    refine ⟨rfl, fun h => .inr ?_, fun h => ?_⟩
    · have hfirst := List.head_eq_of_cons_eq (Document.mk.inj (Option.some.inj h))
      exact (congrArg TypeDefinition.description (Definition.type.inj hfirst)).symm
    · rw [hbare (h.resolve_left (not_not_intro hne))]
  · rw [if_neg hne] at hskips
    have hparse := parseWith_skipped hU (List.suffix_refl _) hskips hdocument hnesting hsize hplaces
    rw [if_neg hne, hparse]
    exact ⟨rfl, fun _ => .inl hne, fun _ => rfl⟩

/-- A type with a description. -/
def described : List Char := "\"Root\" type Query \x7b a: Int \x7d".toList

lemma described_read : ∃ d, parseWith .default described = ⟨some ⟨[.type d]⟩, []⟩ ∧
    d.description = some "Root" := by
  have herrors : (parseWith .default described).errors = [] := by decide +kernel
  have hread : (parseWith .default described).document?.any (fun d => d.definitions.map
      (fun e => e.type?.bind (·.description)) = [some "Root"]) = true := by decide +kernel
  obtain ⟨⟨ds⟩, hd, -⟩ := parseWith_sound herrors
  rw [hd, Option.any_some, decide_eq_true_eq, List.map_eq_singleton_iff] at hread
  obtain ⟨e, rfl, he⟩ := hread
  cases e with
  | type d => exact ⟨d, hd, he⟩
  | operation op => cases he
  | fragment f => cases he

/-- An interface with directives and a body, whose brackets are closed. -/
def interfaceWithBody : List Char := "interface A @b(c: \x7b\x7d) \x7b d: E \x7d".toList

/-- The theorem at an interface with a body, in front of a type with a description. -/
theorem parseWith_unsupported_of_interface : ∃ d, parseWith .default described = ⟨some ⟨[.type d]⟩, []⟩ ∧
    d.description = some "Root" ∧
    parseWith .default (interfaceWithBody ++ '\n' :: described) =
      ⟨some ⟨[(Definition.type d).relocate (Pos.shift 31)]⟩,
        [⟨⟨0⟩, 9, .unsupportedDefinition "interface"⟩]⟩ := by
  obtain ⟨d, hd, hdescription⟩ := described_read
  let keyword : Token := ⟨.name, "interface", ⟨0⟩⟩
  let head : List Token := [⟨.name, "A", ⟨10⟩⟩, ⟨.atSign, "@", ⟨12⟩⟩, ⟨.name, "b", ⟨13⟩⟩,
    ⟨.parenOpen, "(", ⟨14⟩⟩, ⟨.name, "c", ⟨15⟩⟩, ⟨.colon, ":", ⟨16⟩⟩, ⟨.braceOpen, "\x7b", ⟨18⟩⟩,
    ⟨.braceClose, "\x7d", ⟨19⟩⟩, ⟨.parenClose, ")", ⟨20⟩⟩]
  let body : List Token := [⟨.braceOpen, "\x7b", ⟨22⟩⟩, ⟨.name, "d", ⟨24⟩⟩, ⟨.colon, ":", ⟨25⟩⟩,
    ⟨.name, "E", ⟨27⟩⟩, ⟨.braceClose, "\x7d", ⟨29⟩⟩]
  have hlex : Token.lex interfaceWithBody = keyword :: (head ++ body) := by decide +kernel
  have harguments : OptionalGroup .directiveArguments (IsArgument true) (head.drop 3) _ [] :=
    .present (.mk rfl (.cons (.mk (.mk (.mk rfl) (.mk rfl) (.object (.mk rfl .nil rfl fun _ => rfl)))) .nil) rfl nofun)
  have hhead : IsHead keyword.text head :=
    .implementing (.inr rfl) (.mk rfl) .absent (.cons (.mk (.mk rfl) (.mk rfl) harguments) .nil)
  have hbody : IsBody keyword.text body :=
    .fields (.inr rfl) (.mk rfl (.cons (.mk .absent (.mk rfl) .absent (.mk rfl) (.named (.mk rfl)) .nil) .nil) rfl nofun)
  have hU : IsUnsupported (Token.lex interfaceWithBody) keyword head body :=
    hlex ▸ .definition .absent rfl (by decide) hhead hbody
  have hsize : byteLength (interfaceWithBody ++ '\n' :: described) ≤ ParseOptions.default.maxSize := by
    decide +kernel
  obtain ⟨word, -, -, -, hparse, -⟩ := parseWith_unsupported .default interfaceWithBody described hU
    (by decide +kernel) hd hsize (Nat.le_trans hsize (by decide))
  exact ⟨d, hd, hdescription, hparse⟩

/-- A union, which has no body. -/
def bareUnion : List Char := "union U = A".toList

/-- Behind a union the description of a type is skipped, wherever the type is moved to. -/
theorem parseWith_unsupported_undescribed :
    (∃ head, IsUnsupported (Token.lex bareUnion) ⟨.name, "union", ⟨0⟩⟩ head [] ∧
      ∀ t ∈ head, t.kind = .name → t.text ∉ definitionKeywords) ∧
    ∃ d, parseWith .default described = ⟨some ⟨[.type d]⟩, []⟩ ∧ d.description = some "Root" ∧
      ∀ move, (parseWith .default (bareUnion ++ '\n' :: described)).document? ≠
        some ⟨[(Definition.type d).relocate move]⟩ := by
  obtain ⟨d, hd, hdescription⟩ := described_read
  let keyword : Token := ⟨.name, "union", ⟨0⟩⟩
  let head : List Token := [⟨.name, "U", ⟨6⟩⟩, ⟨.equals, "=", ⟨8⟩⟩, ⟨.name, "A", ⟨10⟩⟩]
  have hlex : Token.lex bareUnion = keyword :: (head ++ []) := by decide +kernel
  have hhead : IsHead keyword.text head :=
    .union (.mk rfl) .nil (.present (.mk (.mk rfl) (.mk (.inl (.mk rfl)) .nil)))
  have hU : IsUnsupported (Token.lex bareUnion) keyword head [] :=
    hlex ▸ .definition .absent rfl (by decide) hhead .absent
  have hread : (parseWith .default (bareUnion ++ '\n' :: described)).document?.any (fun d => d.types.map
      (·.description) = [none]) = true := by decide +kernel
  refine ⟨⟨head, hU, by decide +kernel⟩, d, hd, hdescription, fun move h => ?_⟩
  rw [h] at hread
  simp [Document.types, Definition.relocate, Definition.type?, TypeDefinition.relocate, hdescription] at hread

end Document

end GraphQL
