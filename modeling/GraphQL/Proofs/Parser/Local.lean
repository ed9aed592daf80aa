import Mathlib.Data.List.Infix
import GraphQL.Proofs.Document.Literal
import GraphQL.Proofs.Parser.Grammar

/-!
What is derived rests on the tokens that are read.

A production takes tokens from the front, and derives the same from them whatever follows. There is one
exception: where the body of a type is left out, the next token must not look like one. Among the tokens
that are read every delimiter that is opened is closed.
-/

namespace GraphQL

/-- Not one of the tokens between which others stand. -/
def TokenKind.IsPlain (k : TokenKind) : Prop := k.isOpening = false ∧ k.isClosing = false

instance : DecidablePred TokenKind.IsPlain := fun _ => inferInstanceAs (Decidable (_ ∧ _))

lemma TokenKind.isPlain_of_isString {k : TokenKind} (h : k.isString = true) : k.IsPlain := by
  cases k <;> first | exact ⟨rfl, rfl⟩ | cases h

lemma TokenKind.isClosing_of_closing? {k k' : TokenKind} (h : k.closing? = some k') : k'.isClosing = true := by
  cases k <;> cases h <;> rfl

namespace Grammar

/-- Every delimiter that is opened is closed, and no other is. -/
inductive Balanced : List Token → Prop where
  | nil : Balanced []
  | token {t : Token} (plain : t.kind.IsPlain) (more : Balanced ts) : Balanced (t :: ts)
  | group {opening closing : Token} (closes : opening.kind.closing? = some closing.kind)
      (inner : Balanced ts) (more : Balanced us) : Balanced (opening :: (ts ++ closing :: us))

lemma Balanced.append {ts us : List Token} (h : Balanced ts) (h' : Balanced us) : Balanced (ts ++ us) := by
  induction h with
  | nil => exact h'
  | token plain _ ih => exact .token plain ih
  | group closes inner _ _ ih =>
    rw [List.cons_append, List.append_assoc, List.cons_append]
    exact .group closes inner ih

/-- The tokens that are read make the same in front of any others. -/
def FromFront (R : List Token → List Token → Prop) (ts rest : List Token) : Prop :=
  ∃ front, ts = front ++ rest ∧ Balanced front ∧ ∀ more, R (front ++ more) more

/-- Wherever `a` is derived, it is derived from the tokens that are read. -/
def Local {α : Type} (P : Production α) (a : α) : Prop :=
  ∀ ⦃ts rest⦄, P ts a rest → FromFront (fun ts rest => P ts a rest) ts rest

namespace FromFront

variable {R R' : List Token → List Token → Prop} {ts mid rest : List Token}

lemma mono (h : FromFront R ts rest) (hR : ∀ us more, R us more → R' us more) : FromFront R' ts rest := by
  obtain ⟨front, hts, hbalanced, hfront⟩ := h
  exact ⟨front, hts, hbalanced, fun more => hR _ _ (hfront more)⟩

/-- One front behind another. -/
lemma behind (h : FromFront R ts mid) (h' : FromFront R' mid rest) :
    FromFront (fun us more => ∃ mid, R us mid ∧ R' mid more) ts rest := by
  obtain ⟨front, rfl, hbalanced, hfront⟩ := h
  obtain ⟨front', rfl, hbalanced', hfront'⟩ := h'
  refine ⟨front ++ front', (List.append_assoc ..).symm, hbalanced.append hbalanced',
    fun more => ⟨front' ++ more, ?_, hfront' more⟩⟩
  rw [List.append_assoc]
  exact hfront _

lemma nothing (hR : ∀ us, R us us) : FromFront R ts ts := ⟨[], rfl, .nil, hR⟩

lemma token {t : Token} (plain : t.kind.IsPlain) (hR : ∀ more, R (t :: more) more) :
    FromFront R (t :: rest) rest := ⟨[t], rfl, .token plain .nil, hR⟩

/-- A front between delimiters. -/
lemma enclosed {opening closing : Token} (closes : opening.kind.closing? = some closing.kind)
    (h : FromFront R ts (closing :: rest)) :
    FromFront (fun us more => ∃ vs, us = opening :: vs ∧ R vs (closing :: more)) (opening :: ts) rest := by
  obtain ⟨inner, rfl, hbalanced, hinner⟩ := h
  refine ⟨opening :: (inner ++ [closing]), by simp, .group closes hbalanced .nil, fun more => ?_⟩
  exact ⟨inner ++ closing :: more, by simp, hinner _⟩

lemma suffix (h : FromFront R ts rest) : rest <:+ ts := by
  obtain ⟨front, rfl, -⟩ := h
  exact List.suffix_append _ _

end FromFront

namespace Local

variable {α : Type} {P : Production α} {c : Construct}

/-! ### Tokens and groups -/

lemma token {k : TokenKind} (plain : k.IsPlain) (t : Token) : Local (IsToken k) t := by
  rintro ts rest ⟨hk⟩
  exact .token (hk ▸ plain) fun _ => .mk hk

lemma keyword {word : String} (t : Token) : Local (IsKeyword word) t := by
  rintro ts rest ⟨hk, htext⟩
  exact .token (hk ▸ ⟨rfl, rfl⟩) fun _ => .mk hk htext

lemma name (n : Name) : Local IsName n := by
  rintro ts rest ⟨hk⟩
  exact .token (hk ▸ ⟨rfl, rfl⟩) fun _ => .mk hk

lemma optional {a? : Option α} (hP : ∀ a, Local P a) : Local (Optional P) a? := by
  rintro ts rest (_ | h)
  · exact .nothing fun _ => .absent
  · exact (hP _ h).mono fun _ _ => .present

lemma many {as : List α} (hP : ∀ a ∈ as, Local P a) : Local (Many P) as := by
  intro ts rest h
  induction h with
  | nil => exact .nothing fun _ => .nil
  | cons head tail ih =>
    obtain ⟨hhead, htail⟩ := List.forall_mem_cons.mp hP
    exact ((hhead head).behind (ih htail)).mono fun _ _ ⟨_, ha, has⟩ => .cons ha has

/-- Tokens between delimiters. -/
lemma group_closed {out : List α × Pos} {ts rest : List Token} (hP : ∀ a ∈ out.1, Local P a)
    (h : Group c P ts out rest) : ∃ inner opening closing, ts = opening :: (inner ++ closing :: rest) ∧
      opening.kind = c.opening ∧ closing.kind = c.closing ∧ Balanced inner := by
  obtain ⟨opens, members, closes, -⟩ := h
  obtain ⟨inner, rfl, hbalanced, -⟩ := many hP members
  exact ⟨inner, _, _, rfl, opens, closes, hbalanced⟩

lemma group {out : List α × Pos} (hP : ∀ a ∈ out.1, Local P a) : Local (Group c P) out := by
  rintro ts rest ⟨opens, members, closes, nonempty⟩
  refine ((many hP members).enclosed (by rw [opens, closes, Construct.closing?_opening])).mono ?_
  rintro _ _ ⟨_, rfl, members⟩
  exact .mk opens members closes nonempty

lemma optionalGroup {as : List α} (hP : ∀ a ∈ as, Local P a) : Local (OptionalGroup c P) as := by
  rintro ts rest (_ | h)
  · exact .nothing fun _ => .absent
  · exact (group hP h).mono fun _ _ => .present

lemma named {n : Name} {a : α} (hP : Local P a) : Local (Named P) (n, a) := by
  rintro ts rest ⟨names, separates, here⟩
  exact ((name _ names).behind ((token ⟨rfl, rfl⟩ _ separates).behind (hP here))).mono
    fun _ _ ⟨_, names, _, separates, here⟩ => .mk names separates here

/-! ### Values, types and directives -/

variable {isConstant : Bool}

lemma value (v : Literal) : Local (IsValue isConstant) v := by
  induction v using Literal.induct with
  | null p =>
    rintro ts rest (_ | _ | _ | _ | ⟨hk, htext⟩)
    exact .token (hk ▸ ⟨rfl, rfl⟩) fun _ => .null (.mk hk htext)
  | var n p =>
    rintro ts rest ⟨free, marks, names⟩
    exact ((token ⟨rfl, rfl⟩ _ marks).behind (name _ names)).mono
      fun _ _ ⟨_, marks, names⟩ => .var free marks names
  | scalar kind text p =>
    intro ts rest h
    cases h with
    | int here => exact (token ⟨rfl, rfl⟩ _ here).mono fun _ _ => .int
    | float here => exact (token ⟨rfl, rfl⟩ _ here).mono fun _ _ => .float
    | string here =>
      obtain ⟨hk, hcooks⟩ := here
      exact .token (TokenKind.isPlain_of_isString hk) fun _ => .string (.mk hk hcooks)
    | boolean here isBoolean => exact (keyword _ here).mono fun _ _ here => .boolean here isBoolean
    | enum here isOther => exact (name _ here).mono fun _ _ here => .enum here isOther
  | list items p ih =>
    rintro ts rest ⟨⟩
    rename_i here
    exact (group ih here).mono fun _ _ => .list
  | object fields p ih =>
    rintro ts rest ⟨⟩
    rename_i here
    exact (group (fun f hf => named (ih f hf)) here).mono fun _ _ => .object

lemma type (t : TypeRef) : Local IsType t := by
  intro ts rest h
  induction h with
  | named here => exact (name _ here).mono fun _ _ => .named
  | list opens element closes ih =>
    obtain ⟨opens⟩ := opens
    obtain ⟨closes⟩ := closes
    refine (ih.enclosed (by rw [opens, closes]; rfl)).mono ?_
    rintro _ _ ⟨_, rfl, element⟩
    exact .list (.mk opens) element (.mk closes)
  | nonNull here once marks ih =>
    exact (ih.behind (token ⟨rfl, rfl⟩ _ marks)).mono fun _ _ ⟨_, here, marks⟩ => .nonNull here once marks

lemma argument (a : Argument) : Local (IsArgument isConstant) a := by
  rintro ts rest ⟨here⟩
  exact (named (value _) here).mono fun _ _ => .mk

lemma directive (d : Directive) : Local (IsDirective isConstant) d := by
  rintro ts rest ⟨marks, names, arguments⟩
  exact ((token ⟨rfl, rfl⟩ _ marks).behind ((name _ names).behind
    (optionalGroup (fun a _ => argument a) arguments))).mono
    fun _ _ ⟨_, marks, _, names, arguments⟩ => .mk marks names arguments

lemma directives (ds : List Directive) : Local (IsDirectives isConstant) ds :=
  many fun d _ => directive d

/-! ### Selections -/

/-- The first token of an alias, or of the name itself. -/
lemma aliased {out : Option Name × Name} {t : Token} {ts rest : List Token}
    (h : IsAliased (t :: ts) out rest) :
    FromFront (fun us more => ∃ vs, us = t :: vs ∧ IsAliased us out more) (t :: ts) rest := by
  obtain ⟨⟨hk⟩⟩ | ⟨⟨⟨hk⟩, separates, here⟩⟩ := h
  · exact .token (hk ▸ ⟨rfl, rfl⟩) fun more => ⟨more, rfl, .plain (.mk hk)⟩
  · refine ((FromFront.token (R := fun us more => us = t :: more) (hk ▸ ⟨rfl, rfl⟩) fun _ => rfl).behind
      ((token ⟨rfl, rfl⟩ _ separates).behind (name _ here))).mono ?_
    rintro _ _ ⟨mid, rfl, _, separates, here⟩
    exact ⟨mid, rfl, .aliased (.mk (.mk hk) separates here)⟩

lemma field (f : Field) : Local IsField f := by
  rintro ts rest ⟨names, arguments, dirs⟩
  refine ((aliased names).behind ((optionalGroup (fun a _ => argument a) arguments).behind
    (directives _ dirs))).mono ?_
  rintro _ _ ⟨_, ⟨_, rfl, names⟩, _, arguments, dirs⟩
  exact .mk names arguments dirs

lemma condition (n : Name) : Local IsCondition n := by
  rintro ts rest ⟨starts, names⟩
  exact ((keyword _ starts).behind (name _ names)).mono fun _ _ ⟨_, starts, names⟩ => .mk starts names

mutual

lemma selection : ∀ s : Selection, Local IsSelection s
  | .field f none => by
    rintro ts rest (here | _)
    exact (field _ here).mono fun _ _ => .leaf
  | .field f (some (.mk selections p)) => by
    rintro ts rest (_ | ⟨here, below⟩)
    exact ((field _ here).behind (group (selections_local selections) below)).mono
      fun _ _ ⟨_, here, below⟩ => .field here below
  | .spread s => by
    rintro ts rest (_ | _ | ⟨marks, names, isOther, dirs⟩)
    exact ((token ⟨rfl, rfl⟩ _ marks).behind ((name _ names).behind (directives _ dirs))).mono
      fun _ _ ⟨_, marks, _, names, dirs⟩ => .spread marks names isOther dirs
  | .inline i (.mk selections p) => by
    rintro ts rest (_ | _ | _ | ⟨marks, restricts, dirs, below⟩)
    exact ((token ⟨rfl, rfl⟩ _ marks).behind ((optional condition restricts).behind ((directives _ dirs).behind
      (group (selections_local selections) below)))).mono
      fun _ _ ⟨_, marks, _, restricts, _, dirs, below⟩ => .inline marks restricts dirs below

lemma selections_local : ∀ ss : List Selection, ∀ s ∈ ss, Local IsSelection s
  | [], _, hs => nomatch hs
  | s :: ss, s', hs => (List.mem_cons.mp hs).elim (fun h => h ▸ selection s) (selections_local ss s')

end

lemma selectionSet (below : SelectionSet) : Local IsSelectionSet below := by
  rintro ts rest ⟨here⟩
  exact (group (fun s _ => selection s) here).mono fun _ _ => .mk

/-! ### Operations and fragments -/

lemma default (v : Literal) : Local IsDefault v := by
  rintro ts rest ⟨marks, here⟩
  exact ((token ⟨rfl, rfl⟩ _ marks).behind (value _ here)).mono fun _ _ ⟨_, marks, here⟩ => .mk marks here

lemma variableDefinition (v : VariableDefinition) : Local IsVariableDefinition v := by
  rintro ts rest ⟨marks, names, separates, types, defaults, dirs⟩
  exact ((token ⟨rfl, rfl⟩ _ marks).behind ((name _ names).behind ((token ⟨rfl, rfl⟩ _ separates).behind
    ((type _ types).behind ((optional default defaults).behind (directives _ dirs)))))).mono
    fun _ _ ⟨_, marks, _, names, _, separates, _, types, _, defaults, dirs⟩ =>
      .mk marks names separates types defaults dirs

lemma operation (d : OperationDefinition) : Local IsOperation d := by
  rintro ts rest (here | ⟨starts, names, declares, dirs, selects⟩)
  · exact (selectionSet _ here).mono fun _ _ => .shorthand
  · exact ((keyword _ starts).behind ((optional name names).behind
      ((optionalGroup (fun v _ => variableDefinition v) declares).behind ((directives _ dirs).behind
        (selectionSet _ selects))))).mono
      fun _ _ ⟨_, starts, _, names, _, declares, _, dirs, selects⟩ => .full starts names declares dirs selects

lemma fragment (d : FragmentDefinition) : Local IsFragment d := by
  rintro ts rest ⟨starts, names, isOther, restricts, dirs, selects⟩
  exact ((keyword _ starts).behind ((name _ names).behind ((condition _ restricts).behind ((directives _ dirs).behind
    (selectionSet _ selects))))).mono
    fun _ _ ⟨_, starts, _, names, _, restricts, _, dirs, selects⟩ =>
      .mk starts names isOther restricts dirs selects

/-! ### Type definitions -/

/-- A description and what is described, with the first token of the two. -/
lemma described {desc : Option String} {a : α} {t : Token} {ts mid rest : List Token}
    (describes : Optional IsString (t :: ts) desc mid)
    (hP : ∀ ts, P ts a rest → ∃ u, ts = u :: rest ∧ u.kind = .name ∧ ∀ more, P (u :: more) a more)
    (here : P mid a rest) :
    FromFront (fun us more => ∃ vs mid, us = t :: vs ∧ Optional IsString us desc mid ∧ P mid a more)
      (t :: ts) rest := by
  obtain ⟨u, rfl, hu, hmore⟩ := hP mid here
  have hplain : u.kind.IsPlain := hu ▸ ⟨rfl, rfl⟩
  obtain _ | ⟨hk, hcooks⟩ := describes
  · exact .token hplain fun more => ⟨more, _, rfl, .absent, hmore more⟩
  · exact ⟨[t, u], rfl, .token (TokenKind.isPlain_of_isString hk) (.token hplain .nil),
      fun more => ⟨u :: more, u :: more, rfl, .present (.mk hk hcooks), hmore more⟩⟩

lemma described_name {desc : Option String} {n : Name} {t : Token} {ts mid rest : List Token}
    (describes : Optional IsString (t :: ts) desc mid) (names : IsName mid n rest) :
    FromFront (fun us more => ∃ vs mid, us = t :: vs ∧ Optional IsString us desc mid ∧ IsName mid n more)
      (t :: ts) rest :=
  described describes (fun _ ⟨hk⟩ => ⟨_, rfl, hk, fun _ => .mk hk⟩) names

lemma inputDefinition (d : InputDefinition) : Local IsInputDefinition d := by
  rintro ts rest ⟨describes, names, separates, types, defaults, dirs⟩
  refine ((described_name describes names).behind ((token ⟨rfl, rfl⟩ _ separates).behind ((type _ types).behind
    ((optional default defaults).behind (directives _ dirs))))).mono ?_
  rintro _ _ ⟨_, ⟨_, _, rfl, describes, names⟩, _, separates, _, types, _, defaults, dirs⟩
  exact .mk describes names separates types defaults dirs

lemma fieldDefinition (d : FieldDefinition) : Local IsFieldDefinition d := by
  rintro ts rest ⟨describes, names, declares, separates, types, dirs⟩
  refine ((described_name describes names).behind ((optionalGroup (fun d _ => inputDefinition d) declares).behind
    ((token ⟨rfl, rfl⟩ _ separates).behind ((type _ types).behind (directives _ dirs))))).mono ?_
  rintro _ _ ⟨_, ⟨_, _, rfl, describes, names⟩, _, declares, _, separates, _, types, dirs⟩
  exact .mk describes names declares separates types dirs

lemma enumValue (d : EnumValueDefinition) : Local IsEnumValue d := by
  rintro ts rest ⟨describes, names, isOther, dirs⟩
  refine ((described_name describes names).behind (directives _ dirs)).mono ?_
  rintro _ _ ⟨_, ⟨_, _, rfl, describes, names⟩, dirs⟩
  exact .mk describes names isOther dirs

lemma body {as : List α} {ts rest : List Token} (hP : ∀ a ∈ as, Local P a) (h : Body c P ts as rest) :
    FromFront (fun us more => Body c P us as more) ts rest ∨
      ts = rest ∧ ∀ more : List Token, more.head? = rest.head? → Body c P more as more := by
  obtain next | here := h
  · exact .inr ⟨rfl, fun more hmore => .absent (hmore ▸ next)⟩
  · exact .inl ((group hP here).mono fun _ _ => .present)

/-- The body of a type is read, or it is left out and the next token tells so. -/
lemma typeBody {b : TypeBody} {ts rest : List Token} (h : IsTypeBody ts b rest) :
    FromFront (fun us more => IsTypeBody us b more) ts rest ∨
      ts = rest ∧ ∀ more : List Token, more.head? = rest.head? → IsTypeBody more b more := by
  obtain _ | here | here | here := h
  · exact .inr ⟨rfl, fun _ _ => .scalar⟩
  · exact (body (fun d _ => fieldDefinition d) here).imp (fun h => h.mono fun _ _ => .object)
      fun h => ⟨h.1, fun more hmore => .object (h.2 more hmore)⟩
  · exact (body (fun d _ => enumValue d) here).imp (fun h => h.mono fun _ _ => .enum)
      fun h => ⟨h.1, fun more hmore => .enum (h.2 more hmore)⟩
  · exact (body (fun d _ => inputDefinition d) here).imp (fun h => h.mono fun _ _ => .input)
      fun h => ⟨h.1, fun more hmore => .input (h.2 more hmore)⟩

end Local

section

variable {ts mid rest : List Token}

/-- The last token that is read is no closing brace. -/
def Unclosed (ts rest : List Token) : Prop :=
  ∃ before t, ts = before ++ t :: rest ∧ t.kind ≠ .braceClose

lemma Unclosed.behind (hsuffix : mid <:+ ts) (h : Unclosed mid rest) : Unclosed ts rest := by
  obtain ⟨front, rfl⟩ := hsuffix
  obtain ⟨before, t, rfl, ht⟩ := h
  exact ⟨front ++ before, t, (List.append_assoc ..).symm, ht⟩

lemma Unclosed.not_closed (h : Unclosed ts rest) {before : List Token} {closing : Token}
    (hts : ts = before ++ closing :: rest) : closing.kind ≠ .braceClose := by
  obtain ⟨before', t, hts', ht⟩ := h
  rw [hts, List.append_cons before, List.append_cons before'] at hts'
  have hsame := List.append_cancel_right hts'
  obtain ⟨-, hlast⟩ := List.append_inj' hsame rfl
  rw [List.singleton_inj.mp hlast]
  exact ht

lemma name_unclosed {n : Name} (h : IsName ts n rest) : Unclosed ts rest := by
  obtain ⟨hk⟩ := h
  exact ⟨[], _, rfl, by rw [hk]; exact TokenKind.noConfusion⟩

lemma directive_unclosed {b : Bool} {d : Directive} (h : IsDirective b ts d rest) : Unclosed ts rest := by
  obtain ⟨marks, names, arguments⟩ := h
  have hnames := ((Local.token ⟨rfl, rfl⟩ _ marks).suffix)
  obtain _ | here := arguments
  · exact (name_unclosed names).behind hnames
  · obtain ⟨front, opening, closing, rfl, -, hclosing, -⟩ := Local.group_closed (fun a _ => Local.argument a) here
    refine Unclosed.behind ((Local.name _ names).suffix.trans hnames) ?_
    exact ⟨opening :: front, closing, rfl, by rw [hclosing]; exact TokenKind.noConfusion⟩

lemma directives_unclosed {b : Bool} {ds : List Directive} (h : IsDirectives b ts ds rest) :
    ts = rest ∨ Unclosed ts rest := by
  induction h with
  | nil => exact .inl rfl
  | cons head tail ih =>
    obtain rfl | htail := ih
    · exact .inr (directive_unclosed head)
    · exact .inr (htail.behind (Local.directive _ head).suffix)

/-- What rests on the tokens that are read and on the next one at most. If a brace is the last token
that is read, it rests on nothing else. -/
structure Rests (R : List Token → List Token → Prop) (ts rest : List Token) : Prop where
  next : ∃ front, ts = front ++ rest ∧ ∀ more : List Token, more.head? = rest.head? → R (front ++ more) more
  closed : ∀ before closing, ts = before ++ closing :: rest → closing.kind = .braceClose →
    ∀ more, R (before ++ closing :: more) more

lemma FromFront.rests {R : List Token → List Token → Prop} (h : FromFront R ts rest) : Rests R ts rest := by
  obtain ⟨front, rfl, -, hfront⟩ := h
  refine ⟨⟨front, rfl, fun more _ => hfront more⟩, fun before closing hts _ more => ?_⟩
  rw [List.append_cons] at hts ⊢
  rw [← List.append_cancel_right hts]
  exact hfront more

lemma typeDefinition_rests {d : TypeDefinition} (h : IsTypeDefinition ts d rest) :
    Rests (fun us more => IsTypeDefinition us d more) ts rest := by
  obtain ⟨describes, starts, names, dirs, holds⟩ := h
  have hword := Local.described describes (fun _ ⟨hk, htext⟩ => ⟨_, rfl, hk, fun _ => .mk hk htext⟩) starts
  have hfront := hword.behind ((Local.name _ names).behind (Local.directives _ dirs))
  obtain hbody | ⟨rfl, hnext⟩ := Local.typeBody holds
  · refine ((hfront.behind hbody).mono ?_).rests
    rintro _ _ ⟨_, ⟨_, ⟨_, _, rfl, describes, starts⟩, _, names, dirs⟩, holds⟩
    exact .mk describes starts names dirs holds
  · constructor
    · obtain ⟨front, hts, -, hfront⟩ := hfront
      refine ⟨front, hts, fun more hmore => ?_⟩
      obtain ⟨_, ⟨_, _, heq, describes, starts⟩, _, names, dirs⟩ := hfront more
      rw [heq] at describes ⊢
      exact .mk describes starts names dirs (hnext more hmore)
    · intro before closing hts hclosing
      have hnames := (name_unclosed names).behind hword.suffix
      refine absurd hclosing (Unclosed.not_closed ?_ hts)
      obtain rfl | hdirs := directives_unclosed dirs
      · exact hnames
      · exact hdirs.behind (hword.behind (Local.name _ names)).suffix

/-- **A definition rests on the tokens that are read.** -/
lemma definition_rests {d : Definition} (h : IsDefinition ts d rest) :
    Rests (fun us more => IsDefinition us d more) ts rest := by
  obtain here | here | here := h
  · exact ((Local.operation _ here).mono fun _ _ => .operation).rests
  · exact ((Local.fragment _ here).mono fun _ _ => .fragment).rests
  · obtain ⟨⟨front, hts, hnext⟩, hclosed⟩ := typeDefinition_rests here
    exact ⟨⟨front, hts, fun more hmore => .type (hnext more hmore)⟩,
      fun before closing hts hclosing more => .type (hclosed before closing hts hclosing more)⟩

end

end Grammar

end GraphQL
