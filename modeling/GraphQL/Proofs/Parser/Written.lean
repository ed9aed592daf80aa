import GraphQL.Proofs.Token.Spelled
import GraphQL.Proofs.Document.Legal
import GraphQL.Proofs.Document.Unplaced
import GraphQL.Proofs.Parser.Grammar

/-!
Texts that are written from trees, and what they derive.

The text of a value or a type derives that value or type again, wherever it stands in front of
something that its last token could not go on with. Between the members of a list stands a comma, and
so every member stands in front of such a thing.
-/

namespace GraphQL

open Grammar Token

/-- Wherever the text stands in front of something that ends a token, something with the property is
derived from it, and the tokens of what follows are left. -/
def Derives {α : Type} (cs : List Char) (P : Production α) (Q : α → Prop) : Prop :=
  ∀ here behind, EndsToken behind →
    ∃ a there, P (lexFrom here (cs ++ behind)) a (lexFrom there behind) ∧ Q a

namespace Derives

variable {α β : Type} {cs : List Char} {P : Production α} {Q : α → Prop}

lemma map {S : Production β} {R : β → Prop} (h : Derives cs P Q) (f : α → β)
    (hP : ∀ ts a rest, P ts a rest → Q a → S ts (f a) rest) (hR : ∀ a, Q a → R (f a)) :
    Derives cs S R := by
  intro here behind hbehind
  obtain ⟨a, there, hderives, hQ⟩ := h here behind hbehind
  exact ⟨f a, there, hP _ _ _ hderives hQ, hR a hQ⟩

lemma isGap_blank (behind : List Char) : IsGap behind [' '] := .ignored rfl .nil

lemma isGap_comma (behind : List Char) : IsGap behind ", ".toList := .ignored rfl (.ignored rfl .nil)

lemma blank_cons (h : Derives cs P Q) : Derives (' ' :: cs) P Q := by
  intro here behind hbehind
  rw [List.cons_append, ← List.singleton_append (l := cs ++ behind), lexFrom_append (isGap_blank _)]
  exact h _ behind hbehind

lemma append_blank (h : Derives cs P Q) : Derives (cs ++ [' ']) P Q := by
  intro here behind hbehind
  obtain ⟨a, there, hderives, hQ⟩ := h here (' ' :: behind) (.cons (by decide) _)
  rw [← List.singleton_append (l := behind), lexFrom_append (isGap_blank _)] at hderives
  rw [List.append_assoc]
  exact ⟨a, _, hderives, hQ⟩

/-- A token in front of something else. -/
lemma token_bind {k : TokenKind} {word : String} {S : Production β} {R : β → Prop}
    (hword : ∀ behind, EndsToken behind → IsSpelled k word.toList (cs ++ behind)) (h : Derives cs P Q)
    (f : Token → α → β)
    (hP : ∀ t ts a rest, t.kind = k → t.text = word → P ts a rest → Q a → S (t :: ts) (f t a) rest)
    (hR : ∀ t a, t.text = word → Q a → R (f t a)) : Derives (word.toList ++ cs) S R := by
  intro here behind hbehind
  obtain ⟨a, there, hderives, hQ⟩ := h (here + byteLength word.toList) behind hbehind
  rw [List.append_assoc, (hword behind hbehind).lexFrom, String.ofList_toList]
  exact ⟨_, there, hP _ _ _ _ rfl rfl hderives hQ, hR _ a rfl hQ⟩

/-- A token alone. -/
lemma token {k : TokenKind} {word : String}
    (hword : ∀ behind, EndsToken behind → IsSpelled k word.toList behind) (f : Token → α)
    (hP : ∀ t ts, t.kind = k → t.text = word → P (t :: ts) (f t) ts) (hQ : ∀ t, t.text = word → Q (f t)) :
    Derives word.toList P Q := by
  intro here behind hbehind
  rw [(hword behind hbehind).lexFrom, String.ofList_toList]
  exact ⟨_, _, hP _ _ rfl rfl, hQ _ rfl⟩

/-- One text behind the other. -/
lemma bind {γ : Type} {cs' : List Char} {S : Production β} {T : β → Prop} {U : Production γ}
    {R : γ → Prop} (h : Derives cs P Q) (h' : Derives cs' S T)
    (hends : ∀ behind, EndsToken (cs' ++ behind)) (f : α → β → γ)
    (hP : ∀ ts a mid b rest, P ts a mid → S mid b rest → Q a → U ts (f a b) rest)
    (hR : ∀ a b, Q a → T b → R (f a b)) : Derives (cs ++ cs') U R := by
  intro here behind hbehind
  obtain ⟨a, there, ha, hQ⟩ := h here (cs' ++ behind) (hends behind)
  obtain ⟨b, there', hb, hT⟩ := h' there behind hbehind
  rw [List.append_assoc]
  exact ⟨f a b, there', hP _ _ _ _ _ ha hb hQ, hR a b hQ hT⟩

lemma punctuator {k : TokenKind} {mark : Char} (hmark : k.spelling? = some (String.singleton mark)) :
    Derives [mark] (IsToken k) fun _ => True := by
  intro here behind _
  rw [(isSpelled_punctuator hmark behind).lexFrom]
  exact ⟨_, _, .mk rfl, trivial⟩

lemma name {word : String} (h : Lexeme.IsName word.toList) :
    Derives word.toList IsName fun n => n.text = word :=
  token (fun _ hbehind => hbehind.name h) (fun t => ⟨t.text, t.start⟩) (fun _ _ hk _ => .mk hk) fun _ h => h

/-- Members with commas between them. -/
lemma many {text : β → List Char} {R : β → α → Prop} (bs : List β)
    (h : ∀ b ∈ bs, Derives (text b) P (R b)) :
    Derives (", ".toList.intercalate (bs.map text)) (Many P) (List.Forall₂ R bs) := by
  induction bs with
  | nil => exact fun here behind _ => ⟨[], here, .nil, .nil⟩
  | cons b bs ih =>
    obtain ⟨hb, hbs⟩ := List.forall_mem_cons.mp h
    cases bs with
    | nil =>
      rw [List.map_singleton, List.intercalate_singleton]
      exact hb.map (fun a => [a]) (fun _ _ _ ha _ => Many.cons ha .nil) fun _ hR => List.Forall₂.cons hR .nil
    | cons b' bs =>
      intro here behind hbehind
      rw [List.map_cons, List.map_cons, List.intercalate_cons_cons, ← List.map_cons, List.append_assoc,
        List.append_assoc]
      obtain ⟨a, there, ha, hR⟩ := hb here (", ".toList ++ _) (.cons (by decide) _)
      obtain ⟨as, there', has, hRs⟩ := ih hbs (there + byteLength ", ".toList) behind hbehind
      rw [lexFrom_append (isGap_comma _)] at ha
      exact ⟨a :: as, there', .cons ha has, .cons hR hRs⟩

/-- Members between delimiters. -/
lemma group {c : Construct} {o e : Char} {Q : List α → Prop}
    (hopening : c.opening.spelling? = some (String.singleton o))
    (hclosing : c.closing.spelling? = some (String.singleton e))
    (hends : isNamePart e = false ∧ e ≠ '.' ∧ e ≠ '"')
    (members : Derives cs (Many P) Q) (nonempty : ∀ as, Q as → as = [] → c.allowsEmpty = true) :
    Derives ([o] ++ (cs ++ [e])) (Group c P) fun out => Q out.1 := by
  intro here behind hbehind
  rw [List.append_assoc, (isSpelled_punctuator hopening _).lexFrom, List.append_assoc]
  obtain ⟨as, there, has, hQ⟩ := members (here + byteLength [o]) ([e] ++ behind)
    (.cons hends behind)
  rw [(isSpelled_punctuator hclosing behind).lexFrom] at has
  exact ⟨_, _, .mk rfl has rfl (nonempty as hQ), hQ⟩

/-- A name, a colon and what is named. -/
lemma named {word : String} (hword : Lexeme.IsName word.toList) (h : Derives cs P Q) :
    Derives (word.toList ++ (": ".toList ++ cs)) (Named P) fun out => out.1.text = word ∧ Q out.2 := by
  have hcolon : Derives ([':'] ++ ' ' :: cs) (fun ts a rest => ∃ t us, IsToken .colon ts t us ∧ P us a rest) Q :=
    (punctuator rfl).bind h.blank_cons (fun _ => .cons (by decide) _) (fun _ a => a)
      (fun ts t us a rest ht ha _ => ⟨t, us, ht, ha⟩) fun _ _ _ hQ => hQ
  refine (name hword).bind hcolon (fun _ => .cons (by decide) _) Prod.mk ?_ fun n a hn hQ => ⟨hn, hQ⟩
  rintro ts n us a rest hn ⟨colon, vs, hmark, ha⟩ -
  exact .mk hn hmark ha

end Derives

/-! ### Values -/

namespace Literal

lemma renderItems_eq (vs : List Literal) : renderItems vs = vs.map render := by
  induction vs with
  | nil => rfl
  | cons v vs ih => rw [renderItems, ih, List.map_cons]

lemma renderFields_eq (fs : List (Name × Literal)) :
    renderFields fs = fs.map fun f => f.1.text ++ ": " ++ f.2.render := by
  induction fs with
  | nil => rfl
  | cons f fs ih => rw [renderFields, ih, List.map_cons]

lemma itemsEquivalent_of_forall₂ {vs ws : List Literal}
    (h : List.Forall₂ (fun v w => isEquivalent v w = true) vs ws) : itemsEquivalent vs ws = true := by
  induction h with
  | nil => rfl
  | cons hv _ ih => rw [itemsEquivalent, hv, ih, Bool.and_true]

lemma fieldsEquivalent_of_forall₂ {fs gs : List (Name × Literal)}
    (h : List.Forall₂ (fun f g => Name.text g.1 = Name.text f.1 ∧ isEquivalent f.2 g.2 = true) fs gs) :
    fieldsEquivalent fs gs = true := by
  induction h with
  | nil => rfl
  | cons hf _ ih => simp [fieldsEquivalent, hf.1, hf.2, ih]

lemma render_list (vs : List Literal) (p : Pos) : (render (.list vs p)).toList =
    ['['] ++ (", ".toList.intercalate (vs.map fun v => v.render.toList) ++ [']']) := by
  rw [render, renderItems_eq, String.toList_append, String.toList_append, String.toList_intercalate,
    List.map_map, List.append_assoc]
  rfl

lemma render_object (fs : List (Name × Literal)) (p : Pos) : (render (.object fs p)).toList =
    ['\x7b'] ++ (", ".toList.intercalate
      (fs.map fun f => f.1.text.toList ++ (": ".toList ++ f.2.render.toList)) ++ ['\x7d']) := by
  rw [render, renderFields_eq, String.toList_append, String.toList_append, String.toList_intercalate,
    List.map_map, List.append_assoc]
  congr 4
  funext f
  simp [List.append_assoc]

lemma derives_scalar {k : LiteralKind} {text : String} (h : k.IsLegalText text) (p : Pos) :
    Derives (render (.scalar k text p)).toList (IsValue false) fun w =>
      isEquivalent (.scalar k text p) w = true := by
  cases k with
  | int =>
    exact .token (fun _ hbehind => hbehind.int h) (fun t => .scalar .int t.text t.start)
      (fun t ts hk _ => .int (.mk hk)) fun t ht => by simp [isEquivalent, ht, render]
  | float =>
    exact .token (fun _ hbehind => hbehind.float h) (fun t => .scalar .float t.text t.start)
      (fun t ts hk _ => .float (.mk hk)) fun t ht => by simp [isEquivalent, ht, render]
  | string =>
    rw [show (render (.scalar .string text p)) = StringLiteral.quote text from rfl]
    refine .token (fun _ hbehind => hbehind.quoted text)
      (fun t => .scalar .string text t.start) (fun t ts hk ht => ?_) fun t _ => by simp [isEquivalent]
    exact .string (.mk (by rw [hk]; rfl) (by rw [ht, StringLiteral.cook_quote]))
  | boolean =>
    have hname : Lexeme.IsName text.toList := by
      rcases h with rfl | rfl
      · decide
      · decide
    exact .token (fun _ hbehind => hbehind.name hname) (fun t => .scalar .boolean text t.start)
      (fun t ts hk ht => .boolean (.mk hk ht) h) fun t _ => by simp [isEquivalent]
  | enum =>
    exact .token (fun _ hbehind => hbehind.name h.1) (fun t => .scalar .enum t.text t.start)
      (fun t ts hk ht => .enum (.mk hk) (ht ▸ h.2)) fun t ht => by simp [isEquivalent, ht, render]

/-- **The text of a literal derives that literal.** -/
theorem derives_render (v : Literal) (h : v.IsLegal) :
    Derives v.render.toList (IsValue false) fun w => v.isEquivalent w = true := by
  induction v using induct with
  | null p =>
    have hname : Lexeme.IsName "null".toList := by decide
    exact .token (fun _ hbehind => hbehind.name hname) (fun t => .null t.start)
      (fun t ts hk ht => .null (.mk hk ht)) fun t _ => rfl
  | var text p =>
    obtain ⟨⟩ | ⟨hname⟩ := h
    have hderives : Derives ("$".toList ++ text.toList) (IsValue false)
        fun w => isEquivalent (.var text p) w = true := (Derives.name hname).token_bind (k := .dollar)
      (fun _ _ => isSpelled_punctuator rfl _) (fun t n => .var n.text t.start)
      (fun t ts n rest hk _ hn _ => .var rfl (.mk hk) hn) fun t n _ hn => by simp [isEquivalent, hn]
    rwa [render, String.toList_append]
  | scalar k text p =>
    obtain ⟨⟩ | ⟨⟩ | ⟨hlegal⟩ := h
    exact derives_scalar hlegal p
  | list vs p ih =>
    obtain ⟨⟩ | ⟨⟩ | ⟨⟩ | ⟨hitems⟩ := h
    have hmany := Derives.many vs fun v hv => ih v hv (hitems v hv)
    rw [render_list]
    exact (Derives.group (c := .listValue) rfl rfl (by decide) hmany fun _ _ _ => rfl).map
      (fun out => .list out.1 out.2) (fun _ _ _ hgroup _ => .list hgroup) fun out hout =>
        itemsEquivalent_of_forall₂ hout
  | object fs p ih =>
    obtain ⟨⟩ | ⟨⟩ | ⟨⟩ | ⟨⟩ | ⟨hnames, hvalues⟩ := h
    have hmany := Derives.many fs fun f hf => (ih f hf (hvalues f hf)).named (hnames f hf)
    rw [render_object]
    exact (Derives.group (c := .objectValue) rfl rfl (by decide) hmany fun _ _ _ => rfl).map
      (fun out => .object out.1 out.2) (fun _ _ _ hgroup _ => .object hgroup) fun out hout =>
        fieldsEquivalent_of_forall₂ hout

end Literal

/-! ### Types -/

namespace TypeRef

lemma isNonNull_eq {t u : TypeRef} (h : t.isEquivalent u = true) : u.isNonNull = t.isNonNull := by
  cases t <;> cases u <;> first | rfl | exact absurd h (by simp [isEquivalent])

/-- **The text of a type derives that type.** -/
theorem derives_render (t : TypeRef) (h : t.IsLegal) :
    Derives t.render.toList IsType fun u => t.isEquivalent u = true := by
  induction h with
  | @named n name =>
    exact (Derives.name name).map .named (fun _ _ _ hn _ => .named hn) fun m hm => by
      simp [isEquivalent, hm]
  | @list t p element ih =>
    have hclosing : Derives [']'] (IsToken .bracketClose) fun _ => True := .punctuator rfl
    have hclosed := ih.bind hclosing (fun _ => .cons (by decide) _) (fun u _ => u)
      (U := fun ts u rest => ∃ closing us, IsType ts u us ∧ IsToken .bracketClose us closing rest)
      (R := fun u => t.isEquivalent u = true) (fun ts u us closing rest hu hk _ => ⟨closing, us, hu, hk⟩)
      fun u _ hu _ => hu
    have hlist : Derives ("[".toList ++ (t.render.toList ++ [']'])) IsType
        fun u => (TypeRef.list t p).isEquivalent u = true := hclosed.token_bind (k := .bracketOpen)
      (fun _ _ => isSpelled_punctuator rfl _)
      (fun opening u => .list u opening.start)
      (fun opening ts u rest hk _ hu _ => by
        obtain ⟨closing, us, hu, hclosing⟩ := hu
        exact .list (.mk hk) hu hclosing)
      fun opening u _ hu => hu
    rwa [render, String.toList_append, String.toList_append, List.append_assoc]
  | @nonNull t p required once ih =>
    have hmark : Derives ['!'] (IsToken .bang) fun _ => True := .punctuator rfl
    have hmarked := ih.bind hmark (fun _ => .cons (by decide) _) (fun u _ => .nonNull u u.pos)
      (U := IsType) (R := fun u => (TypeRef.nonNull t p).isEquivalent u = true)
      (fun ts u us mark rest hu hk hequiv => .nonNull hu ((isNonNull_eq hequiv).trans once) hk)
      fun u _ hu _ => hu
    rwa [render, String.toList_append]

end TypeRef

end GraphQL
