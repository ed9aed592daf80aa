import GraphQL.Proofs.Parser.Exact.Group
import GraphQL.Proofs.Parser.Exact.Level

/-!
Values, types, arguments and directives follow the grammar.
-/

namespace GraphQL

open Grammar

namespace Grammar

variable {isConstant : Bool} {t : Token} {ts rest : List Token}

lemma literalOfName_of_isOther (h : t.text ≠ "null" ∧ t.text ≠ "true" ∧ t.text ≠ "false") :
    Parse.literalOfName t = .scalar .enum t.text t.start := by
  obtain ⟨hnull, htrue, hfalse⟩ := h
  unfold Parse.literalOfName
  split
  · exact absurd ‹_› hnull
  · exact absurd ‹_› htrue
  · exact absurd ‹_› hfalse
  · rfl

/-- Every name is a value: null, a boolean or an enum value. -/
lemma isValue_literalOfName (hk : t.kind = .name) :
    IsValue isConstant (t :: ts) (Parse.literalOfName t) ts := by
  unfold Parse.literalOfName
  split
  · exact .null ⟨hk, ‹_›⟩
  · exact .boolean ⟨hk, rfl⟩ (.inl ‹_›)
  · exact .boolean ⟨hk, rfl⟩ (.inr ‹_›)
  · rename_i hnull htrue hfalse
    exact .enum (.mk hk) ⟨hnull, htrue, hfalse⟩

/-- The values that a token may begin, by its kind. -/
def ValueAt (isConstant : Bool) (t : Token) (ts : List Token) (v : Literal) (rest : List Token) :
    Prop :=
  match t.kind with
  | .dollar => isConstant = false ∧ ∃ name, IsName ts name rest ∧ v = .var name.text t.start
  | .int => v = .scalar .int t.text t.start ∧ rest = ts
  | .float => v = .scalar .float t.text t.start ∧ rest = ts
  | .string | .blockString =>
    ∃ text, StringLiteral.cook t.text = .ok text ∧ v = .scalar .string text t.start ∧ rest = ts
  | .name => v = Parse.literalOfName t ∧ rest = ts
  | .bracketOpen =>
    ∃ items p, Group .listValue (IsValue isConstant) (t :: ts) (items, p) rest ∧ v = .list items p
  | .braceOpen =>
    ∃ fields p, Group .objectValue (Named (IsValue isConstant)) (t :: ts) (fields, p) rest ∧
      v = .object fields p
  | _ => False

lemma IsValue.valueAt {v : Literal} (h : IsValue isConstant (t :: ts) v rest) :
    ValueAt isConstant t ts v rest := by
  unfold ValueAt
  cases h with
  | var free marks names =>
    obtain ⟨hk⟩ := marks
    simp only [hk]
    exact ⟨free, _, names, rfl⟩
  | int here =>
    obtain ⟨hk⟩ := here
    simp [hk]
  | float here =>
    obtain ⟨hk⟩ := here
    simp [hk]
  | string here =>
    obtain ⟨hk, hcook⟩ := here
    cases hkind : t.kind <;> simp [hkind, TokenKind.isString] at hk
    · exact ⟨_, hcook, rfl, rfl⟩
    · exact ⟨_, hcook, rfl, rfl⟩
  | null here =>
    obtain ⟨hk, htext⟩ := here
    simp [hk, Parse.literalOfName, htext]
  | boolean here isBoolean =>
    obtain ⟨hk, htext⟩ := here
    obtain rfl | rfl := isBoolean <;> simp [hk, Parse.literalOfName, htext]
  | enum here isOther =>
    obtain ⟨hk⟩ := here
    simp only [hk]
    exact ⟨(literalOfName_of_isOther isOther).symm, trivial⟩
  | list here =>
    have hk : t.kind = .bracketOpen := by cases here; assumption
    simp only [hk]
    exact ⟨_, _, here, rfl⟩
  | object here =>
    have hk : t.kind = .braceOpen := by cases here; assumption
    simp only [hk]
    exact ⟨_, _, here, rfl⟩

lemma ValueAt.isValue {v : Literal} (h : ValueAt isConstant t ts v rest) :
    IsValue isConstant (t :: ts) v rest := by
  unfold ValueAt at h
  cases hk : t.kind <;> simp only [hk] at h
  case dollar =>
    obtain ⟨free, name, names, rfl⟩ := h
    exact .var free ⟨hk⟩ names
  case int =>
    obtain ⟨rfl, rfl⟩ := h
    exact .int ⟨hk⟩
  case float =>
    obtain ⟨rfl, rfl⟩ := h
    exact .float ⟨hk⟩
  case string | blockString =>
    obtain ⟨text, hcook, rfl, rfl⟩ := h
    exact .string ⟨by rw [hk]; rfl, hcook⟩
  case name =>
    obtain ⟨rfl, rfl⟩ := h
    exact isValue_literalOfName hk
  case bracketOpen =>
    obtain ⟨items, p, here, rfl⟩ := h
    exact .list here
  case braceOpen =>
    obtain ⟨fields, p, here, rfl⟩ := h
    exact .object here

/-- **The first token of a value tells which one it is.** -/
lemma isValue_cons {v : Literal} :
    IsValue isConstant (t :: ts) v rest ↔ ValueAt isConstant t ts v rest :=
  ⟨IsValue.valueAt, ValueAt.isValue⟩

end Grammar

namespace Parse

open ParseState

variable {env : ParseLimits} {levels : Nat}

/-! ### Values -/

lemma isString_iff {k : TokenKind} : k.isString = true ↔ k = .string ∨ k = .blockString := by
  cases k <;> simp [TokenKind.isString]

lemma cook_exact (t : Token) :
    Exact env levels (cook t) (fun ts text rest => StringLiteral.cook t.text = .ok text ∧ rest = ts) []
      true [] := by
  unfold cook
  split
  · rename_i text hcook
    exact (Exact.pure text).congr (fun _ _ _ => by simp [Nothing, hcook, eq_comm]) (by simp) (by simp)
      (by simp)
  · rename_i e hcook
    refine ⟨(KeepsErrors.report _).bind fun _ => .pure _, by simp [hcook], fun _ _ => ?_⟩
    exact .complains ((Complains.report _).bind fun _ => .pure _) (by simp [hcook])

variable {place : Option ConstantPlace} {follow : List Token → Prop} {t : Token} {ts : List Token}

lemma variableReference_exactAt (hts : ts.length ≤ env.tokenCount) :
    ExactAt env levels (variableReference place t)
      (fun v rest => place.isSome = false ∧ ∃ name, IsName ts name rest ∧ v = .var name.text t.start)
      follow (t :: ts) := by
  refine .advance_bind ?_
  cases place with
  | none =>
    have h : Exact env levels _ _ _ _ _ := (expectName_exact "variable name").map
      fun name => Literal.var name.text t.start
    exact (h.exactAt ts hts).congr (fun v rest => and_iff_right rfl) fun _ _ _ _ => List.not_mem_nil
  | some place =>
    have h : Exact env levels _ _ _ _ _ := (expectName_exact "variable name").bind (by simp)
      fun name => .complains (p := report ⟨t.start, 1 + name.text.utf8ByteSize,
        .variableInConstant place⟩ >>= fun _ => pure (Literal.var name.text t.start))
        ((KeepsErrors.report _).bind fun _ => .pure _) ((Complains.report _).bind fun _ => .pure _)
    exact (h.exactAt ts hts).congr (by simp [Then]) fun _ _ _ _ => List.not_mem_nil

lemma namedValue_exact {what : String} {v : Parse Literal} {size : Literal → Nat} {n : Nat}
    {first : List TokenKind}
    (hv : Exact env levels v (Within size n (IsValue place.isSome)) first false []) :
    Exact env levels (namedValue what v)
      (Within (fun f => size f.2) n (Named (IsValue place.isSome))) [.name] false [] := by
  refine ((expectName_exact what).bind (by simp) fun name => (discard_exact (expect_exact .colon)).bind
    (by simp) fun _ => hv.bind (by simp) fun v => .pure (name, v)).congr (fun ts out rest => ?_)
    (by simp) (by simp) (by simp)
  constructor
  · rintro ⟨⟨names, separates, here⟩, hsize⟩
    exact ⟨_, _, names, (), _, ⟨_, separates⟩, _, _, ⟨here, hsize⟩, rfl, rfl⟩
  · rintro ⟨name, ts₁, names, -, ts₂, ⟨colon, separates⟩, v, mid, ⟨here, hsize⟩, rfl, rfl⟩
    exact ⟨.mk names separates here, hsize⟩

/-- The kinds of tokens that a value starts with. -/
def valueStarts : List TokenKind :=
  [.dollar, .int, .float, .string, .blockString, .name, .bracketOpen, .braceOpen]

lemma isValue_nil {isConstant : Bool} {rest : List Token} {v : Literal} :
    ¬IsValue isConstant [] v rest := by
  intro h
  cases h with
  | var _ h => cases h
  | int h => cases h
  | float h => cases h
  | null h => cases h
  | boolean h => cases h
  | enum h => cases h
  | list h => cases h
  | object h => cases h

lemma variableReference_keeps (place : Option ConstantPlace) (dollar : Token) :
    KeepsErrors env (variableReference place dollar) := by
  have hname : Exact env 0 (expectName "variable name") _ _ _ _ := expectName_exact _
  refine .silent_bind .advance fun _ => hname.keeps.bind fun name => ?_
  cases place with
  | none => exact .pure _
  | some place => exact (KeepsErrors.report _).bind fun _ => .pure _

lemma list_exact {item : Parse Literal}
    (hv : Exact env levels item (Within Literal.nesting levels (IsValue place.isSome)) valueStarts false
      []) :
    Exact env levels (group .listValue item >>= fun (items, p) => pure (Literal.list items p))
      (fun ts v rest => ∃ items p, Group .listValue (IsValue place.isSome) ts (items, p) rest ∧
        v = .list items p ∧ v.nesting ≤ levels + 1) [.bracketOpen] false [] := by
  have hgroup := (group_exact .listValue hv (by decide)).map fun out => Literal.list out.1 out.2
  refine hgroup.congr (fun ts v rest => ?_) (by decide) id (by simp)
  have hsize : ∀ items p, (Literal.list items p).nesting ≤ levels + 1 ↔
      ∀ v ∈ items, v.nesting ≤ levels := fun items p => by
    rw [Literal.nesting, Literal.nestingOfItems_eq, Nat.add_le_add_iff_right, largest_le]
  constructor
  · rintro ⟨items, p, here, rfl, h⟩
    exact ⟨(items, p), group_within.mpr ⟨here, (hsize items p).mp h⟩, rfl⟩
  · rintro ⟨⟨items, p⟩, here, rfl⟩
    obtain ⟨here, h⟩ := group_within.mp here
    exact ⟨items, p, here, rfl, (hsize items p).mpr h⟩

lemma object_exact {v : Parse Literal}
    (hv : Exact env levels v (Within Literal.nesting levels (IsValue place.isSome)) valueStarts false
      []) :
    Exact env levels (group .objectValue (namedValue "object field name" v) >>= fun (fields, p) =>
        pure (Literal.object fields p))
      (fun ts v rest => ∃ fields p,
        Group .objectValue (Named (IsValue place.isSome)) ts (fields, p) rest ∧ v = .object fields p ∧
          v.nesting ≤ levels + 1) [.braceOpen] false [] := by
  have hfield : Exact env levels (namedValue "object field name" v) _ _ _ _ := namedValue_exact hv
  have hgroup := (group_exact .objectValue hfield (by decide)).map fun out => Literal.object out.1 out.2
  refine hgroup.congr (fun ts v rest => ?_) (by decide) id (by simp)
  have hsize : ∀ fields p, (Literal.object fields p).nesting ≤ levels + 1 ↔
      ∀ f ∈ fields, f.2.nesting ≤ levels := fun fields p => by
    rw [Literal.nesting, Literal.nestingOfFields_eq, Nat.add_le_add_iff_right, largest_le]
  constructor
  · rintro ⟨fields, p, here, rfl, h⟩
    exact ⟨(fields, p), group_within.mpr ⟨here, (hsize fields p).mp h⟩, rfl⟩
  · rintro ⟨⟨fields, p⟩, here, rfl⟩
    obtain ⟨here, h⟩ := group_within.mp here
    exact ⟨fields, p, here, rfl, (hsize fields p).mpr h⟩

/-- A value starts as its kind does, and leaves less than it found. -/
lemma value_starts {item : Parse Literal}
    (hv : Exact env levels item (Within Literal.nesting levels (IsValue place.isSome)) valueStarts false
      []) {ts rest : List Token} {v : Literal}
    (h : Within Literal.nesting (levels + 1) (IsValue place.isSome) ts v rest) :
    Starts valueStarts false ts rest := by
  obtain ⟨h, hsize⟩ := h
  cases ts with
  | nil => exact absurd h isValue_nil
  | cons t us =>
    rw [isValue_cons, ValueAt] at h
    cases hk : t.kind <;> simp only [hk] at h
    case dollar =>
      obtain ⟨-, name, ⟨_⟩, -⟩ := h
      exact .inr ⟨t, _, rfl, by rw [hk]; decide, Nat.le_succ _⟩
    case int | float | name =>
      obtain ⟨-, rfl⟩ := h
      exact .inr ⟨t, rest, rfl, by rw [hk]; decide, Nat.le_refl _⟩
    case string | blockString =>
      obtain ⟨-, -, -, rfl⟩ := h
      exact .inr ⟨t, rest, rfl, by rw [hk]; decide, Nat.le_refl _⟩
    case bracketOpen =>
      obtain ⟨items, p, here, rfl⟩ := h
      exact ((list_exact hv).starts _ _ _ ⟨items, p, here, rfl, hsize⟩).mono (by decide) id
    case braceOpen =>
      obtain ⟨fields, p, here, rfl⟩ := h
      exact ((object_exact hv).starts _ _ _ ⟨fields, p, here, rfl, hsize⟩).mono (by decide) id

lemma nesting_literalOfName (t : Token) : (literalOfName t).nesting = 1 := by
  unfold literalOfName
  split <;> rfl

/-- A value that is one token. -/
lemma leaf_exactAt {v : Literal} {us : List Token} (hsize : v.nesting = 1)
    (hv : ∀ w rest, IsValue place.isSome (t :: ts) w rest ↔ w = v ∧ rest = us)
    {p : Parse Literal} (hp : ExactAt env levels p (fun w rest => w = v ∧ rest = us) follow (t :: ts)) :
    ExactAt env levels p (Within Literal.nesting (levels + 1) (IsValue place.isSome) (t :: ts)) follow
      (t :: ts) := by
  refine hp.congr (fun w rest => ?_) fun _ h => h
  rw [Within, hv, and_iff_left_iff_imp]
  rintro ⟨rfl, -⟩
  exact hsize ▸ Nat.le_add_left 1 levels

/-- A value that is a reference to a variable. -/
lemma variable_exactAt (hk : t.kind = .dollar) (hts : ts.length ≤ env.tokenCount) :
    ExactAt env levels (variableReference place t)
      (Within Literal.nesting (levels + 1) (IsValue place.isSome) (t :: ts)) follow (t :: ts) := by
  refine (variableReference_exactAt hts).congr (fun v rest => ?_) fun _ h => h
  rw [Within, isValue_cons, ValueAt, hk, and_iff_left_iff_imp]
  rintro ⟨-, name, -, rfl⟩
  exact Nat.le_add_left 1 levels

/-- A value that is a string; what it stands for is cooked from the text of the token. -/
lemma string_exactAt (hk : t.kind.isString = true) (hts : ts.length ≤ env.tokenCount) :
    ExactAt env levels
      (advance >>= fun _ => cook t >>= fun text => pure (Literal.scalar .string text t.start))
      (Within Literal.nesting (levels + 1) (IsValue place.isSome) (t :: ts)) follow (t :: ts) := by
  have hcook : Exact env levels _ _ _ _ _ :=
    (cook_exact t).map fun text => Literal.scalar .string text t.start
  refine (ExactAt.advance_bind (hcook.exactAt ts hts)).congr (fun v rest => ?_)
    fun _ _ _ _ => List.not_mem_nil
  have hvalue : IsValue place.isSome (t :: ts) v rest ↔ ∃ text, StringLiteral.cook t.text = .ok text ∧
      v = .scalar .string text t.start ∧ rest = ts := by
    rw [isValue_cons, ValueAt]
    obtain hk | hk := isString_iff.mp hk <;> rw [hk]
  rw [Within, hvalue]
  constructor
  · rintro ⟨⟨text, htext, rfl, rfl⟩, -⟩
    exact ⟨text, ⟨htext, rfl⟩, rfl⟩
  · rintro ⟨text, ⟨htext, rfl⟩, rfl⟩
    exact ⟨⟨text, htext, rfl, rfl⟩, Nat.le_add_left 1 levels⟩

lemma valueWithin_exact {fuel : Nat} (h : levels ≤ fuel) :
    Exact env levels (valueWithin place fuel)
      (Within Literal.nesting levels (IsValue place.isSome)) valueStarts false [] := by
  refine levels_exact rfl (fun fuel => ⟨_, rfl, fun levels hv => ?_⟩) Literal.nesting_pos h
  refine ⟨?keeps, fun ts v rest h => value_starts hv h, fun ts hts => ?exact⟩
  case keeps =>
    refine .silent_bind .peek fun t => ?_
    cases t with
    | none => exact .unexpected _
    | some t =>
      dsimp only
      cases t.kind
      case dollar => exact variableReference_keeps _ _
      case int | float | name => exact .silent_bind .advance fun _ => .pure _
      case string | blockString =>
        have hcook : Exact env 0 (cook t) _ _ _ _ := cook_exact t
        exact .silent_bind .advance fun _ => hcook.keeps.bind fun _ => .pure _
      case bracketOpen => exact (list_exact hv).keeps
      case braceOpen => exact (object_exact hv).keeps
      all_goals exact .unexpected _
  case exact =>
    refine .peek_bind ?_
    cases ts with
    | nil => exact .complains (.unexpected _) fun v rest hv => isValue_nil hv.1
    | cons t us =>
      have hus : us.length ≤ env.tokenCount := Nat.le_of_succ_le hts
      simp only [List.head?_cons]
      cases hk : t.kind
      case dollar => exact variable_exactAt hk hus
      case int | float =>
        refine leaf_exactAt rfl (fun w rest => ?_) (.advance_bind (.pure _))
        rw [isValue_cons, ValueAt, hk]
      case name =>
        refine leaf_exactAt (nesting_literalOfName t) (fun w rest => ?_) (.advance_bind (.pure _))
        rw [isValue_cons, ValueAt, hk]
      case string | blockString => exact string_exactAt (by rw [hk]; rfl) hus
      case bracketOpen =>
        refine ((list_exact hv).exactAt _ hts).congr (fun v rest => ?_) fun _ h => h
        rw [Within, isValue_cons, ValueAt, hk]
        simp only [← and_assoc, exists_and_right]
      case braceOpen =>
        refine ((object_exact hv).exactAt _ hts).congr (fun v rest => ?_) fun _ h => h
        rw [Within, isValue_cons, ValueAt, hk]
        simp only [← and_assoc, exists_and_right]
      all_goals
        refine .complains (.unexpected _) fun v rest h => ?_
        simpa only [ValueAt, hk] using isValue_cons.mp h.1

lemma value_exact :
    Exact env levels (value place) (Within Literal.nesting levels (IsValue place.isSome)) valueStarts
      false [] :=
  allLevels_exact valueWithin_exact

/-! ### Types -/

/-- A type that may have a mark, or the type with it. -/
def Marked (start : Pos) (e : TypeRef) : Production TypeRef :=
  fun ts t rest => (∃ bang, IsToken .bang ts bang rest ∧ t = .nonNull e start) ∨ t = e ∧ rest = ts

lemma requiredMark_exact (start : Pos) (e : TypeRef) :
    Exact env levels (requiredMark start e) (Marked start e) [.bang] true [.bang] := by
  have hmark := (expect_exact .bang : Exact env levels _ _ _ _ _).map fun _ => TypeRef.nonNull e start
  rw [requiredMark, nextIs_advance]
  exact (Exact.nextIs_bind hmark (.pure e) (by simp)).congr (fun _ _ _ => Iff.rfl) (by simp) (by simp)
    (by simp)

lemma isType_iff {t : TypeRef} {ts rest : List Token} :
    IsType ts t rest ↔
      (∃ name mid, IsName ts name mid ∧ Marked name.pos (.named name) mid t rest) ∨
      ∃ opening ts₁ e ts₂ closing mid, IsToken .bracketOpen ts opening ts₁ ∧ IsType ts₁ e ts₂ ∧
        IsToken .bracketClose ts₂ closing mid ∧
          Marked opening.start (.list e opening.start) mid t rest := by
  constructor
  · intro h
    cases h with
    | named here => exact .inl ⟨_, rest, here, .inr ⟨rfl, rfl⟩⟩
    | list opens element closes =>
      exact .inr ⟨_, _, _, _, _, rest, opens, element, closes, .inr ⟨rfl, rfl⟩⟩
    | nonNull here once marks =>
      cases here with
      | named here => exact .inl ⟨_, _, here, .inl ⟨_, marks, rfl⟩⟩
      | list opens element closes =>
        exact .inr ⟨_, _, _, _, _, _, opens, element, closes, .inl ⟨_, marks, rfl⟩⟩
      | nonNull => exact absurd once (by simp [TypeRef.isNonNull])
  · rintro (⟨name, mid, here, h⟩ | ⟨opening, ts₁, e, ts₂, closing, mid, opens, element, closes, h⟩)
    · obtain ⟨bang, marks, rfl⟩ | ⟨rfl, rfl⟩ := h
      · exact .nonNull (.named here) rfl marks
      · exact .named here
    · obtain ⟨bang, marks, rfl⟩ | ⟨rfl, rfl⟩ := h
      · exact .nonNull (.list opens element closes) rfl marks
      · exact .list opens element closes

/-- The element of a list type and the bracket behind it. -/
lemma element_exact {element : Parse TypeRef}
    (ht : Exact env levels element (Within TypeRef.nesting levels IsType) [.bracketOpen, .name] false
      [.bang]) :
    Exact env levels (do
        let t ← element
        discard <| expect .bracketClose
        return t)
      (fun ts e rest => ∃ mid closing, IsType ts e mid ∧ e.nesting ≤ levels ∧
        IsToken .bracketClose mid closing rest) [.bracketOpen, .name] false [] := by
  refine (ht.bind (by simp) fun t => (discard_exact (expect_exact .bracketClose)).bind (by simp) fun _ =>
    .pure t).congr (fun ts e rest => ?_) (by simp) (by simp) (by simp)
  constructor
  · rintro ⟨mid, closing, h, hsize, closes⟩
    exact ⟨e, mid, ⟨h, hsize⟩, (), rest, ⟨closing, closes⟩, rfl, rfl⟩
  · rintro ⟨e, mid, ⟨h, hsize⟩, -, mid', ⟨closing, closes⟩, rfl, rfl⟩
    exact ⟨mid, closing, h, hsize, closes⟩

lemma Marked.nesting {start : Pos} {e t : TypeRef} {ts rest : List Token} (h : Marked start e ts t rest) :
    t.nesting = e.nesting := by
  obtain ⟨-, -, rfl⟩ | ⟨rfl, -⟩ := h <;> rfl

/-- What is made of the type between brackets. -/
def afterElement (start : Pos) (opening : Token) : Option TypeRef → Parse TypeRef
  | some t => requiredMark start (.list t opening.start)
  | none => fail

lemma typeRefWithin_exact {fuel : Nat} (h : levels ≤ fuel) :
    Exact env levels (typeRefWithin fuel) (Within TypeRef.nesting levels IsType)
      [.bracketOpen, .name] false [.bang] := by
  refine levels_exact rfl (fun fuel => ⟨_, rfl, fun levels ht => ?_⟩) TypeRef.nesting_pos h
  have hname : ∀ start, Exact env levels _ _ _ _ _ := fun start =>
    (expectName_exact "a type").bind (by simp) fun name => requiredMark_exact start (.named name)
  have hlist : ∀ start, Exact env levels _ _ _ _ _ := fun start =>
    (expect_exact .bracketOpen).bind (by simp) fun opening =>
      delimited_exact ⟨.listType, opening.start⟩ (afterElement start opening) (element_exact ht)
        (by simp) rfl fun t => requiredMark_exact start (.list t opening.start)
  refine (Exact.here_bind fun start => .nextIs_bind (hlist start) (hname start) (by simp)).congr
    (fun ts t rest => ?_) (by simp) (by simp) (by simp)
  rw [Within, isType_iff]
  constructor
  · rintro ⟨⟨name, mid, ⟨hk⟩, h⟩ | ⟨opening, ts₁, e, ts₂, closing, mid, ⟨hk⟩, element, closes, h⟩, hsize⟩
    · exact .inr ⟨_, mid, ⟨hk⟩, h⟩
    · rw [h.nesting, TypeRef.nesting] at hsize
      have hsize := Nat.le_of_succ_le_succ hsize
      exact .inl ⟨opening, _, ⟨hk⟩, e, mid, ⟨ts₂, closing, element, hsize, closes⟩, h⟩
  · rintro (⟨opening, ts₁, ⟨hk⟩, e, mid, ⟨ts₂, closing, element, hsize, closes⟩, h⟩ |
      ⟨name, mid, ⟨hk⟩, h⟩)
    · refine ⟨.inr ⟨opening, _, e, ts₂, closing, mid, ⟨hk⟩, element, closes, h⟩, ?_⟩
      rw [h.nesting, TypeRef.nesting]
      exact Nat.succ_le_succ hsize
    · refine ⟨.inl ⟨_, mid, ⟨hk⟩, h⟩, ?_⟩
      rw [h.nesting]
      exact Nat.le_add_left 1 levels

lemma typeRef_exact :
    Exact env levels typeRef (Within TypeRef.nesting levels IsType) [.bracketOpen, .name] false [.bang] :=
  allLevels_exact typeRefWithin_exact

/-! ### Arguments and directives -/

lemma argument_exact :
    Exact env levels (argument place) (Within Argument.nesting levels (IsArgument place.isSome)) [.name]
      false [] := by
  have hnamed : Exact env levels (namedValue "argument name" (value place)) _ _ _ _ :=
    namedValue_exact value_exact
  have h := hnamed.map fun out => Argument.mk out.1 out.2
  refine h.congr (fun ts a rest => ?_) (by simp) id (by simp)
  constructor
  · rintro ⟨⟨here⟩, hsize⟩
    exact ⟨_, ⟨here, hsize⟩, rfl⟩
  · rintro ⟨⟨name, v⟩, ⟨here, hsize⟩, rfl⟩
    exact ⟨⟨here⟩, hsize⟩

lemma arguments_exact (c : Construct) :
    Exact env levels (arguments c place)
      (Within (largest Argument.nesting) levels (OptionalGroup c (IsArgument place.isSome))) [c.opening]
      true [c.opening] :=
  optionalGroup_exact c argument_exact ⟨by decide, by simp, by simp⟩

lemma directive_exact :
    Exact env levels (directive place) (Within Directive.nesting levels (IsDirective place.isSome))
      [.atSign] false [.parenOpen] := by
  refine ((expect_exact .atSign).bind (by simp) fun mark =>
    (expectName_exact _).bind (by simp) fun name =>
      (arguments_exact .directiveArguments).map fun args => Directive.mk name args mark.start).congr
    (fun ts d rest => ?_) (by simp) (by simp) (by decide)
  constructor
  · rintro ⟨⟨marks, names, arguments⟩, hsize⟩
    exact ⟨_, _, marks, _, _, names, _, ⟨arguments, hsize⟩, rfl⟩
  · rintro ⟨mark, ts₁, marks, name, ts₂, names, args, ⟨arguments, hsize⟩, rfl⟩
    exact ⟨⟨marks, names, arguments⟩, hsize⟩

lemma directivesFrom_keeps (steps : Nat) (read : List Directive) :
    KeepsErrors env (directivesFrom place steps read) := by
  induction steps generalizing read with
  | zero => exact .pure _
  | succ steps ih =>
    refine .silent_bind (.nextIs _) fun next => .ite ?_ (.pure _)
    exact (directive_exact : Exact env 0 _ _ _ _ _).keeps.bind fun _ => ih _

/-- What `directivesFrom` makes behind the directives that were read before. -/
def MoreDirectives (place : Option ConstantPlace) (levels : Nat) (read : List Directive) :
    Production (List Directive) :=
  fun ts out rest => ∃ ds, Many (Within Directive.nesting levels (IsDirective place.isSome)) ts ds rest ∧
    out = read.reverse ++ ds

lemma noDirectives_exactAt {read : List Directive} (hnext : NotNext [.atSign] ts) :
    ExactAt env levels (pure read.reverse) (MoreDirectives place levels read ts) follow ts := by
  refine (ExactAt.pure _).congr (fun out rest => ?_) fun _ h => h
  constructor
  · rintro ⟨ds, hmany, rfl⟩
    obtain ⟨rfl, rfl⟩ | ⟨d, mid, more, h, -⟩ := many_iff.mp hmany
    · exact ⟨List.append_nil _, rfl⟩
    · have hstarts := (directive_exact : Exact env levels _ _ _ _ _).starts _ _ _ h
      exact absurd hnext hstarts.not_notNext
  · rintro ⟨rfl, rfl⟩
    exact ⟨[], .nil, (List.append_nil _).symm⟩

/-- As many directives as there are tokens is as many as there can be. -/
lemma directivesFrom_exactAt {steps : Nat} {read : List Directive} {ts : List Token}
    (hsteps : ts.length ≤ steps) (hts : ts.length ≤ env.tokenCount) :
    ExactAt env levels (directivesFrom place steps read) (MoreDirectives place levels read ts)
      (NotNext [.atSign, .parenOpen]) ts := by
  have hd : Exact env levels (directive place) _ _ _ _ := directive_exact
  induction steps generalizing read ts with
  | zero =>
    obtain rfl := List.length_eq_zero_iff.mp (Nat.le_zero.mp hsteps)
    exact noDirectives_exactAt .nil
  | succ steps ih =>
    by_cases hnext : NotNext [.atSign] ts
    · exact .nextIs_false hnext (noDirectives_exactAt hnext)
    obtain ⟨t, us, rfl, ht⟩ := exists_of_not_notNext hnext
    refine .nextIs_true (List.mem_singleton.mp ht) ?_
    have hmore : ∀ d mid, Within Directive.nesting levels (IsDirective place.isSome) (t :: us) d mid →
        mid.length ≤ us.length := fun d mid h => (hd.starts _ _ _ h).length_tail
    refine ((hd.exactAt _ hts).bind (fun d => directivesFrom_keeps steps (d :: read)) (fun d mid h =>
      ih (Nat.le_trans (hmore d mid h) (Nat.le_of_succ_le_succ hsteps))
        (Nat.le_trans (hmore d mid h) (Nat.le_of_succ_le hts))) ?_).relax ?_ ?_ fun _ h => h
    · rintro d mid out rest - ⟨ds, hmany, -⟩ hrest
      exact (hmany.starts hd.starts).notNext (by simp) fun _ => hrest.mono (by simp)
    · rintro out rest ⟨d, mid, h, ds, hmany, rfl⟩
      exact ⟨d :: ds, .cons h hmany, by simp⟩
    · rintro out rest ⟨ds, hmany, rfl⟩ hrest
      obtain ⟨rfl, rfl⟩ | ⟨d, mid, more, h, hmore, rfl⟩ := many_iff.mp hmany
      · exact absurd (hrest.mono (by simp)) hnext
      · exact ⟨d, mid, h, more, hmore, by simp⟩

lemma directives_exact :
    Exact env levels (directives place)
      (Within (largest Directive.nesting) levels (IsDirectives place.isSome)) [.atSign] true
      [.atSign, .parenOpen] := by
  have hmany : ∀ ts ds rest,
      Within (largest Directive.nesting) levels (IsDirectives place.isSome) ts ds rest ↔
        MoreDirectives place levels [] ts ds rest := fun ts ds rest => by
    rw [Within, largest_le, IsDirectives, ← many_within]
    constructor
    · exact fun h => ⟨ds, h, rfl⟩
    · rintro ⟨ds, h, rfl⟩
      exact h
  have hd : Exact env levels (directive place) _ _ _ _ := directive_exact
  refine .limits_bind ⟨directivesFrom_keeps _ _, fun ts ds rest h => ?_, fun ts hts => ?_⟩
  · obtain ⟨ds, h, -⟩ := (hmany ts ds rest).mp h
    exact h.starts hd.starts
  · exact (directivesFrom_exactAt hts hts).congr (hmany ts) fun _ h => h

end Parse

end GraphQL
