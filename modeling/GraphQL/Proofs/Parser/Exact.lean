import GraphQL.Proofs.Parser.Errors
import GraphQL.Proofs.Parser.Grammar

/-!
Parses that follow a production exactly.

A parse decides by the next token. So what it makes of some tokens may depend on what follows, and a
production is known with the kinds of tokens that it starts with and with those that must not follow
it. Where two productions stand one behind the other, the second must start with none that the first
must not be followed by.
-/

namespace GraphQL

open Grammar

namespace ParseState

/-- Where a parse stands that has reported nothing. -/
def clean (tokens : List Token) (ds : List Delimiter) (depth : Nat) : ParseState :=
  ⟨tokens, [], ds, depth, false, none⟩

end ParseState

namespace Grammar

variable {α β : Type}

/-- The next token, if there is one, is of none of the kinds. -/
def NotNext (ks : List TokenKind) (ts : List Token) : Prop := ∀ t ∈ ts.head?, t.kind ∉ ks

/-- Tokens that are read start with one of the kinds; none are read only if that is allowed. -/
def Starts (first : List TokenKind) (nullable : Bool) (ts rest : List Token) : Prop :=
  (nullable = true ∧ ts = rest) ∨ ∃ t us, ts = t :: us ∧ t.kind ∈ first ∧ rest.length ≤ us.length

/-- Nothing is read. -/
def Nothing (a : α) : Production α := fun ts b rest => b = a ∧ rest = ts

/-- One production and then another, which may depend on what was derived. -/
def Then (P : Production α) (R : α → Production β) : Production β :=
  fun ts b rest => ∃ a mid, P ts a mid ∧ R a mid b rest

/-- What is derived is no larger than `n`. -/
def Within (size : α → Nat) (n : Nat) (P : Production α) : Production α :=
  fun ts a rest => P ts a rest ∧ size a ≤ n

lemma NotNext.nil {ks : List TokenKind} : NotNext ks [] := by
  rintro t ⟨⟩

lemma NotNext.mono {ks ks' : List TokenKind} {ts : List Token} (h : NotNext ks' ts) (hks : ks ⊆ ks') :
    NotNext ks ts := fun t ht hk => h t ht (hks hk)

lemma exists_of_not_notNext {ks : List TokenKind} {ts : List Token} (h : ¬NotNext ks ts) :
    ∃ t us, ts = t :: us ∧ t.kind ∈ ks := by
  cases ts with
  | nil => exact absurd .nil h
  | cons t us =>
    by_contra hk
    refine h fun t' ht' hk' => hk ⟨t, us, rfl, ?_⟩
    obtain rfl : t = t' := Option.some.inj ht'
    exact hk'

namespace Starts

variable {first first' : List TokenKind} {nullable nullable' : Bool} {ts mid rest : List Token}

lemma length_le (h : Starts first nullable ts rest) : rest.length ≤ ts.length := by
  obtain ⟨-, rfl⟩ | ⟨t, us, rfl, -, hlen⟩ := h
  · exact Nat.le_refl _
  · exact Nat.le_succ_of_le hlen

lemma mono (h : Starts first nullable ts rest) (hF : first ⊆ first')
    (hn : nullable = true → nullable' = true) : Starts first' nullable' ts rest :=
  h.imp (fun h => ⟨hn h.1, h.2⟩) fun ⟨t, us, hts, hk, hlen⟩ => ⟨t, us, hts, hF hk, hlen⟩

lemma trans (h : Starts first nullable ts mid) (h' : Starts first' nullable' mid rest) :
    Starts (first ++ if nullable then first' else []) (nullable && nullable') ts rest := by
  obtain ⟨rfl, rfl⟩ | ⟨t, us, rfl, hk, hlen⟩ := h
  · exact h'.mono (List.subset_append_right _ _) fun h => by rw [h]; rfl
  · exact .inr ⟨t, us, rfl, List.mem_append_left _ hk, Nat.le_trans h'.length_le hlen⟩

/-- The tokens start with what must not follow only if none of them are read. -/
lemma notNext {ks : List TokenKind} (h : Starts first nullable ts rest) (hks : ∀ k ∈ ks, k ∉ first)
    (hrest : nullable = true → NotNext ks rest) : NotNext ks ts := by
  obtain ⟨hn, rfl⟩ | ⟨t, us, rfl, hk, -⟩ := h
  · exact hrest hn
  · rintro t' ht hk'
    obtain rfl : t = t' := Option.some.inj ht
    exact hks _ hk' hk

lemma length_tail {t : Token} (h : Starts first false (t :: ts) rest) : rest.length ≤ ts.length := by
  obtain ⟨h, -⟩ | ⟨t', us, heq, -, hlen⟩ := h
  · exact absurd h Bool.false_ne_true
  · cases heq
    exact hlen

/-- Where one of the kinds is read, one is next. -/
lemma not_notNext (h : Starts first false ts rest) : ¬NotNext first ts := by
  obtain ⟨h, -⟩ | ⟨t, us, rfl, hk, -⟩ := h
  · exact absurd h Bool.false_ne_true
  · exact fun hnext => hnext t rfl hk

lemma follows {ks ks' : List TokenKind} (h : Starts first nullable ts rest)
    (hks : ∀ k ∈ ks, k ∉ first) (hrest : NotNext (ks' ++ if nullable then ks else []) rest) :
    NotNext ks ts :=
  h.notNext hks fun hn => by
    rw [if_pos hn] at hrest
    exact hrest.mono (List.subset_append_right _ _)

end Starts

end Grammar

namespace Parse

open ParseState

variable {α β : Type} {env : ParseLimits} {levels : Nat}

/-- In front of the tokens `ts`, a parse either reports an error or makes what `Q` tells, where so
many levels are left. It makes all of that, unless what is left is not as `follow` tells. -/
structure ExactAt (env : ParseLimits) (levels : Nat) (p : Parse α) (Q : α → List Token → Prop)
    (follow : List Token → Prop) (ts : List Token) : Prop where
  sound : ∀ ds depth, depth + levels = env.maxDepth → (p env (clean ts ds depth)).2.IsClean →
    ∃ a rest, Q a rest ∧ p env (clean ts ds depth) = (some a, clean rest ds depth)
  complete : ∀ ds depth, depth + levels = env.maxDepth → ∀ a rest, Q a rest → follow rest →
    p env (clean ts ds depth) = (some a, clean rest ds depth)

/-- In front of any tokens, a parse derives what the production tells, and nothing else. -/
structure Exact (env : ParseLimits) (levels : Nat) (p : Parse α) (P : Production α)
    (first : List TokenKind) (nullable : Bool) (follow : List TokenKind) : Prop where
  keeps : KeepsErrors env p
  starts : ∀ ts a rest, P ts a rest → Starts first nullable ts rest
  exactAt : ∀ ts, ts.length ≤ env.tokenCount → ExactAt env levels p (P ts) (NotNext follow) ts

lemma attempt_bind {p : Parse α} {f : Option α → Parse β} {st st' : ParseState} {a : α}
    (hrun : p env st = (some a, st')) : (attempt p >>= f) env st = f (some a) env st' := by
  rw [bind_apply, attempt, hrun]

/-- To go on with what was made is to attempt it, and to fail where that fails. -/
lemma bind_eq_attempt (p : Parse α) (f : α → Parse β) :
    p >>= f = attempt p >>= fun
      | some a => f a
      | none => fail := by
  funext env st
  rw [bind_apply, bind_apply, attempt]
  generalize p env st = run
  obtain ⟨_ | a, st'⟩ := run <;> rfl

namespace ExactAt

variable {p q : Parse α} {f : α → Parse β} {Q Q' : α → List Token → Prop}
  {R : α → List Token → β → List Token → Prop} {follow follow' : List Token → Prop}
  {ts us : List Token}

/-- What is made may be told otherwise, where that makes no difference in front of the tokens that can
follow. -/
lemma relax (h : ExactAt env levels p Q follow ts) (hsound : ∀ a rest, Q a rest → Q' a rest)
    (hcomplete : ∀ a rest, Q' a rest → follow' rest → Q a rest)
    (hfollow : ∀ rest, follow' rest → follow rest) : ExactAt env levels p Q' follow' ts where
  sound ds depth hdepth hclean := by
    obtain ⟨a, rest, ha, hrun⟩ := h.sound ds depth hdepth hclean
    exact ⟨a, rest, hsound a rest ha, hrun⟩
  complete ds depth hdepth a rest ha hrest :=
    h.complete ds depth hdepth a rest (hcomplete a rest ha hrest) (hfollow rest hrest)

lemma congr (h : ExactAt env levels p Q follow ts) (hQ : ∀ a rest, Q' a rest ↔ Q a rest)
    (hfollow : ∀ rest, follow' rest → follow rest) : ExactAt env levels p Q' follow' ts :=
  h.relax (fun a rest => (hQ a rest).mpr) (fun a rest ha _ => (hQ a rest).mp ha) hfollow

/-- A parse may go on as another one does further on. -/
lemma of_run (h : ExactAt env levels q Q follow us)
    (hrun : ∀ ds depth, p env (clean ts ds depth) = q env (clean us ds depth)) :
    ExactAt env levels p Q follow ts where
  sound ds depth hdepth hclean := by
    rw [hrun] at hclean ⊢
    exact h.sound ds depth hdepth hclean
  complete ds depth hdepth a rest ha hrest := by
    rw [hrun]
    exact h.complete ds depth hdepth a rest ha hrest

lemma peek_bind {f : Option Token → Parse α} (h : ExactAt env levels (f ts.head?) Q follow ts) :
    ExactAt env levels (peek >>= f) Q follow ts :=
  h.of_run fun _ _ => rfl

lemma advance_bind {f : Unit → Parse α} {t : Token} (h : ExactAt env levels (f ()) Q follow ts) :
    ExactAt env levels (advance >>= f) Q follow (t :: ts) :=
  h.of_run fun _ _ => rfl

lemma nextIs_true {k : TokenKind} {f : Bool → Parse α} {t : Token} (ht : t.kind = k)
    (h : ExactAt env levels (f true) Q follow (t :: ts)) :
    ExactAt env levels (nextIs k >>= f) Q follow (t :: ts) :=
  h.of_run fun ds depth => by
    rw [bind_apply]
    simp [nextIs, bind_apply, peek, clean, pure_apply, ht]

lemma nextIs_false {k : TokenKind} {f : Bool → Parse α} (hnext : NotNext [k] ts)
    (h : ExactAt env levels (f false) Q follow ts) : ExactAt env levels (nextIs k >>= f) Q follow ts :=
  h.of_run fun ds depth => by
    cases ts with
    | nil => rfl
    | cons t us =>
      have ht : t.kind ≠ k := by simpa using hnext t rfl
      rw [bind_apply]
      simp [nextIs, bind_apply, peek, clean, pure_apply, ht]

lemma pure (a : α) :
    ExactAt env levels (Pure.pure a) (fun b rest => b = a ∧ rest = ts) follow ts where
  sound _ _ _ _ := ⟨a, ts, ⟨rfl, rfl⟩, rfl⟩
  complete := by
    rintro ds depth - b rest ⟨rfl, rfl⟩ -
    rfl

/-- Where nothing can be derived, an error has to be reported. -/
lemma complains (hp : Complains env p) (hQ : ∀ a rest, ¬Q a rest) : ExactAt env levels p Q follow ts where
  sound _ _ _ hclean := absurd hclean (hp _ rfl)
  complete _ _ _ a rest ha := absurd ha (hQ a rest)

/-- Without errors an attempt succeeds. -/
lemma attempt_bind {f : Option α → Parse β} (hp : ExactAt env levels p Q follow ts)
    (hkeeps : ∀ o, KeepsErrors env (f o))
    (hf : ∀ a mid, Q a mid → ExactAt env levels (f (some a)) (R a mid) follow' mid)
    (hfollow : ∀ a mid b rest, Q a mid → R a mid b rest → follow' rest → follow mid) :
    ExactAt env levels (attempt p >>= f) (fun b rest => ∃ a mid, Q a mid ∧ R a mid b rest) follow'
      ts where
  sound ds depth hdepth hclean := by
    have hmid := KeepsErrors.of_bind (p := attempt p) hkeeps hclean
    obtain ⟨a, mid, ha, hrun⟩ := hp.sound ds depth hdepth hmid
    rw [Parse.attempt_bind hrun] at hclean ⊢
    obtain ⟨b, rest, hb, hrun'⟩ := (hf a mid ha).sound ds depth hdepth hclean
    exact ⟨b, rest, ⟨a, mid, ha, hb⟩, hrun'⟩
  complete := by
    rintro ds depth hdepth b rest ⟨a, mid, ha, hb⟩ hrest
    rw [Parse.attempt_bind
      (hp.complete ds depth hdepth a mid ha (hfollow a mid b rest ha hb hrest))]
    exact (hf a mid ha).complete ds depth hdepth b rest hb hrest

lemma bind (hp : ExactAt env levels p Q follow ts) (hkeeps : ∀ a, KeepsErrors env (f a))
    (hf : ∀ a mid, Q a mid → ExactAt env levels (f a) (R a mid) follow' mid)
    (hfollow : ∀ a mid b rest, Q a mid → R a mid b rest → follow' rest → follow mid) :
    ExactAt env levels (p >>= f) (fun b rest => ∃ a mid, Q a mid ∧ R a mid b rest) follow' ts := by
  rw [bind_eq_attempt]
  refine hp.attempt_bind (fun o => ?_) hf hfollow
  cases o with
  | none => exact .fail
  | some a => exact hkeeps a

/-- What is made may be made into something else. -/
lemma map (make : α → β) (h : ExactAt env levels p Q follow ts) :
    ExactAt env levels (p >>= fun a => Pure.pure (make a))
      (fun b rest => ∃ a, Q a rest ∧ b = make a) follow ts := by
  refine (h.bind (fun a => .pure (make a)) (fun a mid _ => .pure (make a)) ?_).congr (fun b rest => ?_)
    fun _ h => h
  · rintro a mid b rest - ⟨-, rfl⟩ hrest
    exact hrest
  · constructor
    · rintro ⟨a, ha, rfl⟩
      exact ⟨a, rest, ha, rfl, rfl⟩
    · rintro ⟨a, mid, ha, rfl, rfl⟩
      exact ⟨a, ha, rfl⟩

lemma ite {c : Prop} [Decidable c] (hp : c → ExactAt env levels p Q follow ts)
    (hq : ¬c → ExactAt env levels q Q follow ts) :
    ExactAt env levels (if c then p else q) Q follow ts := by
  by_cases h : c
  · rw [if_pos h]
    exact hp h
  · rw [if_neg h]
    exact hq h

end ExactAt

namespace Exact

variable {p q : Parse α} {f : α → Parse β} {P P' : Production α} {Q : Production α}
  {R : α → Production β} {first first' : List TokenKind} {nullable nullable' : Bool}
  {follow follow' : List TokenKind}

lemma congr (h : Exact env levels p P first nullable follow)
    (hP : ∀ ts a rest, P' ts a rest ↔ P ts a rest) (hfirst : first ⊆ first')
    (hnullable : nullable = true → nullable' = true) (hfollow : follow ⊆ follow') :
    Exact env levels p P' first' nullable' follow' where
  keeps := h.keeps
  starts ts a rest ha := (h.starts ts a rest ((hP ts a rest).mp ha)).mono hfirst hnullable
  exactAt ts hts := (h.exactAt ts hts).congr (hP ts) fun _ hrest => hrest.mono hfollow

lemma pure (a : α) : Exact env levels (Pure.pure a) (Nothing a) [] true [] where
  keeps := .pure a
  starts _ _ _ h := .inl ⟨rfl, h.2.symm⟩
  exactAt _ _ := .pure a

/-- **One parse behind another.** The second must start with nothing that decides how the first one
goes on. -/
lemma bind (hp : Exact env levels p P first nullable follow) (hdisjoint : ∀ k ∈ follow, k ∉ first')
    (hf : ∀ a, Exact env levels (f a) (R a) first' nullable' follow') :
    Exact env levels (p >>= f) (Then P R) (first ++ if nullable then first' else [])
      (nullable && nullable') (follow' ++ if nullable' then follow else []) where
  keeps := hp.keeps.bind fun a => (hf a).keeps
  starts := by
    rintro ts b rest ⟨a, mid, ha, hb⟩
    exact (hp.starts ts a mid ha).trans ((hf a).starts mid b rest hb)
  exactAt ts hts := by
    refine (hp.exactAt ts hts).bind (fun a => (hf a).keeps) (fun a mid ha => ?_) ?_
    · have hmid := Nat.le_trans (hp.starts ts a mid ha).length_le hts
      exact ((hf a).exactAt mid hmid).congr (fun _ _ => Iff.rfl)
        fun _ hrest => hrest.mono (List.subset_append_left _ _)
    · exact fun a mid b rest _ hb hrest => ((hf a).starts mid b rest hb).follows hdisjoint hrest

lemma map (make : α → β) (h : Exact env levels p P first nullable follow) :
    Exact env levels (p >>= fun a => Pure.pure (make a)) (fun ts b rest => ∃ a, P ts a rest ∧ b = make a)
      first nullable follow where
  keeps := h.keeps.bind fun a => .pure (make a)
  starts := by
    rintro ts b rest ⟨a, ha, -⟩
    exact h.starts ts a rest ha
  exactAt ts hts := (h.exactAt ts hts).map make

lemma limits_bind {f : ParseLimits → Parse α} (h : Exact env levels (f env) P first nullable follow) :
    Exact env levels (limits >>= f) P first nullable follow where
  keeps := h.keeps
  starts := h.starts
  exactAt ts hts := (h.exactAt ts hts).of_run fun _ _ => rfl

/-- Where a parse stands in front of some tokens. -/
def startOf (env : ParseLimits) (ts : List Token) : Pos := (ts.head?.map (·.start)).getD env.endPos

lemma here_bind {f : Pos → Parse α} {R : Pos → Production α}
    (h : ∀ p, Exact env levels (f p) (R p) first nullable follow) :
    Exact env levels (here >>= f) (fun ts => R (startOf env ts) ts) first nullable follow where
  keeps := .silent_bind .here fun p => (h p).keeps
  starts ts a rest ha := (h _).starts ts a rest ha
  exactAt ts hts := by
    refine ((h (startOf env ts)).exactAt ts hts).of_run fun ds depth => ?_
    cases ts <;> rfl

lemma relax (h : Exact env levels p P first nullable follow)
    (hsound : ∀ ts a rest, P ts a rest → P' ts a rest)
    (hcomplete : ∀ ts a rest, P' ts a rest → NotNext follow' rest → P ts a rest)
    (hstarts : ∀ ts a rest, P' ts a rest → Starts first nullable ts rest) (hfollow : follow ⊆ follow') :
    Exact env levels p P' first nullable follow' where
  keeps := h.keeps
  starts := hstarts
  exactAt ts hts :=
    (h.exactAt ts hts).relax (hsound ts) (hcomplete ts) fun _ hrest => hrest.mono hfollow

/-- **A choice by the next token.** -/
lemma nextIs_look {k : TokenKind} {f : Bool → Parse α} {follow₁ follow₂ : List TokenKind}
    (hp : Exact env levels (f true) P [k] false follow₁)
    (hq : Exact env levels (f false) Q first nullable follow₂) :
    Exact env levels (nextIs k >>= f) (fun ts a rest => P ts a rest ∨ Q ts a rest ∧ NotNext [k] ts)
      (k :: first) nullable (follow₁ ++ follow₂) where
  keeps := .silent_bind (.nextIs k) fun b => by
    cases b
    · exact hq.keeps
    · exact hp.keeps
  starts ts a rest h := by
    obtain h | ⟨h, -⟩ := h
    · exact (hp.starts ts a rest h).mono (by simp) (by simp)
    · exact (hq.starts ts a rest h).mono (List.subset_cons_self _ _) id
  exactAt ts hts := by
    by_cases hnext : NotNext [k] ts
    · have hP : ∀ a rest, ¬P ts a rest := fun a rest ha => (hp.starts ts a rest ha).not_notNext hnext
      refine (ExactAt.nextIs_false hnext (hq.exactAt ts hts)).congr (fun a rest => ?_) ?_
      · rw [or_iff_right (hP a rest), and_iff_left hnext]
      · exact fun rest hrest => hrest.mono (List.subset_append_right _ _)
    · obtain ⟨t, us, rfl, ht⟩ := exists_of_not_notNext hnext
      have hyes := ExactAt.nextIs_true (List.mem_singleton.mp ht) (hp.exactAt _ hts)
      refine hyes.congr (fun a rest => or_iff_left fun h => hnext h.2) ?_
      exact fun rest hrest => hrest.mono (List.subset_append_left _ _)

/-- The same, where the next token alone tells the two apart. -/
lemma nextIs_bind {k : TokenKind} {f : Bool → Parse α} {follow₁ follow₂ : List TokenKind}
    (hp : Exact env levels (f true) P [k] false follow₁)
    (hq : Exact env levels (f false) Q first nullable follow₂) (hk : k ∉ first) :
    Exact env levels (nextIs k >>= f) (fun ts a rest => P ts a rest ∨ Q ts a rest) (k :: first)
      nullable (follow₁ ++ follow₂ ++ if nullable then [k] else []) := by
  refine (nextIs_look hp hq).relax (fun ts a rest h => h.imp_right And.left) ?_ ?_
    (List.subset_append_left _ _)
  · intro ts a rest h hrest
    exact h.imp_right fun ha => ⟨ha, (hq.starts ts a rest ha).follows (by simpa using hk) hrest⟩
  · rintro ts a rest (h | h)
    · exact (hp.starts ts a rest h).mono (by simp) (by simp)
    · exact (hq.starts ts a rest h).mono (List.subset_cons_self _ _) id

lemma complains (hkeeps : KeepsErrors env p) (hp : Complains env p) :
    Exact env levels p (fun _ _ _ => False) [] false [] :=
  ⟨hkeeps, fun _ _ _ h => h.elim, fun _ _ => .complains hp fun _ _ => id⟩

/-- One branch reports an error, so the other one is what is meant. -/
lemma ite_complains {c : Prop} [Decidable c] (hc : c → KeepsErrors env p ∧ Complains env p)
    (hq : Exact env levels q P first nullable follow) :
    Exact env levels (if c then p else q) (fun ts a rest => ¬c ∧ P ts a rest) first nullable
      follow := by
  by_cases h : c
  · rw [if_pos h]
    exact ⟨(hc h).1, fun _ _ _ ha => absurd h ha.1, fun _ _ => .complains (hc h).2 fun _ _ ha => ha.1 h⟩
  · rw [if_neg h]
    exact hq.congr (fun _ _ _ => and_iff_right h) (fun _ => id) id fun _ => id

end Exact

/-! ### Steps over single tokens -/

/-- A step over one token that meets a condition, if the next one does. -/
lemma step_exact (what : String) (ok : Token → Prop) [DecidablePred ok] (make : Token → α) {k : TokenKind}
    {f : Option Token → Parse α} (hnone : f none = unexpected what)
    (hsome : ∀ t, f (some t) = if ok t then advance >>= fun _ => pure (make t) else unexpected what)
    (hk : ∀ t, ok t → t.kind = k) :
    Exact env levels (peek >>= f) (fun ts a rest => ∃ t, ok t ∧ a = make t ∧ ts = t :: rest) [k] false
      [] where
  keeps := by
    refine .silent_bind .peek fun t => ?_
    cases t with
    | none => exact hnone ▸ .unexpected what
    | some t => exact hsome t ▸ .ite (.silent_bind .advance fun _ => .pure _) (.unexpected what)
  starts := by
    rintro ts a rest ⟨t, ht, -, rfl⟩
    exact .inr ⟨t, rest, rfl, by simp [hk t ht], Nat.le_refl _⟩
  exactAt ts _ := by
    refine .peek_bind ?_
    cases ts with
    | nil =>
      rw [List.head?_nil, hnone]
      exact .complains (.unexpected what) (by simp)
    | cons t us =>
      rw [List.head?_cons, hsome]
      refine .ite (fun ht => ?_) fun ht => .complains (.unexpected what) ?_
      · refine (ExactAt.advance_bind (.pure (make t))).congr (fun a rest => ?_) fun _ h => h
        constructor
        · rintro ⟨t', -, rfl, heq⟩
          cases heq
          exact ⟨rfl, rfl⟩
        · rintro ⟨rfl, rfl⟩
          exact ⟨t, ht, rfl, rfl⟩
      · rintro a rest ⟨t', ht', -, heq⟩
        cases heq
        exact ht ht'

lemma expect_exact (k : TokenKind) : Exact env levels (expect k) (IsToken k) [k] false [] := by
  refine (step_exact ("`" ++ k.description ++ "`") (fun t => t.kind = k) id rfl (fun _ => rfl)
    fun _ => id).congr (fun ts a rest => ?_) (fun _ => id) id fun _ => id
  constructor
  · rintro ⟨hk⟩
    exact ⟨a, hk, rfl, rfl⟩
  · rintro ⟨t, hk, rfl, rfl⟩
    exact ⟨hk⟩

lemma isKeyword_iff {t : Token} {word : String} :
    t.isKeyword word = true ↔ t.kind = .name ∧ t.text = word := by
  simp [Token.isKeyword]

lemma expectKeyword_exact (word : String) :
    Exact env levels (expectKeyword word) (IsKeyword word) [.name] false [] := by
  refine (step_exact ("`" ++ word ++ "`") (fun t => t.isKeyword word = true) id rfl (fun _ => rfl)
    fun _ h => (isKeyword_iff.mp h).1).congr (fun ts a rest => ?_) (fun _ => id) id fun _ => id
  constructor
  · rintro ⟨hk, hword⟩
    exact ⟨a, isKeyword_iff.mpr ⟨hk, hword⟩, rfl, rfl⟩
  · rintro ⟨t, ht, rfl, rfl⟩
    exact ⟨(isKeyword_iff.mp ht).1, (isKeyword_iff.mp ht).2⟩

lemma expectName_exact (what : String) :
    Exact env levels (expectName what) IsName [.name] false [] := by
  refine (step_exact what (fun t => t.kind = .name) (fun t => ⟨t.text, t.start⟩) rfl (fun _ => rfl)
    fun _ => id).congr (fun ts a rest => ?_) (fun _ => id) id fun _ => id
  constructor
  · rintro ⟨hk⟩
    exact ⟨_, hk, rfl, rfl⟩
  · rintro ⟨t, hk, rfl, rfl⟩
    exact ⟨hk⟩

/-- A step over a token that was found to be next is a step over one that is expected. -/
lemma nextIs_advance {β : Type} (k : TokenKind) (f : Unit → Parse β) (q : Parse β) :
    (nextIs k >>= fun b => if b = true then advance >>= f else q) =
      nextIs k >>= fun b => if b = true then expect k >>= fun _ => f () else q := by
  funext env st
  obtain ⟨rest, errors, ds, depth, ended, aborted⟩ := st
  cases rest with
  | nil => rfl
  | cons t ts =>
    simp only [bind_apply, nextIs, peek, pure_apply, List.head?_cons, Option.any_some,
      decide_eq_true_eq]
    by_cases hk : t.kind = k
    · simp [hk, expect, bind_apply, peek, advance, pure_apply]
    · simp [hk]

/-- What a step makes may be dropped. -/
lemma discard_exact {p : Parse α} {P : Production α} {first follow : List TokenKind}
    (h : Exact env levels p P first false follow) :
    Exact env levels (discard p) (fun ts _ rest => ∃ a, P ts a rest) first false follow := by
  refine (h.bind (by simp) fun _ => .pure ()).congr (fun ts u rest => ?_) (by simp) (by simp) (by simp)
  constructor
  · rintro ⟨a, ha⟩
    exact ⟨a, rest, ha, rfl, rfl⟩
  · rintro ⟨a, mid, ha, -, rfl⟩
    exact ⟨a, ha⟩

end Parse

end GraphQL
