import Mathlib.Data.List.Infix
import GraphQL.Parser

/-!
What a parse gives account of.

Whatever a parse does, it takes no token back and forgets no error, and it leaves the nesting and the
open delimiters as they were. Where it fails, there is an error that says so. The one failure that
may go without a new error is at the end of the document, and only if the end was complained of
before.
-/

namespace GraphQL

/-- An error that reports the end of the document. -/
def ParseError.IsAtEnd (env : ParseLimits) (e : ParseError) : Prop :=
  e.cause.isUnfinished = true ∧ e.pos = env.endPos

namespace ParseState

variable {env : ParseLimits} {st st₁ st₂ : ParseState}

/-- How a state may differ from an earlier one. -/
structure Follows (env : ParseLimits) (st st' : ParseState) : Prop where
  rest : st'.rest <:+ st.rest
  errors : st.errors <:+ st'.errors
  depth : st'.depth = st.depth
  aborted : ∀ e, st.aborted = some e → st'.aborted = some e
  ended : st'.endReported = true → st.endReported = true ∨
    st.errors.length < st'.errors.length ∧ ∃ e ∈ st'.errors, e.IsAtEnd env

/-- What went wrong between two states is known in the second one. -/
def Explained (st st' : ParseState) : Prop :=
  st'.aborted.isSome = true ∨ st.errors.length < st'.errors.length ∨ st.endReported = true

namespace Follows

lemma refl (st : ParseState) : Follows env st st :=
  ⟨List.suffix_refl _, List.suffix_refl _, rfl, fun _ h => h, .inl⟩

lemma trans (h : Follows env st st₁) (h' : Follows env st₁ st₂) : Follows env st st₂ where
  rest := h'.rest.trans h.rest
  errors := h.errors.trans h'.errors
  depth := h'.depth.trans h.depth
  aborted e he := h'.aborted e (h.aborted e he)
  ended hend := by
    have hlen := h.errors.length_le
    have hlen' := h'.errors.length_le
    obtain hend | ⟨hmore, hat⟩ := h'.ended hend
    · obtain hend | ⟨hmore, e, he, hat⟩ := h.ended hend
      · exact .inl hend
      · exact .inr ⟨Nat.lt_of_lt_of_le hmore hlen', e, h'.errors.subset he, hat⟩
    · exact .inr ⟨Nat.lt_of_le_of_lt hlen hmore, hat⟩

lemma length_le (h : Follows env st st₁) : st₁.rest.length ≤ st.rest.length := h.rest.length_le

/-- What is read further on and which delimiters are open does not count. -/
lemma of_moved (ts : List Token) (ds : List Delimiter) (h : ts <:+ st.rest) :
    Follows env st { st with rest := ts, delimiters := ds } :=
  ⟨h, List.suffix_refl _, rfl, fun _ h => h, .inl⟩

end Follows

namespace Explained

lemma before (h : Follows env st st₁) (h' : Follows env st₁ st₂) (hex : Explained st₁ st₂) :
    Explained st st₂ := by
  obtain habort | hmore | hend := hex
  · exact .inl habort
  · exact .inr (.inl (Nat.lt_of_le_of_lt h.errors.length_le hmore))
  · obtain hend | ⟨hmore, -⟩ := h.ended hend
    · exact .inr (.inr hend)
    · exact .inr (.inl (Nat.lt_of_lt_of_le hmore h'.errors.length_le))

lemma after (hex : Explained st st₁) (h' : Follows env st₁ st₂) : Explained st st₂ := by
  obtain habort | hmore | hend := hex
  · obtain ⟨e, he⟩ := Option.isSome_iff_exists.mp habort
    exact .inl (by rw [h'.aborted e he]; rfl)
  · exact .inr (.inl (Nat.lt_of_lt_of_le hmore h'.errors.length_le))
  · exact .inr (.inr hend)

end Explained

end ParseState

namespace Parse

open ParseState

variable {α β : Type} {env : ParseLimits} {st st₁ : ParseState} {ds : List Delimiter} {least n : Nat}

/-- How a run ended that began in the state `st`. If it succeeded, it read so many tokens at least. -/
structure Ran (env : ParseLimits) (least : Nat) (ds : List Delimiter) (st : ParseState)
    (run : Option α × ParseState) : Prop where
  follows : Follows env st run.2
  delimiters : run.2.delimiters = ds
  consumes : run.1.isSome = true → run.2.rest.length + least ≤ st.rest.length
  explained : run.1 = none → Explained st run.2

/-- A parse that gives account of itself, and reads so many tokens at least if it succeeds. -/
def Accounted (env : ParseLimits) (least : Nat) (p : Parse α) : Prop :=
  ∀ st, st.rest.length ≤ env.tokenCount → Ran env least st.delimiters st (p env st)

/-- A parse that gives account of itself, and of the token that was stepped over before. -/
def AccountedBehind (env : ParseLimits) (t : Token) (p : Parse α) : Prop :=
  ∀ st, st.rest.head? = some t → st.rest.length ≤ env.tokenCount →
    Ran env 1 st.delimiters st (p env { st with rest := st.rest.tail })

namespace Ran

variable {run : Option α × ParseState} {p : Parse α} {f : α → Parse β}

lemma mono {m : Nat} (h : Ran env n ds st run) (hm : m ≤ n) : Ran env m ds st run :=
  { h with consumes := fun ha => by have := h.consumes ha; omega }

/-- What a run does behind some steps, it does with them. -/
lemma of_follows (h : Follows env st st₁) (hread : st₁.rest.length + n ≤ st.rest.length)
    (hrun : Ran env least ds st₁ run) : Ran env (n + least) ds st run where
  follows := h.trans hrun.follows
  delimiters := hrun.delimiters
  consumes ha := by have := hrun.consumes ha; omega
  explained hnone := .before h hrun.follows (hrun.explained hnone)

lemma of_neutral (h : Follows env st st₁) (hrun : Ran env least ds st₁ run) : Ran env least ds st run :=
  (of_follows (n := 0) h h.length_le hrun).mono (Nat.le_add_left least 0)

lemma of_failed (h : Follows env st st₁) (hex : Explained st st₁) (hds : st₁.delimiters = ds) :
    Ran env least ds st ((none : Option α), st₁) :=
  ⟨h, hds, fun ha => absurd ha (by simp), fun _ => hex⟩

lemma bind {m : Nat} {ds' : List Delimiter} (hp : Ran env n ds' st (p env st)) (hds : ds' = ds)
    (hf : ∀ a st₁, p env st = (some a, st₁) → st₁.rest.length ≤ st.rest.length →
      st₁.delimiters = ds' → Ran env m ds st₁ (f a env st₁)) :
    Ran env (n + m) ds st ((p >>= f) env st) := by
  subst hds
  rw [bind_apply]
  cases hrun : p env st with
  | mk o st₁ =>
    rw [hrun] at hp
    cases o with
    | none => exact of_failed hp.follows (hp.explained rfl) hp.delimiters
    | some a =>
      exact of_follows hp.follows (hp.consumes rfl) (hf a st₁ hrun hp.follows.length_le hp.delimiters)

lemma map {make : α → β} (hp : Ran env n ds st (p env st)) :
    Ran env n ds st ((p >>= fun a => Pure.pure (make a)) env st) :=
  show Ran env (n + 0) _ _ _ from
    hp.bind rfl fun _ st₁ _ _ hds => ⟨.refl st₁, hds, fun _ => Nat.le_refl _, fun h => nomatch h⟩

end Ran

namespace Accounted

variable {p q : Parse α} {f : α → Parse β}

lemma mono {m : Nat} (h : Accounted env n p) (hm : m ≤ n) : Accounted env m p :=
  fun st hst => (h st hst).mono hm

lemma pure (a : α) : Accounted env 0 (Pure.pure a : Parse α) :=
  fun st _ => ⟨.refl st, rfl, fun _ => Nat.le_refl _, fun h => nomatch h⟩

/-- A look at the state changes nothing. -/
lemma look (h : ∀ st, ∃ a, p env st = (some a, st)) : Accounted env 0 p := by
  intro st _
  obtain ⟨a, hrun⟩ := h st
  rw [hrun]
  exact pure a st ‹_›

lemma limits : Accounted env 0 limits := look fun _ => ⟨_, rfl⟩

lemma peek : Accounted env 0 peek := look fun _ => ⟨_, rfl⟩

lemma nextIs (k : TokenKind) : Accounted env 0 (nextIs k) := look fun _ => ⟨_, rfl⟩

lemma here : Accounted env 0 here := look fun st => by
  obtain ⟨rest, _, _, _, _, _⟩ := st
  cases rest <;> exact ⟨_, rfl⟩

lemma ite {c : Prop} [Decidable c] (hp : Accounted env n p) (hq : Accounted env n q) :
    Accounted env n (if c then p else q) := by
  by_cases h : c
  · rwa [if_pos h]
  · rwa [if_neg h]

lemma any (h : Accounted env n p) : Accounted env 0 p := h.mono (Nat.zero_le n)

/-- What the first of two parses reads counts. -/
lemma bind (hp : Accounted env n p) (hf : ∀ a, Accounted env 0 (f a)) : Accounted env n (p >>= f) := by
  intro st hst
  show Ran env (n + 0) _ _ _
  exact (hp st hst).bind rfl fun a st₁ _ hlen hds => hds ▸ hf a st₁ (Nat.le_trans hlen hst)

/-- What the second of two parses reads counts. -/
lemma neutral_bind (hp : Accounted env 0 p) (hf : ∀ a, Accounted env n (f a)) :
    Accounted env n (p >>= f) := by
  intro st hst
  refine ((hp st hst).bind rfl fun a st₁ _ hlen hds => ?_).mono (Nat.le_add_left n 0)
  exact hds ▸ hf a st₁ (Nat.le_trans hlen hst)

lemma discard (hp : Accounted env n p) : Accounted env n (Functor.discard p) :=
  hp.bind fun _ => pure ()

/-- A look at the next token, if there is one. -/
lemma peek_bind {f : Option Token → Parse β} (hnone : Accounted env n (f none))
    (hsome : ∀ t st, st.rest.head? = some t → st.rest.length ≤ env.tokenCount →
      Ran env n st.delimiters st (f (some t) env st)) : Accounted env n (Parse.peek >>= f) := by
  intro st hst
  show Ran env n st.delimiters st (f st.rest.head? env st)
  cases hhead : st.rest.head? with
  | none => exact hnone st hst
  | some t => exact hsome t st hhead hst

lemma behind (hp : Accounted env 0 p) (t : Token) : AccountedBehind env t p := by
  intro st hhead hst
  obtain ⟨ts, hts⟩ := List.head?_eq_some_iff.mp hhead
  have hlen : st.rest.tail.length + 1 = st.rest.length := by rw [hts]; rfl
  have hmoved : Follows env st { st with rest := st.rest.tail } :=
    .of_moved _ st.delimiters (List.tail_suffix _)
  show Ran env (1 + 0) _ _ _
  refine .of_follows hmoved (Nat.le_of_eq hlen) ?_
  exact hp { st with rest := st.rest.tail } (show st.rest.tail.length ≤ _ by omega)

lemma advance_ran {f : Unit → Parse β} {t : Token} (hf : AccountedBehind env t (f ()))
    (hhead : st.rest.head? = some t) (hst : st.rest.length ≤ env.tokenCount) :
    Ran env 1 st.delimiters st ((Parse.advance >>= f) env st) := hf st hhead hst

lemma advance : Accounted env 0 advance := fun _ _ =>
  ⟨.of_moved _ _ (List.tail_suffix _), rfl, fun _ => (List.tail_suffix _).length_le, fun h => nomatch h⟩

/-! ### Errors -/

/-- A report reads nothing and opens nothing, and behind it what went wrong is known. -/
lemma report_run (env : ParseLimits) (e : ParseError) (st : ParseState) : ∃ st₁, Parse.report e env st = (some (), st₁) ∧
    st₁.rest = st.rest ∧ st₁.delimiters = st.delimiters ∧ Follows env st st₁ ∧ Explained st st₁ := by
  unfold Parse.report
  dsimp only
  split
  · rename_i hskip
    simp only [Bool.or_eq_true, Bool.and_eq_true] at hskip
    exact ⟨st, rfl, rfl, rfl, .refl st, hskip.imp_right fun h => .inr h.2⟩
  · refine ⟨_, rfl, rfl, rfl, ⟨List.suffix_refl _, List.suffix_cons _ _, rfl, fun _ h => h, ?_⟩,
      .inr (.inl (Nat.lt_succ_self _))⟩
    intro hend
    obtain hend | hat := Bool.or_eq_true _ _ ▸ hend
    · exact .inl hend
    · simp only [Bool.and_eq_true, decide_eq_true_eq] at hat
      exact .inr ⟨Nat.lt_succ_self _, e, List.mem_cons_self, hat⟩

lemma report (e : ParseError) : Accounted env 0 (report e) := by
  intro st _
  obtain ⟨st₁, hrun, hrest, hds, hfollows, -⟩ := report_run env e st
  rw [hrun]
  exact ⟨hfollows, hds, fun _ => Nat.le_of_eq (congrArg List.length hrest), fun h => nomatch h⟩

/-- What goes on behind an error that may have to be reported. -/
lemma reported {c : Prop} [Decidable c] (e : ParseError) (hp : Accounted env n p) :
    Accounted env n (if c then Parse.report e >>= fun _ => p else p) :=
  ite ((report e).neutral_bind fun _ => hp) hp

/-- To report an error and to fail is no silent failure. -/
lemma report_fail (e : ParseError) : Accounted env n (Parse.report e >>= fun _ => fail : Parse α) := by
  intro st _
  obtain ⟨st₁, hrun, -, hds, hfollows, hex⟩ := report_run env e st
  rw [bind_apply, hrun]
  exact .of_failed hfollows hex hds

lemma unexpected (expected : String) : Accounted env n (unexpected expected : Parse α) := by
  intro st hst
  cases hhead : st.rest.head? with
  | none =>
    have hrun : Parse.unexpected expected env st = (Parse.report ⟨env.endPos, 1, .unexpectedEnd expected⟩
        >>= fun _ => (fail : Parse α)) env st := by
      simp [Parse.unexpected, reportUnexpected, bind_apply, Parse.peek, hhead, Parse.limits]
    exact hrun ▸ report_fail _ st hst
  | some t =>
    have hrun : Parse.unexpected expected env st = (Parse.report ⟨t.start, max 1 t.text.utf8ByteSize,
        if t.kind = .unknown then .invalidToken t.text else .unexpectedToken expected (foundText t)⟩
        >>= fun _ => (fail : Parse α)) env st := by
      simp [Parse.unexpected, reportUnexpected, bind_apply, Parse.peek, hhead]
    exact hrun ▸ report_fail _ st hst

lemma abort_ran (e : ParseError) : Ran env n st.delimiters st ((abort e : Parse α) env st) := by
  refine .of_failed ⟨List.suffix_refl _, List.suffix_refl _, rfl, fun e' he => ?_, .inl⟩ (.inl ?_) rfl
  · simp [he]
  · cases st.aborted <;> rfl

lemma tooDeep : Accounted env n (tooDeep : Parse α) :=
  neutral_bind limits fun _ => neutral_bind here fun _ _ _ => abort_ran _

lemma cook (t : Token) : Accounted env 0 (cook t) := by
  unfold Parse.cook
  split
  · exact pure _
  · exact (report _).bind fun _ => pure _

/-! ### Tokens -/

lemma expect (k : TokenKind) : Accounted env 1 (expect k) := by
  refine peek_bind (unexpected _) fun t st hhead hst => ?_
  dsimp only
  split
  · exact advance_ran ((pure t).behind _) hhead hst
  · exact unexpected _ st hst

lemma expectKeyword (word : String) : Accounted env 1 (expectKeyword word) := by
  refine peek_bind (unexpected _) fun t st hhead hst => ?_
  dsimp only
  split
  · exact advance_ran ((pure t).behind _) hhead hst
  · exact unexpected _ st hst

lemma expectName (what : String) : Accounted env 1 (expectName what) := by
  refine peek_bind (unexpected _) fun t st hhead hst => ?_
  dsimp only
  split
  · exact advance_ran ((pure _).behind _) hhead hst
  · exact unexpected _ st hst

/-! ### Nesting -/

/-- The level that is taken is given back. -/
lemma nested (hp : Accounted env n p) : Accounted env n (nested p) := by
  intro st hst
  unfold Parse.nested
  split
  · rename_i habort
    exact .of_failed (.refl st) (.inl habort) rfl
  split
  · exact tooDeep st hst
  obtain ⟨hfollows, hds, hread, hex⟩ := hp { st with depth := st.depth + 1 } hst
  refine ⟨⟨hfollows.rest, hfollows.errors, ?_, hfollows.aborted, hfollows.ended⟩, hds, hread, hex⟩
  show (p env { st with depth := st.depth + 1 }).2.depth - 1 = st.depth
  rw [hfollows.depth, Nat.add_sub_cancel]

end Accounted

end Parse

end GraphQL
