import Mathlib.Data.Option.Basic
import GraphQL.Proofs.Document.Relocate
import GraphQL.Proofs.Parser.Loop

/-!
Tokens that are read elsewhere.

A parse looks at the kinds and texts of tokens. Of places it asks one thing, whether an error stands at
the end of the document. So a parse of tokens that stand elsewhere does the same, and what it makes and
reports stands elsewhere too.
-/

namespace GraphQL

/-! ### Tokens and errors -/

section

variable (move : Pos → Pos)

namespace Token

def relocate (t : Token) : Token := ⟨t.kind, t.text, move t.start⟩

@[simp] lemma relocate_kind (t : Token) : (t.relocate move).kind = t.kind := rfl

@[simp] lemma relocate_text (t : Token) : (t.relocate move).text = t.text := rfl

@[simp] lemma relocate_start (t : Token) : (t.relocate move).start = move t.start := rfl

@[simp] lemma relocate_id (t : Token) : t.relocate id = t := rfl

end Token

namespace Delimiter

def relocate (d : Delimiter) : Delimiter := ⟨d.construct, move d.pos⟩

end Delimiter

namespace Note

def relocate (n : Note) : Note := ⟨n.kind, n.message, n.pos.map move⟩

end Note

namespace ParseErrorCause

/-- Of the causes only a delimiter that was left open has a place. -/
def relocate : ParseErrorCause → ParseErrorCause
  | unclosedDelimiter d => unclosedDelimiter (d.relocate move)
  | cause => cause

@[simp] lemma relocate_isUnfinished (c : ParseErrorCause) :
    (c.relocate move).isUnfinished = c.isUnfinished := by
  cases c <;> rfl

@[simp] lemma relocate_message (c : ParseErrorCause) : (c.relocate move).message = c.message := by
  cases c <;> rfl

@[simp] lemma relocate_summary (c : ParseErrorCause) : (c.relocate move).summary = c.summary := by
  cases c <;> rfl

/-- The notes on an error move with it. -/
lemma relocate_notes (c : ParseErrorCause) :
    (c.relocate move).notes = c.notes.map (Note.relocate move) := by
  cases c with
  | unclosedDelimiter d => rfl
  | invalidToken text =>
    simp only [relocate, notes]
    split_ifs <;> rfl
  | reservedName name context => cases context <;> rfl
  | _ => rfl

end ParseErrorCause

namespace ParseError

def relocate (e : ParseError) : ParseError := ⟨move e.pos, e.extent, e.cause.relocate move⟩

end ParseError

end

/-! ### Parses -/

/-- Two readings of the same tokens in different places. How far an error reaches may differ as
`extent` allows, and of the tokens something may be known. When the second began, the errors `before`
were reported already. -/
structure Relocation where
  env : ParseLimits
  env' : ParseLimits
  move : Pos → Pos
  extent : Nat → Nat → Prop
  known : Token → Prop
  before : List ParseError := []
  maxDepth : env'.maxDepth = env.maxDepth
  endPos : ∀ p, move p = env'.endPos ↔ p = env.endPos
  extent_refl : ∀ n, extent n n
  spans : ∀ t u, known t → known u → extent (max 1 (u.stop.offset - t.start.offset))
    (max 1 ((u.relocate move).stop.offset - (move t.start).offset))

namespace Relocation

variable (r : Relocation)

def Token (t t' : GraphQL.Token) : Prop := r.known t ∧ t' = t.relocate r.move

/-- The same error in another place. -/
structure Error (e e' : ParseError) : Prop where
  pos : e'.pos = r.move e.pos
  cause : e'.cause = e.cause.relocate r.move
  extent : r.extent e.extent e'.extent

/-- An error that is as long in both places. -/
lemma Error.refl {r : Relocation} {p : Pos} {n : Nat} {c : ParseErrorCause} :
    r.Error ⟨p, n, c⟩ ⟨r.move p, n, c.relocate r.move⟩ := ⟨rfl, rfl, r.extent_refl n⟩

/-- The same errors in another place, reported on top of those that were there. -/
inductive Errors : List ParseError → List ParseError → Prop where
  | nil : Errors [] r.before
  | cons {e e' : ParseError} {es es' : List ParseError} (head : r.Error e e') (tail : Errors es es') :
      Errors (e :: es) (e' :: es')

/-- The same tokens in another place. -/
structure Tokens (ts ts' : List GraphQL.Token) : Prop where
  moved : ts' = ts.map (Token.relocate r.move)
  known : ∀ t ∈ ts, r.known t

/-- The same state of both parses. -/
structure State (st st' : ParseState) : Prop where
  rest : r.Tokens st.rest st'.rest
  enough : st.rest.length ≤ r.env.tokenCount
  enough' : st.rest.length ≤ r.env'.tokenCount
  errors : r.Errors st.errors st'.errors
  delimiters : st'.delimiters = st.delimiters.map (Delimiter.relocate r.move)
  depth : st'.depth = st.depth
  endReported : st'.endReported = st.endReported
  aborted : Option.Rel r.Error st.aborted st'.aborted

/-- The same value, but for its places. -/
def By {α : Type} (relocate : (Pos → Pos) → α → α) (a a' : α) : Prop := a' = relocate r.move a

variable {r}

lemma errors_iff (h : r.before = []) {es es' : List ParseError} :
    r.Errors es es' ↔ List.Forall₂ r.Error es es' := by
  constructor
  · intro herrors
    induction herrors with
    | nil => rw [h]; exact .nil
    | cons head _ ih => exact .cons head ih
  · intro herrors
    induction herrors with
    | nil => simpa only [h] using Errors.nil (r := r)
    | cons head _ ih => exact .cons head ih

lemma Tokens.length_eq {ts ts' : List GraphQL.Token} (h : r.Tokens ts ts') : ts'.length = ts.length := by
  rw [h.moved, List.length_map]

lemma Tokens.head? {ts ts' : List GraphQL.Token} (h : r.Tokens ts ts') :
    Option.Rel r.Token ts.head? ts'.head? := by
  obtain ⟨rfl, hknown⟩ := h
  cases ts with
  | nil => exact .none
  | cons t ts => exact .some ⟨hknown t List.mem_cons_self, rfl⟩

/-- What looks at kinds and texts only keeps the same tokens in both places. -/
lemma Tokens.kept {ts ts' : List GraphQL.Token} (h : r.Tokens ts ts') {f f' : List GraphQL.Token → List GraphQL.Token}
    (hf : f ts <:+ ts) (hsame : f' (ts.map (Token.relocate r.move)) = (f ts).map (Token.relocate r.move)) :
    r.Tokens (f ts) (f' ts') :=
  ⟨by rw [h.moved, hsame], fun t ht => h.known t (hf.subset ht)⟩

lemma Tokens.tail {ts ts' : List GraphQL.Token} (h : r.Tokens ts ts') : r.Tokens ts.tail ts'.tail :=
  h.kept (List.tail_suffix ts) (List.map_tail).symm

namespace State

variable {st st' : ParseState}

lemma isAborted (h : r.State st st') : st'.aborted.isSome = st.aborted.isSome := by
  have hrel := h.aborted
  generalize st.aborted = a at hrel
  generalize st'.aborted = a' at hrel
  cases hrel <;> rfl

/-- Reading on in both states. -/
lemma moved (h : r.State st st') {ts ts' : List GraphQL.Token} {ds ds' : List Delimiter}
    (hts : r.Tokens ts ts') (hle : ts.length ≤ st.rest.length)
    (hds : ds' = ds.map (Delimiter.relocate r.move)) :
    r.State { st with rest := ts, delimiters := ds } { st' with rest := ts', delimiters := ds' } :=
  { h with
    rest := hts
    enough := Nat.le_trans hle h.enough
    enough' := Nat.le_trans hle h.enough'
    delimiters := hds }

end State

end Relocation

namespace Parse

open ParseState

variable {r : Relocation} {levels : Nat} {α β α' β' : Type}

/-- Two runs that ended in the same way, as deep as they began. What they made is related. -/
structure SameRun (r : Relocation) (R : α → α' → Prop) (depth : Nat) (run : Option α × ParseState)
    (run' : Option α' × ParseState) : Prop where
  made : Option.Rel R run.1 run'.1
  state : r.State run.2 run'.2
  depth : run.2.depth = depth

/-- Where so many levels are left, two parses do the same, and what they make is related. -/
def Simulates (r : Relocation) (levels : Nat) (R : α → α' → Prop) (p : Parse α) (p' : Parse α') : Prop :=
  ∀ st st', r.State st st' → st.depth + levels = r.env.maxDepth →
    SameRun r R st.depth (p r.env st) (p' r.env' st')

section

variable {R : α → α' → Prop} {S : β → β' → Prop} {p q : Parse α} {p' q' : Parse α'}
  {f : α → Parse β} {f' : α' → Parse β'}

lemma SameRun.bind {st st' : ParseState} {depth : Nat}
    (hp : SameRun r R depth (p r.env st) (p' r.env' st')) (hdepth : depth + levels = r.env.maxDepth)
    (hf : ∀ a a', R a a' → Simulates r levels S (f a) (f' a')) :
    SameRun r S depth ((p >>= f) r.env st) ((p' >>= f') r.env' st') := by
  obtain ⟨ha, hst, hd⟩ := hp
  rw [bind_apply, bind_apply]
  generalize p r.env st = run at ha hst hd
  generalize p' r.env' st' = run' at ha hst
  obtain ⟨o, st₁⟩ := run
  obtain ⟨o', st₁'⟩ := run'
  cases ha with
  | none => exact ⟨.none, hst, hd⟩
  | some ha =>
    obtain ⟨hb, hst₂, hd'⟩ := hf _ _ ha st₁ st₁' hst (by rw [hd]; exact hdepth)
    exact ⟨hb, hst₂, hd'.trans hd⟩

namespace Simulates

lemma pure {a : α} {a' : α'} (h : R a a') :
    Simulates r levels R (Pure.pure a : Parse α) (Pure.pure a' : Parse α') :=
  fun _ _ hst _ => ⟨.some h, hst, rfl⟩

lemma fail : Simulates r levels R (Parse.fail : Parse α) (Parse.fail : Parse α') :=
  fun _ _ hst _ => ⟨.none, hst, rfl⟩

lemma bind (hp : Simulates r levels R p p') (hf : ∀ a a', R a a' → Simulates r levels S (f a) (f' a')) :
    Simulates r levels S (p >>= f) (p' >>= f') :=
  fun st st' hst hdepth => (hp st st' hst hdepth).bind hdepth hf

lemma mono {R' : α → α' → Prop} (hp : Simulates r levels R p p') (h : ∀ a a', R a a' → R' a a') :
    Simulates r levels R' p p' := by
  intro st st' hst hdepth
  obtain ⟨ha, hst₁, hd⟩ := hp st st' hst hdepth
  refine ⟨?_, hst₁, hd⟩
  generalize (p r.env st).1 = o at ha
  generalize (p' r.env' st').1 = o' at ha
  cases ha with
  | none => exact .none
  | some ha => exact .some (h _ _ ha)

lemma ite {c c' : Prop} [Decidable c] [Decidable c'] (hc : c ↔ c') (hp : Simulates r levels R p p')
    (hq : Simulates r levels R q q') :
    Simulates r levels R (if c then p else q) (if c' then p' else q') := by
  by_cases h : c
  · rwa [if_pos h, if_pos (hc.mp h)]
  · rwa [if_neg h, if_neg fun h' => h (hc.mpr h')]

lemma attempt (hp : Simulates r levels R p p') :
    Simulates r levels (Option.Rel R) (Parse.attempt p) (Parse.attempt p') := by
  intro st st' hst hdepth
  obtain ⟨ha, hst₁, hd⟩ := hp st st' hst hdepth
  exact ⟨.some ha, hst₁, hd⟩

/-- A look at the state. -/
lemma look {o : ParseState → α} {o' : ParseState → α'} (h : ∀ st st', r.State st st' → R (o st) (o' st')) :
    Simulates r levels R (fun _ st => (some (o st), st)) (fun _ st => (some (o' st), st)) :=
  fun st st' hst _ => ⟨.some (h st st' hst), hst, rfl⟩

lemma peek : Simulates r levels (Option.Rel r.Token) peek peek := look fun _ _ h => h.rest.head?

lemma remaining : Simulates r levels r.Tokens remaining remaining := look fun _ _ h => h.rest

lemma isAborted : Simulates r levels Eq isAborted isAborted := look fun _ _ h => h.isAborted.symm

lemma limits_bind {f : ParseLimits → Parse α} {f' : ParseLimits → Parse α'}
    (hf : Simulates r levels R (f r.env) (f' r.env')) :
    Simulates r levels R (limits >>= f) (limits >>= f') := hf

lemma peek_bind {f : Option Token → Parse β} {f' : Option Token → Parse β'}
    (hnone : Simulates r levels S (f none) (f' none))
    (hsome : ∀ t, r.known t → Simulates r levels S (f (some t)) (f' (some (t.relocate r.move)))) :
    Simulates r levels S (Parse.peek >>= f) (Parse.peek >>= f') := by
  refine peek.bind fun o o' ho => ?_
  cases ho with
  | none => exact hnone
  | some ht =>
    obtain ⟨hknown, rfl⟩ := ht
    exact hsome _ hknown

lemma nextIs (k : TokenKind) : Simulates r levels Eq (nextIs k) (nextIs k) :=
  peek_bind (pure rfl) fun _ _ => pure rfl

lemma nextIs_bind {k : TokenKind} {f : Bool → Parse β} {f' : Bool → Parse β'}
    (htrue : Simulates r levels S (f true) (f' true)) (hfalse : Simulates r levels S (f false) (f' false)) :
    Simulates r levels S (Parse.nextIs k >>= f) (Parse.nextIs k >>= f') := by
  refine (nextIs k).bind fun b b' hb => ?_
  subst hb
  cases b with
  | true => exact htrue
  | false => exact hfalse

lemma here : Simulates r levels (fun p p' => p' = r.move p) here here :=
  peek_bind (pure ((r.endPos _).mpr rfl).symm) fun _ _ => pure rfl

lemma advance : Simulates r levels (fun _ _ => True) advance advance := fun _ _ hst _ =>
  ⟨.some trivial, hst.moved hst.rest.tail (List.tail_suffix _).length_le hst.delimiters, rfl⟩

/-- Skips do the same in both places if they look at kinds and texts only. -/
lemma skip {g g' : List Token → List Token} (hsuffix : ∀ ts, g ts <:+ ts)
    (hsame : ∀ ts, g' (ts.map (Token.relocate r.move)) = (g ts).map (Token.relocate r.move)) :
    Simulates r levels (fun _ _ => True) (Parse.remaining >>= fun rest => continueAt (g rest))
      (Parse.remaining >>= fun rest => continueAt (g' rest)) := fun st _ hst _ =>
  ⟨.some trivial, hst.moved (hst.rest.kept (hsuffix st.rest) (hsame st.rest)) (hsuffix st.rest).length_le
    hst.delimiters, rfl⟩

lemma openDelimiter {d d' : Delimiter} (hd : d' = d.relocate r.move) :
    Simulates r levels (fun _ _ => True) (openDelimiter d) (openDelimiter d') := fun _ _ hst _ =>
  ⟨.some trivial, hst.moved hst.rest (Nat.le_refl _) (by rw [hd, hst.delimiters, List.map_cons]), rfl⟩

lemma closeDelimiter : Simulates r levels (fun _ _ => True) closeDelimiter closeDelimiter :=
  fun _ _ hst _ => ⟨.some trivial, hst.moved hst.rest (Nat.le_refl _)
    (by rw [hst.delimiters, List.map_tail]), rfl⟩

lemma closesOuter (k : TokenKind) : Simulates r levels Eq (closesOuter k) (closesOuter k) :=
  look fun _ _ h => by
    rw [h.delimiters, ← List.map_tail, List.any_map]
    rfl

/-! ### Errors -/

lemma report {e e' : ParseError} (he : r.Error e e') :
    Simulates r levels (fun _ _ => True) (report e) (report e') := by
  intro st st' hst _
  have hend : (e'.cause.isUnfinished && decide (e'.pos = r.env'.endPos)) =
      (e.cause.isUnfinished && decide (e.pos = r.env.endPos)) := by
    rw [he.cause, he.pos, ParseErrorCause.relocate_isUnfinished, decide_eq_decide.mpr (r.endPos e.pos)]
  unfold Parse.report
  dsimp only
  rw [hend, hst.isAborted, hst.endReported]
  split
  · exact ⟨.some trivial, hst, rfl⟩
  · exact ⟨.some trivial, { hst with errors := .cons he hst.errors, endReported := rfl }, rfl⟩

/-- What goes on behind an error that may have to be reported. -/
lemma reported {c c' : Prop} [Decidable c] [Decidable c'] {e e' : ParseError} (hc : c ↔ c')
    (he : r.Error e e') (hp : Simulates r levels R p p') :
    Simulates r levels R (if c then Parse.report e >>= fun _ => p else p)
      (if c' then Parse.report e' >>= fun _ => p' else p') :=
  ite hc ((report he).bind fun _ _ _ => hp) hp

lemma unexpected (expected : String) :
    Simulates r levels R (unexpected expected : Parse α) (unexpected expected : Parse α') := by
  have hreport : Simulates r levels (fun _ _ => True) (reportUnexpected expected)
      (reportUnexpected expected) := by
    refine peek_bind (limits_bind (report ?_)) fun t _ => report ⟨rfl, ?_, r.extent_refl _⟩
    · exact ⟨((r.endPos _).mpr rfl).symm, rfl, r.extent_refl _⟩
    · show (if t.kind = .unknown then _ else _) = ParseErrorCause.relocate r.move (if t.kind = .unknown then _ else _)
      split <;> rfl
  exact hreport.bind fun _ _ _ => fail

lemma abort {e e' : ParseError} (he : r.Error e e') :
    Simulates r levels R (abort e : Parse α) (abort e' : Parse α') := by
  intro st st' hst _
  have hrel := hst.aborted
  refine ⟨.none, { hst with aborted := ?_ }, rfl⟩
  show Option.Rel r.Error (st.aborted.or (some e)) (st'.aborted.or (some e'))
  generalize st.aborted = a at hrel
  generalize st'.aborted = a' at hrel
  cases hrel with
  | none => exact .some he
  | some h => exact .some h

lemma tooDeep : Simulates r levels R (tooDeep : Parse α) (tooDeep : Parse α') := by
  refine limits_bind (here.bind fun p p' hp => abort ⟨hp, ?_, r.extent_refl _⟩)
  rw [r.maxDepth]
  rfl

lemma cook (t : Token) : Simulates r levels Eq (cook t) (cook (t.relocate r.move)) := by
  unfold Parse.cook
  rw [Token.relocate_text]
  cases StringLiteral.cook t.text with
  | ok text => exact pure rfl
  | error e => exact (report .refl).bind fun _ _ _ => pure rfl

/-! ### Tokens -/

lemma expect (k : TokenKind) : Simulates r levels r.Token (expect k) (expect k) :=
  peek_bind (unexpected _) fun _ ht =>
    ite Iff.rfl (advance.bind fun _ _ _ => pure ⟨ht, rfl⟩) (unexpected _)

lemma expectKeyword (word : String) : Simulates r levels r.Token (expectKeyword word) (expectKeyword word) :=
  peek_bind (unexpected _) fun _ ht =>
    ite Iff.rfl (advance.bind fun _ _ _ => pure ⟨ht, rfl⟩) (unexpected _)

lemma expectName (what : String) :
    Simulates r levels (r.By Name.relocate) (expectName what) (expectName what) :=
  peek_bind (unexpected _) fun _ _ => ite Iff.rfl (advance.bind fun _ _ _ => pure rfl) (unexpected _)

lemma discard (hp : Simulates r levels R p p') :
    Simulates r levels (fun _ _ => True) (Functor.discard p) (Functor.discard p') :=
  hp.bind fun _ _ _ => pure trivial

/-! ### Levels -/

lemma nested (hp : Simulates r levels R p p') :
    Simulates r (levels + 1) R (nested p) (nested p') := by
  intro st st' hst hdepth
  unfold Parse.nested
  rw [hst.isAborted, hst.depth, r.maxDepth]
  split
  · exact ⟨.none, hst, rfl⟩
  rw [if_neg (by omega), if_neg (by omega)]
  obtain ⟨ha, hst₁, hd⟩ := hp { st with depth := st.depth + 1 } { st' with depth := st.depth + 1 }
    { hst with depth := rfl } (show st.depth + 1 + levels = _ by omega)
  refine ⟨ha, { hst₁ with depth := ?_ }, ?_⟩
  · exact congrArg (· - 1) hst₁.depth
  · show _ - 1 = st.depth
    rw [hd, Nat.add_sub_cancel]

/-- Where no level is left, a level deeper is too deep. -/
lemma nested_eq_tooDeep {env : ParseLimits} {st : ParseState} (h : env.maxDepth ≤ st.depth) :
    Parse.nested p env st = Parse.tooDeep env st := by
  obtain ⟨rest, errors, delimiters, depth, endReported, _ | e⟩ := st
  · exact (if_neg Bool.false_ne_true).trans (if_pos h)
  · cases rest <;> exact if_pos rfl

/-- What two parses do where no level is left, others do that are the same there. -/
lemma congr_deep (hp : Simulates r 0 R p p')
    (hq : ∀ st, r.env.maxDepth ≤ st.depth → q r.env st = p r.env st)
    (hq' : ∀ st, r.env.maxDepth ≤ st.depth → q' r.env' st = p' r.env' st) : Simulates r 0 R q q' := by
  intro st st' hst hdepth
  rw [hq st (by omega), hq' st' (by rw [hst.depth]; omega)]
  exact hp st st' hst hdepth

/-- **Recursion down the levels.** Two runs do the same if both are long enough for the levels that are
left, however long they are. -/
lemma of_levels {run : Nat → Parse α} {run' : Nat → Parse α'} (hzero : run 0 = Parse.tooDeep)
    (hzero' : run' 0 = Parse.tooDeep)
    (hsucc : ∀ fuel fuel', ∃ body body', run (fuel + 1) = Parse.nested body ∧
      run' (fuel' + 1) = Parse.nested body' ∧ ∀ levels, Simulates r levels R (run fuel) (run' fuel') →
        Simulates r levels R body body') {fuel fuel' : Nat} (h : levels ≤ fuel) (h' : levels ≤ fuel') :
    Simulates r levels R (run fuel) (run' fuel') := by
  have hdeep : ∀ fuel st, r.env.maxDepth ≤ st.depth → run fuel r.env st = Parse.tooDeep r.env st := by
    rintro (_ | fuel) st hst
    · rw [hzero]
    · obtain ⟨body, -, heq, -⟩ := hsucc fuel fuel
      rw [heq, nested_eq_tooDeep hst]
  have hdeep' : ∀ fuel st, r.env.maxDepth ≤ st.depth → run' fuel r.env' st = Parse.tooDeep r.env' st := by
    rintro (_ | fuel) st hst
    · rw [hzero']
    · obtain ⟨-, body', -, heq, -⟩ := hsucc fuel fuel
      rw [heq, nested_eq_tooDeep (by rwa [r.maxDepth])]
  induction levels generalizing fuel fuel' with
  | zero => exact tooDeep.congr_deep (hdeep fuel) (hdeep' fuel')
  | succ levels ih =>
    obtain ⟨fuel, rfl⟩ := Nat.exists_eq_add_one_of_ne_zero (Nat.ne_zero_of_lt h)
    obtain ⟨fuel', rfl⟩ := Nat.exists_eq_add_one_of_ne_zero (Nat.ne_zero_of_lt h')
    obtain ⟨body, body', heq, heq', hbody⟩ := hsucc fuel fuel'
    rw [heq, heq']
    exact nested (hbody levels (ih (by omega) (by omega)))

/-- The longest run is long enough. -/
lemma of_allLevels {run : Nat → Parse α} {run' : Nat → Parse α'}
    (h : ∀ {levels fuel fuel'}, levels ≤ fuel → levels ≤ fuel' → Simulates r levels R (run fuel) (run' fuel')) :
    Simulates r levels R (limits >>= fun l => run l.maxDepth) (limits >>= fun l => run' l.maxDepth) := by
  refine limits_bind fun st st' hst hdepth => ?_
  exact h (by omega) (by rw [r.maxDepth]; omega) st st' hst hdepth

end Simulates

end

end Parse

end GraphQL
