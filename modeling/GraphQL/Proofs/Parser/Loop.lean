import GraphQL.Proofs.Parser.Account
import GraphQL.Proofs.Parser.Skip

/-!
Loops that come to their end.

A loop over tokens is given a number of steps. It never uses them up: each turn leaves the loop, or
reads a token before the next turn. So the bound says nothing about what is read.
-/

namespace GraphQL

namespace Parse

open ParseState

section

variable {σ β : Type} {env : ParseLimits} {Inv : ParseState → Prop}
  {Out : ParseState → Option β × ParseState → Prop} {turn : σ → Parse (σ ⊕ β)}
  {loop : Nat → σ → Parse β}

/-- What a loop does behind a turn: the next turn, or nothing. -/
def goOn (loop : σ → Parse β) : σ ⊕ β → Parse β
  | .inl s => loop s
  | .inr b => pure b

/-- A loop takes one turn for each of its steps. -/
def Repeats (turn : σ → Parse (σ ⊕ β)) (loop : Nat → σ → Parse β) : Prop :=
  ∀ steps s, loop (steps + 1) s = turn s >>= goOn (loop steps)

/-- How a turn ended that began in the state `st`. If another one is to follow, there are fewer tokens
left for it. -/
def TurnEnded (env : ParseLimits) (Inv : ParseState → Prop) (Out : Option β × ParseState → Prop)
    (st : ParseState) : Option (σ ⊕ β) × ParseState → Prop
  | (some (.inl _), st') => Inv st' ∧ Follows env st st' ∧ st'.rest.length < st.rest.length
  | (some (.inr b), st') => Out (some b, st')
  | (none, st') => Out (none, st')

/-- **Each turn reads a token, or it is the last one.** -/
def Turns (env : ParseLimits) (Inv : ParseState → Prop)
    (Out : ParseState → Option β × ParseState → Prop) (turn : σ → Parse (σ ⊕ β)) : Prop :=
  ∀ s st, Inv st → TurnEnded env Inv (Out st) st (turn s env st)

lemma Repeats.apply (h : Repeats turn loop) (steps : Nat) (s : σ) (st : ParseState) :
    loop (steps + 1) s env st = match turn s env st with
      | (some (.inl s'), st') => loop steps s' env st'
      | (some (.inr b), st') => (some b, st')
      | (none, st') => (none, st') := by
  rw [h, bind_apply]
  generalize turn s env st = run
  obtain ⟨_ | _ | b, st'⟩ := run <;> rfl

/-- **With a step for each token a loop comes to its end.** -/
lemma Turns.out (h : Turns env Inv Out turn) (hloop : Repeats turn loop)
    (hout : ∀ st st' out, Follows env st st' → Out st' out → Out st out) {steps : Nat} {s : σ}
    {st : ParseState} (hinv : Inv st) (hsteps : st.rest.length < steps) :
    Out st (loop steps s env st) := by
  induction steps generalizing s st with
  | zero => exact absurd hsteps (Nat.not_lt_zero _)
  | succ steps ih =>
    have hturn := h s st hinv
    rw [hloop.apply]
    generalize turn s env st = run at hturn
    obtain ⟨_ | s' | b, st'⟩ := run
    · exact hturn
    · obtain ⟨hinv', hfollows, hless⟩ := hturn
      exact hout st st' _ hfollows (ih hinv' (by omega))
    · exact hturn

end

/-! ### Members -/

section Laws

variable {α β γ : Type}

lemma bind_assoc (p : Parse α) (f : α → Parse β) (g : β → Parse γ) :
    p >>= f >>= g = p >>= fun a => f a >>= g := by
  funext env st
  simp only [bind_apply]
  generalize p env st = run
  obtain ⟨_ | a, st'⟩ := run <;> rfl

lemma leaveUnclosed_bind (d : Delimiter) (p : Pos) (f : α → Parse β) :
    leaveUnclosed d p >>= f = leaveUnclosed d p := by
  simp only [leaveUnclosed, bind_assoc]
  rfl

end Laws

section

variable {α : Type} {env : ParseLimits} {d : Delimiter} {ds : List Delimiter} {member : Parse α}
  {st : ParseState} {c : Construct} {n : Nat}

/-- One turn of a group, behind the members that were read and with whether one of them failed. -/
def membersTurn (d : Delimiter) (member : Parse α) (s : List α × Bool) :
    Parse ((List α × Bool) ⊕ (List α × Bool × Token)) := do
  if ← isAborted then do
    closeDelimiter
    fail
  else
    match ← peek with
    | none => leaveUnclosed d (← limits).endPos
    | some t =>
      if t.kind = d.construct.closing then do
        advance
        closeDelimiter
        return .inr (s.1.reverse, s.2, t)
      else if t.kind.isClosing then do
        if ← closesOuter t.kind then leaveUnclosed d t.start
        else
          report ⟨t.start, 1, .mismatchedDelimiter d.construct.closing.description t.text⟩
          advance
          return .inl s
      else
        let before ← remaining
        match ← attempt member with
        | some a => return .inl (a :: s.1, s.2)
        | none =>
          if ← isAborted then do
            closeDelimiter
            fail
          else
            recoverMember d.construct before
            return .inl (s.1, true)

lemma members_repeats (d : Delimiter) (member : Parse α) :
    Repeats (membersTurn d member) fun steps s => members d member steps s.1 s.2 := by
  intro steps s
  show members d member (steps + 1) s.1 s.2 = _
  rw [members, membersTurn, bind_assoc]
  congr
  funext aborted
  cases aborted with
  | true => rfl
  | false =>
  simp only [Bool.false_eq_true, if_false, bind_assoc]
  congr
  funext t
  cases t with
  | none =>
    simp only [bind_assoc, leaveUnclosed_bind]
  | some t =>
  dsimp only
  by_cases hclose : t.kind = d.construct.closing
  · rw [if_pos hclose, if_pos hclose]
    rfl
  rw [if_neg hclose, if_neg hclose]
  cases t.kind.isClosing with
  | true =>
    simp only [if_true, bind_assoc]
    congr
    funext outer
    cases outer with
    | true => exact (leaveUnclosed_bind _ _ _).symm
    | false =>
      simp only [Bool.false_eq_true, if_false, bind_assoc]
      rfl
  | false =>
    simp only [Bool.false_eq_true, if_false, bind_assoc]
    congr
    funext before
    congr
    funext o
    cases o with
    | some a => rfl
    | none =>
      simp only [bind_assoc]
      congr
      funext aborted
      cases aborted <;> rfl

/-- Inside a group, its delimiter is the innermost one. -/
def Inside (env : ParseLimits) (d : Delimiter) (ds : List Delimiter) (st : ParseState) : Prop :=
  st.rest.length ≤ env.tokenCount ∧ st.delimiters = d :: ds

/-- A group that is left open is complained of. -/
lemma leaveUnclosed_run (hst : Inside env d ds st) (p : Pos) : ∃ st₁,
    (∀ {β : Type}, (leaveUnclosed d p : Parse β) env st = (none, st₁)) ∧ Follows env st st₁ ∧
      Explained st st₁ ∧ st₁.delimiters = ds := by
  have hmoved : Follows env st { st with delimiters := st.delimiters.tail } :=
    .of_moved st.rest _ (List.suffix_refl _)
  obtain ⟨st₁, hrun, -, hds, hfollows, hex⟩ := Accounted.report_run env
    ⟨p, 1, .unclosedDelimiter d⟩ { st with delimiters := st.delimiters.tail }
  refine ⟨st₁, ?_, hmoved.trans hfollows, hex.before hmoved hfollows, hds.trans (by rw [hst.2]; rfl)⟩
  intro β
  show (report ⟨p, 1, .unclosedDelimiter d⟩ >>= fun _ => fail : Parse β) env _ = _
  rw [bind_apply, hrun]
  rfl

lemma closeDelimiter_fail_ran (hst : Inside env d ds st) (habort : st.aborted.isSome = true) :
    Ran env n ds st ((closeDelimiter >>= fun _ => fail : Parse α) env st) := by
  have hds : st.delimiters.tail = ds := by rw [hst.2]; rfl
  exact hds ▸ .of_failed (.of_moved st.rest st.delimiters.tail (List.suffix_refl _)) (.inl habort) rfl

/-- How a turn of a group ended, within the delimiters `ds`. -/
def MembersTurnEnded (env : ParseLimits) (d : Delimiter) (ds : List Delimiter) (st : ParseState) :
    Option ((List α × Bool) ⊕ (List α × Bool × Token)) × ParseState → Prop :=
  TurnEnded env (Inside env d ds) (fun run => Ran env 1 ds st run) st

/-- A delimiter that closes an outer group ends this one. Any other that does not belong here is read. -/
lemma membersTurn_closing {s : List α × Bool} {t : Token} {ts : List Token} (hst : Inside env d ds st)
    (habort : st.aborted.isSome = false) (hrest : st.rest = t :: ts) (hclose : t.kind ≠ d.construct.closing)
    (hclosing : t.kind.isClosing = true) : MembersTurnEnded env d ds st (membersTurn d member s env st) := by
  cases houter : st.delimiters.tail.any (·.construct.closing = t.kind) with
  | true =>
    have hrun : membersTurn d member s env st = leaveUnclosed d t.start env st := by
      simp [membersTurn, bind_apply, isAborted, habort, peek, hrest, hclose, hclosing, closesOuter, houter]
    obtain ⟨st₁, hleave, hfollows, hex, hds⟩ := leaveUnclosed_run hst t.start
    rw [hrun, hleave]
    exact .of_failed hfollows hex hds
  | false =>
    obtain ⟨st₁, hreport, hsame, hds, hfollows, -⟩ := Accounted.report_run env
      ⟨t.start, 1, .mismatchedDelimiter d.construct.closing.description t.text⟩ st
    have hrun : membersTurn d member s env st = (some (.inl s), { st₁ with rest := ts }) := by
      simp [membersTurn, bind_apply, isAborted, habort, peek, hrest, hclose, hclosing, closesOuter, houter,
        hreport, advance, hsame, pure_apply]
    have hts : ts <:+ st₁.rest := by
      rw [hsame, hrest]
      exact List.suffix_cons t ts
    rw [hrun]
    refine ⟨⟨Nat.le_trans (hsame ▸ hts.length_le) hst.1, hds.trans hst.2⟩,
      hfollows.trans (.of_moved ts st₁.delimiters hts), ?_⟩
    rw [hrest]
    exact Nat.lt_succ_self _

/-- A member is read, or it is skipped where it fails. It is behind when the next one is tried. -/
lemma membersTurn_member {s : List α × Bool} {t : Token} {ts : List Token} (hm : Accounted env 1 member)
    (hst : Inside env d ds st) (habort : st.aborted.isSome = false) (hrest : st.rest = t :: ts)
    (hclose : t.kind ≠ d.construct.closing) (hclosing : t.kind.isClosing = false) :
    MembersTurnEnded env d ds st (membersTurn d member s env st) := by
  obtain ⟨hfollows, hds, hread, hex⟩ := hm st hst.1
  generalize hmember : member env st = run at hfollows hds hread hex
  obtain ⟨o, st₁⟩ := run
  have hinside : Inside env d ds st₁ := ⟨Nat.le_trans hfollows.length_le hst.1, hds.trans hst.2⟩
  cases o with
  | some a =>
    have hrun : membersTurn d member s env st = (some (.inl (a :: s.1, s.2)), st₁) := by
      simp [membersTurn, bind_apply, isAborted, habort, peek, hrest, hclose, hclosing, remaining, attempt,
        hmember, pure_apply]
    rw [hrun]
    exact ⟨hinside, hfollows, hread rfl⟩
  | none =>
    cases habort₁ : st₁.aborted.isSome with
    | true =>
      have hrun : membersTurn d member s env st = (closeDelimiter >>= fun _ => fail) env st₁ := by
        simp [membersTurn, bind_apply, isAborted, habort, peek, hrest, hclose, hclosing, remaining,
          attempt, hmember, habort₁]
      rw [hrun]
      exact .of_neutral hfollows (closeDelimiter_fail_ran (α := List α × Bool × Token) hinside habort₁)
    | false =>
      have hskip := skipMember_suffix d.construct (st₁.rest.length < (t :: ts).length) 0 st₁.rest
      have hless := recovered_length (c := d.construct) hclosing (hrest ▸ hfollows.rest)
      dsimp only at hless
      have hrun : membersTurn d member s env st = (some (.inl (s.1, true)), { st₁ with
          rest := skipMember d.construct (st₁.rest.length < (t :: ts).length) 0 st₁.rest }) := by
        simp [membersTurn, bind_apply, isAborted, habort, peek, hrest, hclose, hclosing, remaining,
          attempt, hmember, habort₁, recoverMember, continueAt, pure_apply]
      rw [hrun]
      exact ⟨⟨Nat.le_trans hskip.length_le hinside.1, hinside.2⟩,
        hfollows.trans (.of_moved _ st₁.delimiters hskip), hrest ▸ hless⟩

/-- **A turn of a group** reads a token, or is the last one, if its members read one where they
succeed. -/
lemma members_turns (hm : Accounted env 1 member) (d : Delimiter) (ds : List Delimiter) :
    Turns env (Inside env d ds) (fun st run => Ran env 1 ds st run) (membersTurn d member) := by
  intro s st hst
  have htail : st.delimiters.tail = ds := by rw [hst.2]; rfl
  cases habort : st.aborted.isSome with
  | true =>
    have hrun : membersTurn d member s env st = (closeDelimiter >>= fun _ => fail) env st := by
      simp [membersTurn, bind_apply, isAborted, habort]
    rw [hrun]
    exact closeDelimiter_fail_ran (α := List α × Bool × Token) hst habort
  | false =>
  cases hrest : st.rest with
  | nil =>
    have hrun : membersTurn d member s env st = leaveUnclosed d env.endPos env st := by
      simp [membersTurn, bind_apply, isAborted, habort, peek, hrest, limits]
    obtain ⟨st₁, hleave, hfollows, hex, hds⟩ := leaveUnclosed_run hst env.endPos
    rw [hrun, hleave]
    exact .of_failed hfollows hex hds
  | cons t ts =>
  by_cases hclose : t.kind = d.construct.closing
  · have hrun : membersTurn d member s env st =
        (some (.inr (s.1.reverse, s.2, t)), { st with rest := ts, delimiters := ds }) := by
      simp [membersTurn, bind_apply, isAborted, habort, peek, hrest, hclose, advance, closeDelimiter, htail,
        pure_apply]
    rw [hrun]
    refine ⟨.of_moved ts ds (hrest ▸ List.suffix_cons t ts), rfl, fun _ => ?_,
      fun h => absurd h (Option.some_ne_none _)⟩
    rw [hrest]
    exact Nat.le_refl _
  cases hclosing : t.kind.isClosing with
  | true => exact membersTurn_closing hst habort hrest hclose hclosing
  | false => exact membersTurn_member hm hst habort hrest hclose hclosing

/-- What a group does between its delimiters is accounted for. -/
lemma members_ran (hm : Accounted env 1 member) (hst : Inside env d ds st) {steps : Nat}
    (hsteps : st.rest.length < steps) (read : List α) (failed : Bool) :
    Ran env 1 ds st (members d member steps read failed env st) :=
  (members_turns hm d ds).out (members_repeats d member) (fun _ _ _ h hrun => .of_neutral h hrun)
    (s := (read, failed)) hst hsteps

lemma Accounted.group (c : Construct) (hm : Accounted env 1 member) : Accounted env 1 (group c member) := by
  refine (expect c.opening).bind fun opening => ?_
  intro st hst
  let d : Delimiter := ⟨c, opening.start⟩
  have hopened : Follows env st { st with delimiters := d :: st.delimiters } :=
    .of_moved st.rest _ (List.suffix_refl _)
  have hinside : Inside env d st.delimiters { st with delimiters := d :: st.delimiters } := ⟨hst, rfl⟩
  have hmembers := members_ran hm hinside (Nat.lt_succ_of_le hst) [] false
  refine .of_neutral hopened ((hmembers.bind (m := 0) rfl ?_).mono (Nat.zero_le _))
  rintro ⟨read, failed, closing⟩ st₁ - hlen hds
  have hlen₁ : st₁.rest.length ≤ env.tokenCount := Nat.le_trans hlen hst
  dsimp only
  split
  · exact hds ▸ (report _).bind (fun _ => pure (read, opening.start)) st₁ hlen₁
  · exact hds ▸ pure (read, opening.start) st₁ hlen₁

lemma Accounted.optionalGroup (c : Construct) (hm : Accounted env 1 member) :
    Accounted env 0 (optionalGroup c member) := by
  refine (nextIs _).bind fun next => .ite ?_ (pure _)
  exact (group c hm).any.bind fun _ => pure _

/-- What stands between two delimiters, and what is made of it. -/
lemma Accounted.enclosed {β : Type} {p : Parse α} {next : Option α → Parse β} (d : Delimiter)
    (hp : Accounted env n p) (hnone : next none = fail) (hsome : ∀ a, Accounted env 0 (next (some a))) :
    Accounted env n (openDelimiter d >>= fun _ => attempt p >>= fun o =>
      closeDelimiter >>= fun _ => next o) := by
  intro st hst
  have hopened : Follows env st { st with delimiters := d :: st.delimiters } :=
    .of_moved st.rest _ (List.suffix_refl _)
  refine .of_neutral hopened ?_
  obtain ⟨hfollows, hds, hread, hex⟩ := hp { st with delimiters := d :: st.delimiters } hst
  show Ran env n st.delimiters _ ((closeDelimiter >>= fun _ => next (p env _).1) env (p env _).2)
  generalize p env { st with delimiters := d :: st.delimiters } = run at hfollows hds hread hex
  obtain ⟨o, st₁⟩ := run
  have hclosed : Follows env st₁ { st₁ with delimiters := st₁.delimiters.tail } :=
    .of_moved st₁.rest _ (List.suffix_refl _)
  have htail : st₁.delimiters.tail = st.delimiters := by rw [hds]; rfl
  cases o with
  | none =>
    show Ran env n st.delimiters _ (next none env { st₁ with delimiters := st₁.delimiters.tail })
    rw [hnone]
    exact .of_failed (hfollows.trans hclosed) ((hex rfl).after hclosed) htail
  | some a =>
    show Ran env (n + 0) st.delimiters _ (next (some a) env { st₁ with delimiters := st₁.delimiters.tail })
    refine .of_follows (hfollows.trans hclosed) (hread rfl) ?_
    exact htail ▸ hsome a { st₁ with delimiters := st₁.delimiters.tail }
      (Nat.le_trans hfollows.length_le hst)

end

end Parse

end GraphQL
