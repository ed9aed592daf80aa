import GraphQL.Proofs.Parser.Skip

/-!
What a parse reads.

A parse takes tokens from the front and never puts one back. So what it makes is made of the tokens
that it read, in their order.
-/

namespace GraphQL

namespace Parse

variable {α β : Type} {rest : List Token} {Q : List Token → α → Prop} {R : List Token → β → Prop}

/-- A parse that leaves the tokens alone. -/
def Neutral (p : Parse α) : Prop := ∀ env st, (p env st).2.rest = st.rest

namespace Neutral

variable {p : Parse α} {f : α → Parse β}

lemma pure (a : α) : Neutral (Pure.pure a : Parse α) := fun _ _ => rfl

lemma fail : Neutral (Parse.fail : Parse α) := fun _ _ => rfl

lemma limits : Neutral limits := fun _ _ => rfl

lemma peek : Neutral peek := fun _ _ => rfl

lemma isAborted : Neutral isAborted := fun _ _ => rfl

lemma openDelimiter (d : Delimiter) : Neutral (openDelimiter d) := fun _ _ => rfl

lemma closeDelimiter : Neutral closeDelimiter := fun _ _ => rfl

lemma closesOuter (k : TokenKind) : Neutral (closesOuter k) := fun _ _ => rfl

lemma report (e : ParseError) : Neutral (report e) := by
  intro env st
  unfold Parse.report
  dsimp only
  split <;> rfl

lemma bind (hp : Neutral p) (hf : ∀ a, Neutral (f a)) : Neutral (p >>= f) := by
  intro env st
  have h := hp env st
  rw [bind_apply]
  generalize p env st = run at h
  obtain ⟨_ | a, st'⟩ := run
  · exact h
  · exact (hf a env st').trans h

lemma nextIs (k : TokenKind) : Neutral (nextIs k) := peek.bind fun _ => .pure _

lemma here : Neutral here := by
  refine peek.bind fun t => ?_
  cases t with
  | some t => exact .pure _
  | none => exact limits.bind fun _ => .pure _

lemma tooDeep : Neutral (tooDeep : Parse α) := limits.bind fun _ => here.bind fun _ _ _ => rfl

lemma unexpected (expected : String) : Neutral (unexpected expected : Parse α) := by
  refine bind (peek.bind fun t => ?_) fun _ => fail
  cases t with
  | none => exact limits.bind fun _ => .report _
  | some t => exact .report _

lemma cook (t : Token) : Neutral (cook t) := by
  unfold Parse.cook
  split
  · exact .pure _
  · exact (report _).bind fun _ => .pure _

lemma leaveUnclosed (d : Delimiter) (p : Pos) : Neutral (leaveUnclosed d p : Parse α) :=
  closeDelimiter.bind fun _ => (report _).bind fun _ => fail

end Neutral

/-- In front of the tokens `rest`, a parse reads some of them, and if it succeeds then `Q` holds of
these and the result. -/
def Reads (p : Parse α) (rest : List Token) (Q : List Token → α → Prop) : Prop :=
  ∀ env st, st.rest = rest → ∃ read, rest = read ++ (p env st).2.rest ∧
    ∀ a, (p env st).1 = some a → Q read a

namespace Reads

variable {p : Parse α} {f : α → Parse β}

lemma mono {Q' : List Token → α → Prop} (h : Reads p rest Q) (hQ : ∀ read a, Q read a → Q' read a) :
    Reads p rest Q' := by
  intro env st hst
  obtain ⟨read, hread, ha⟩ := h env st hst
  exact ⟨read, hread, fun a h => hQ read a (ha a h)⟩

/-- Only the runs in front of these tokens matter. -/
lemma of_run {q : Parse α} (h : ∀ env st, st.rest = rest → p env st = q env st) (hq : Reads q rest Q) :
    Reads p rest Q := by
  intro env st hst
  rw [h env st hst]
  exact hq env st hst

lemma pure {a : α} (h : Q [] a) : Reads (Pure.pure a) rest Q := by
  intro env st hst
  exact ⟨[], hst.symm, fun b hb => Option.some.inj hb ▸ h⟩

lemma fail : Reads (Parse.fail : Parse α) rest Q :=
  fun _ _ hst => ⟨[], hst.symm, fun _ h => nomatch h⟩

lemma bind (hp : Reads p rest Q)
    (hf : ∀ a read rest', rest = read ++ rest' → Q read a →
      Reads (f a) rest' fun more b => R (read ++ more) b) : Reads (p >>= f) rest R := by
  intro env st hst
  obtain ⟨read, hread, ha⟩ := hp env st hst
  rw [bind_apply]
  generalize hrun : p env st = run at hread ha
  obtain ⟨_ | a, st'⟩ := run
  · exact ⟨read, hread, fun _ h => nomatch h⟩
  · obtain ⟨more, hmore, hb⟩ := hf a read st'.rest hread (ha a rfl) env st' rfl
    exact ⟨read ++ more, by rw [List.append_assoc, ← hmore, hread], hb⟩

lemma neutral (h : Neutral p) : Reads p rest fun read _ => read = [] := by
  intro env st hst
  exact ⟨[], by rw [h, hst]; rfl, fun _ _ => rfl⟩

lemma neutral_bind (h : Neutral p) (hf : ∀ a, Reads (f a) rest R) : Reads (p >>= f) rest R := by
  refine (neutral h).bind fun a read rest' hrest hread => ?_
  subst hread
  rw [List.nil_append] at hrest
  exact hrest ▸ hf a

lemma peek_bind {f : Option Token → Parse β} (hf : Reads (f rest.head?) rest R) :
    Reads (peek >>= f) rest R := by
  intro env st hst
  rw [show (peek >>= f) env st = f rest.head? env st by rw [← hst]; rfl]
  exact hf env st hst

lemma remaining_bind {f : List Token → Parse β} (hf : Reads (f rest) rest R) :
    Reads (remaining >>= f) rest R := by
  intro env st hst
  rw [show (remaining >>= f) env st = f rest env st by rw [← hst]; rfl]
  exact hf env st hst

lemma advance : Reads Parse.advance rest fun read _ => rest.take 1 = read := by
  intro env st hst
  refine ⟨rest.take 1, ?_, fun _ _ => rfl⟩
  show rest = rest.take 1 ++ st.rest.tail
  rw [hst, ← List.drop_one, List.take_append_drop]

lemma continueAt {read rest' : List Token} (h : rest = read ++ rest') :
    Reads (Parse.continueAt rest') rest fun r _ => r = read :=
  fun _ _ _ => ⟨read, h, fun _ _ => rfl⟩

lemma attempt (h : Reads p rest Q) :
    Reads (Parse.attempt p) rest fun read o => ∀ a ∈ o, Q read a := by
  intro env st hst
  obtain ⟨read, hread, ha⟩ := h env st hst
  exact ⟨read, hread, fun o ho a hoa => ha a (Option.some.inj ho ▸ hoa)⟩

lemma ite {c : Prop} [Decidable c] {q : Parse α} (hp : c → Reads p rest Q)
    (hq : ¬c → Reads q rest Q) : Reads (if c then p else q) rest Q := by
  by_cases h : c
  · rw [if_pos h]
    exact hp h
  · rw [if_neg h]
    exact hq h

end Reads

/-! ### Steps that fail -/

lemma bind_none {p : Parse α} {f : α → Parse β} (h : ∀ a env st, (f a env st).1 = none)
    (env : ParseLimits) (st : ParseState) : ((p >>= f) env st).1 = none := by
  rw [bind_apply]
  split
  · exact h _ _ _
  · rfl

namespace Reads

variable {p : Parse α} {f : α → Parse β}

lemma of_none (hn : Neutral p) (h : ∀ env st, (p env st).1 = none) : Reads p rest Q := by
  intro env st hst
  refine ⟨[], by rw [hn, hst]; rfl, fun a ha => ?_⟩
  rw [h] at ha
  simp at ha

lemma unexpected (expected : String) : Reads (Parse.unexpected expected) rest Q :=
  of_none (.unexpected expected) (bind_none fun _ _ _ => rfl)

lemma tooDeep : Reads Parse.tooDeep rest Q :=
  of_none .tooDeep (bind_none fun _ => bind_none fun _ _ _ => rfl)

lemma leaveUnclosed (d : Delimiter) (p : Pos) : Reads (Parse.leaveUnclosed d p) rest Q :=
  of_none (.leaveUnclosed d p) (bind_none fun _ => bind_none fun _ _ _ => rfl)

/-- Stepping over a token that is known to be next. -/
lemma advance_bind {t : Token} {tokens : List Token} {f : Unit → Parse β}
    (hf : Reads (f ()) tokens fun read b => R (t :: read) b) :
    Reads (Parse.advance >>= f) (t :: tokens) R := by
  refine advance.bind fun _ read rest' hrest hread => ?_
  simp only [List.take_succ_cons, List.take_zero] at hread
  subst hread
  obtain rfl : tokens = rest' := by simpa using hrest
  exact hf

lemma nested (h : Reads p rest Q) : Reads (Parse.nested p) rest Q := by
  intro env st hst
  unfold Parse.nested
  split
  · exact ⟨[], by rw [hst]; rfl, fun _ h => nomatch h⟩
  · split
    · exact tooDeep env st hst
    · exact h env _ hst

end Reads

/-! ### Tokens of a kind -/

lemma expect_reads (k : TokenKind) :
    Reads (expect k) rest fun read t => read = [t] ∧ t.kind = k := by
  refine .peek_bind ?_
  cases rest with
  | nil => exact .unexpected _
  | cons t tokens =>
    refine .ite (fun hk => .advance_bind (.pure ⟨rfl, hk⟩)) fun _ => .unexpected _

lemma expectKeyword_reads (word : String) :
    Reads (expectKeyword word) rest fun read t => read = [t] := by
  refine .peek_bind ?_
  cases rest with
  | nil => exact .unexpected _
  | cons t tokens => exact .ite (fun _ => .advance_bind (.pure rfl)) fun _ => .unexpected _

lemma expectName_reads (what : String) :
    Reads (expectName what) rest fun read n =>
      ∃ t : Token, read = [t] ∧ t.kind = .name ∧ n = ⟨t.text, t.start⟩ := by
  refine .peek_bind ?_
  cases rest with
  | nil => exact .unexpected _
  | cons t tokens =>
    exact .ite (fun hk => .advance_bind (.pure ⟨t, rfl, hk, rfl⟩)) fun _ => .unexpected _

/-! ### Groups -/

/-- From whatever it stands in front of, a parse makes something with the property. -/
def Makes (p : Parse α) (P : α → Prop) : Prop := ∀ rest, Reads p rest fun _ a => P a

namespace Makes

variable {p : Parse α} {f : α → Parse β} {P : α → Prop} {S : β → Prop}

lemma pure {a : α} (h : P a) : Makes (Pure.pure a) P := fun _ => .pure h

lemma fail : Makes Parse.fail P := fun _ => .fail

lemma unexpected (expected : String) : Makes (Parse.unexpected expected) P :=
  fun _ => .unexpected expected

lemma tooDeep : Makes Parse.tooDeep P := fun _ => .tooDeep

lemma neutral (h : Neutral p) : Makes p fun _ => True := fun _ => (Reads.neutral h).mono fun _ _ _ => trivial

lemma bind (hp : Makes p P) (hf : ∀ a, P a → Makes (f a) S) : Makes (p >>= f) S :=
  fun rest => (hp rest).bind fun a _ rest' _ ha => hf a ha rest'

lemma ite {c : Prop} [Decidable c] {q : Parse α} (hp : c → Makes p P) (hq : ¬c → Makes q P) :
    Makes (if c then p else q) P :=
  fun rest => .ite (fun h => hp h rest) fun h => hq h rest

lemma advance : Makes Parse.advance fun _ => True :=
  fun _ => Reads.advance.mono fun _ _ _ => trivial

lemma expect (k : TokenKind) : Makes (Parse.expect k) fun _ => True :=
  fun _ => (expect_reads k).mono fun _ _ _ => trivial

lemma expectKeyword (word : String) : Makes (Parse.expectKeyword word) fun _ => True :=
  fun _ => (expectKeyword_reads word).mono fun _ _ _ => trivial

lemma expectName (what : String) : Makes (Parse.expectName what) fun _ => True :=
  fun _ => (expectName_reads what).mono fun _ _ _ => trivial

lemma discard (hp : Makes p P) : Makes (discard p) fun _ => True := by
  show Makes (p >>= fun _ => Pure.pure ()) _
  exact hp.bind fun _ _ => .pure trivial

/-- What is made does not depend on where the parse stands. -/
lemma anywhere (hp : Neutral p) (hf : ∀ a, Makes (f a) S) : Makes (p >>= f) S :=
  (neutral hp).bind fun a _ => hf a

end Makes

lemma recoverMember_reads (c : Construct) (before : List Token) :
    Reads (recoverMember c before) rest fun _ _ => True := by
  refine .remaining_bind ?_
  obtain ⟨read, hread⟩ := skipMember_suffix c (rest.length < before.length) 0 rest
  exact (Reads.continueAt hread.symm).mono fun _ _ _ => trivial

variable {member : Parse α} {S : List Token → α → Prop} {P : α → Prop}

/-- Members that were read one behind another. What stands between them was skipped. -/
inductive InTurn (S : List Token → α → Prop) : List Token → List α → Prop where
  | nil (read : List Token) : InTurn S read []
  | cons {read behind : List Token} {a : α} {as : List α} (skipped : List Token) (member : S read a)
      (rest : InTurn S behind as) : InTurn S (skipped ++ (read ++ behind)) (a :: as)

namespace InTurn

variable {read : List Token} {as : List α}

lemma skip (tokens : List Token) (h : InTurn S read as) : InTurn S (tokens ++ read) as := by
  cases h with
  | nil => exact .nil _
  | cons skipped ha rest =>
    rw [← List.append_assoc]
    exact .cons _ ha rest

lemma forall_mem (h : InTurn S read as) (hP : ∀ read a, S read a → P a) : ∀ a ∈ as, P a := by
  induction h with
  | nil => simp
  | cons skipped ha _ ih => exact List.forall_mem_cons.mpr ⟨hP _ _ ha, ih⟩

end InTurn

/-- What the members of a group are, behind those that were read before. -/
def MoreMembers (S : List Token → α → Prop) (before : List α) (read : List Token) (after : List α) :
    Prop :=
  ∃ more, after = before.reverse ++ more ∧ InTurn S read more

lemma MoreMembers.nil (before : List α) (read : List Token) : MoreMembers S before read before.reverse :=
  ⟨[], by simp, .nil read⟩

lemma MoreMembers.skip {before after : List α} {more : List Token} (read : List Token)
    (h : MoreMembers S before more after) : MoreMembers S before (read ++ more) after := by
  obtain ⟨new, hafter, hnew⟩ := h
  exact ⟨new, hafter, hnew.skip read⟩

lemma MoreMembers.cons {a : α} {before after : List α} {read more : List Token} (ha : S read a)
    (h : MoreMembers S (a :: before) more after) : MoreMembers S before (read ++ more) after := by
  obtain ⟨new, hafter, hnew⟩ := h
  exact ⟨a :: new, by simp [hafter], .cons [] ha hnew⟩

/-- Members need to be known only in front of what is left of the tokens. -/
lemma members_reads (d : Delimiter) (steps : Nat) (before : List α) (failed : Bool) (rest : List Token)
    (hm : ∀ tokens, tokens <:+ rest → Reads member tokens S) :
    Reads (members d member steps before failed) rest fun read out => MoreMembers S before read out.1 := by
  induction steps generalizing before failed rest with
  | zero => exact .fail
  | succ steps ih =>
    rw [members]
    refine .neutral_bind .isAborted fun aborted => .ite (fun _ => ?_) fun _ => .peek_bind ?_
    · exact .neutral_bind .closeDelimiter fun _ => .fail
    cases rest with
    | nil => exact .neutral_bind .limits fun _ => .leaveUnclosed _ _
    | cons t tokens =>
      refine .ite (fun _ => ?_) fun _ => .ite (fun _ => ?_) fun _ => ?_
      · exact .advance_bind (.neutral_bind .closeDelimiter fun _ => .pure (.nil before _))
      · refine .neutral_bind (.closesOuter _) fun outer => .ite (fun _ => .leaveUnclosed _ _) fun _ => ?_
        refine .neutral_bind (.report _) fun _ => .advance_bind ?_
        have hbehind := ih before failed tokens fun us hus => hm us (hus.trans (List.suffix_cons t tokens))
        exact hbehind.mono fun read out h => h.skip [t]
      · refine .remaining_bind ?_
        refine (Reads.attempt (hm _ List.suffix_rfl)).bind fun o read rest' hrest ho => ?_
        have hrest' : rest' <:+ t :: tokens := ⟨read, hrest.symm⟩
        cases o with
        | some a =>
          have hbehind := ih (a :: before) failed rest' fun us hus => hm us (hus.trans hrest')
          exact hbehind.mono fun more out h => h.cons (ho a rfl)
        | none =>
          refine .neutral_bind .isAborted fun aborted => .ite (fun _ => ?_) fun _ => ?_
          · exact .neutral_bind .closeDelimiter fun _ => .fail
          · refine (recoverMember_reads _ _).bind fun _ read' rest'' hrest'' _ => ?_
            have hsuffix : rest'' <:+ t :: tokens := ⟨read ++ read', by rw [List.append_assoc, ← hrest'', hrest]⟩
            have hbehind := ih before true rest'' fun us hus => hm us (hus.trans hsuffix)
            exact hbehind.mono fun more out h => (h.skip _).skip _

lemma group_reads (c : Construct) (rest : List Token)
    (hm : ∀ tokens, tokens <:+ rest → Reads member tokens S) :
    Reads (group c member) rest fun read out =>
      ∃ opening behind, read = opening :: behind ∧ opening.kind = c.opening ∧
        out.2 = opening.start ∧ InTurn S behind out.1 := by
  refine (expect_reads c.opening).bind fun opening read rest' hrest hopening => ?_
  obtain ⟨rfl, hkind⟩ := hopening
  have hrest' : rest' <:+ rest := ⟨_, hrest.symm⟩
  refine .neutral_bind (.openDelimiter _) fun _ => .neutral_bind .limits fun env => ?_
  refine (members_reads _ _ _ _ _ fun us hus => hm us (hus.trans hrest')).bind fun out more rest'' _ hout => ?_
  obtain ⟨as, failed, closing⟩ := out
  obtain ⟨new, hnew, hturn⟩ := hout
  simp only [List.reverse_nil, List.nil_append] at hnew
  subst hnew
  rw [← List.append_nil more] at hturn
  have hdone : ∃ t behind, [opening] ++ (more ++ []) = t :: behind ∧ t.kind = c.opening ∧
      opening.start = t.start ∧ InTurn S behind as := ⟨opening, more ++ [], rfl, hkind, rfl, hturn⟩
  exact .ite (fun _ => .neutral_bind (.report _) fun _ => .pure hdone) fun _ => .pure hdone

end Parse

end GraphQL
