import GraphQL.Proofs.Document.Nesting
import GraphQL.Proofs.Parser.Exact

/-!
Groups.

A group tries a member in front of every token that does not end it. It goes on as long as members
are read, so each of them must be told from the next one and from the end by its first token.
-/

namespace GraphQL

open Grammar

namespace Grammar

variable {α : Type} {P : Production α} {size : α → Nat} {n : Nat} {ts rest : List Token}

lemma many_within {as : List α} :
    Many (Within size n P) ts as rest ↔ Many P ts as rest ∧ ∀ a ∈ as, size a ≤ n := by
  constructor
  · intro h
    induction h with
    | nil => exact ⟨.nil, by simp⟩
    | cons ha _ ih => exact ⟨.cons ha.1 ih.1, List.forall_mem_cons.mpr ⟨ha.2, ih.2⟩⟩
  · rintro ⟨h, hsize⟩
    induction h with
    | nil => exact .nil
    | cons ha _ ih =>
      obtain ⟨hhead, htail⟩ := List.forall_mem_cons.mp hsize
      exact .cons ⟨ha, hhead⟩ (ih htail)

lemma group_within {c : Construct} {out : List α × Pos} :
    Group c (Within size n P) ts out rest ↔ Group c P ts out rest ∧ ∀ a ∈ out.1, size a ≤ n := by
  constructor
  · rintro ⟨hopen, hmembers, hclose, hnonempty⟩
    obtain ⟨hmany, hsize⟩ := many_within.mp hmembers
    exact ⟨⟨hopen, hmany, hclose, hnonempty⟩, hsize⟩
  · rintro ⟨⟨hopen, hmembers, hclose, hnonempty⟩, hsize⟩
    exact ⟨hopen, many_within.mpr ⟨hmembers, hsize⟩, hclose, hnonempty⟩

lemma optionalGroup_within {c : Construct} {as : List α} :
    Within (largest size) n (OptionalGroup c P) ts as rest ↔
      OptionalGroup c (Within size n P) ts as rest := by
  rw [Within, largest_le]
  constructor
  · rintro ⟨_ | h, hsize⟩
    · exact .absent
    · exact .present (group_within.mpr ⟨h, hsize⟩)
  · rintro (_ | h)
    · exact ⟨.absent, by simp⟩
    · obtain ⟨hgroup, hsize⟩ := group_within.mp h
      exact ⟨.present hgroup, hsize⟩

lemma body_within {c : Construct} {as : List α} :
    Within (largest size) n (Body c P) ts as rest ↔ Body c (Within size n P) ts as rest := by
  rw [Within, largest_le]
  constructor
  · rintro ⟨hnext | h, hsize⟩
    · exact .absent hnext
    · exact .present (group_within.mpr ⟨h, hsize⟩)
  · rintro (hnext | h)
    · exact ⟨.absent hnext, by simp⟩
    · obtain ⟨hgroup, hsize⟩ := group_within.mp h
      exact ⟨.present hgroup, hsize⟩

lemma Many.starts {first : List TokenKind}
    (hP : ∀ ts a rest, P ts a rest → Starts first false ts rest) {as : List α}
    (h : Many P ts as rest) : Starts first true ts rest := by
  induction h with
  | nil => exact .inl ⟨rfl, rfl⟩
  | cons ha _ ih => exact ((hP _ _ _ ha).trans ih).mono (by simp) (by simp)

lemma many_iff {as : List α} :
    Many P ts as rest ↔ (as = [] ∧ rest = ts) ∨
      ∃ a mid more, P ts a mid ∧ Many P mid more rest ∧ as = a :: more := by
  constructor
  · rintro (_ | ⟨ha, hmore⟩)
    · exact .inl ⟨rfl, rfl⟩
    · exact .inr ⟨_, _, _, ha, hmore, rfl⟩
  · rintro (⟨rfl, rfl⟩ | ⟨a, mid, more, ha, hmore, rfl⟩)
    · exact .nil
    · exact .cons ha hmore

end Grammar

namespace Parse

open ParseState

variable {α : Type} {env : ParseLimits} {levels : Nat}

lemma closing_isClosing (c : Construct) : c.closing.isClosing = true := by
  cases c <;> rfl

lemma recoverMember_silent (c : Construct) (before : List Token) :
    Silent env (recoverMember c before) :=
  .bind .remaining fun _ => .continueAt _

variable {member : Parse α} {P : Production α} {first follow : List TokenKind}

/-- Members that start with one kind of tokens and must not be followed by another are told apart from
one another and from the end of their group. -/
def Separates (c : Construct) (first follow : List TokenKind) : Prop :=
  (∀ k ∈ first, k.isClosing = false) ∧ (∀ k ∈ follow, k ∉ first) ∧ c.closing ∉ follow

instance (c : Construct) (first follow : List TokenKind) : Decidable (Separates c first follow) :=
  inferInstanceAs (Decidable (_ ∧ _ ∧ _))

lemma members_keeps (hm : KeepsErrors env member) (d : Delimiter) (steps : Nat) (read : List α)
    (failed : Bool) : KeepsErrors env (members d member steps read failed) := by
  induction steps generalizing read failed with
  | zero => exact .fail
  | succ steps ih =>
    refine .silent_bind .isAborted fun aborted => .ite ?_ (.silent_bind .peek fun t => ?_)
    · exact .silent_bind .closeDelimiter fun _ => .fail
    cases t with
    | none => exact .silent_bind .limits fun _ => .leaveUnclosed _ _
    | some t =>
      refine .ite ?_ (.ite ?_ ?_)
      · exact .silent_bind .advance fun _ => .silent_bind .closeDelimiter fun _ => .pure _
      · refine .silent_bind (.closesOuter _) fun outer => .ite (.leaveUnclosed _ _) ?_
        exact (KeepsErrors.report _).bind fun _ => .silent_bind .advance fun _ => ih _ _
      · refine .silent_bind .remaining fun before => (KeepsErrors.attempt hm).bind fun o => ?_
        cases o with
        | some a => exact ih _ _
        | none =>
          refine .silent_bind .isAborted fun aborted => .ite ?_ ?_
          · exact .silent_bind .closeDelimiter fun _ => .fail
          · exact .silent_bind (recoverMember_silent _ _) fun _ => ih _ _

/-- What a group does at its end. -/
lemma members_closing {d : Delimiter} {t : Token} (ht : t.kind = d.construct.closing) (steps : Nat)
    (read : List α) (ts : List Token) (ds : List Delimiter) (depth : Nat) :
    members d member (steps + 1) read false env (clean (t :: ts) (d :: ds) depth) =
      (some (read.reverse, false, t), clean ts ds depth) := by
  simp [members, bind_apply, isAborted, peek, clean, ht, advance, closeDelimiter, pure_apply]

/-- In front of a delimiter that closes something else, a group reports an error. -/
lemma members_mismatched (hm : KeepsErrors env member) {d : Delimiter} {t : Token}
    (ht : t.kind ≠ d.construct.closing) (hclosing : t.kind.isClosing = true) (steps : Nat)
    (read : List α) (ts : List Token) (ds : List Delimiter) (depth : Nat) :
    ¬(members d member (steps + 1) read false env (clean (t :: ts) ds depth)).2.IsClean := by
  have hbad : Complains env (closesOuter t.kind >>= fun outer => if outer = true
      then leaveUnclosed d t.start
      else report ⟨t.start, 1, .mismatchedDelimiter d.construct.closing.description t.text⟩ >>= fun _ =>
        advance >>= fun _ => members d member steps read false) := by
    refine .silent_bind (.closesOuter _) fun outer => ?_
    cases outer with
    | true => exact .leaveUnclosed d t.start
    | false => exact (Complains.report _).bind fun _ =>
        .silent_bind .advance fun _ => members_keeps hm d steps read false
  intro h
  refine hbad (clean (t :: ts) ds depth) rfl ?_
  simpa [members, bind_apply, isAborted, peek, clean, ht, hclosing] using h

/-- In front of any other token, a group tries a member. -/
lemma members_open (hm : KeepsErrors env member) {d : Delimiter} {t : Token}
    (ht : t.kind.isClosing = false) (steps : Nat) (read : List α) (ts : List Token) :
    ∃ next : Option α → Parse (List α × Bool × Token), (∀ o, KeepsErrors env (next o)) ∧
      (∀ a, next (some a) = members d member steps (a :: read) false) ∧
      ∀ ds depth, members d member (steps + 1) read false env (clean (t :: ts) ds depth) =
        (attempt member >>= next) env (clean (t :: ts) ds depth) := by
  have hne : t.kind ≠ d.construct.closing := fun h => by
    rw [h, closing_isClosing] at ht
    exact Bool.false_ne_true ht.symm
  refine ⟨fun o => o.elim
      (isAborted >>= fun aborted => if aborted = true
        then closeDelimiter >>= fun _ => fail
        else recoverMember d.construct (t :: ts) >>= fun _ => members d member steps read true)
      fun a => members d member steps (a :: read) false,
    fun o => ?_, fun a => rfl, fun ds depth => ?_⟩
  · cases o with
    | some a => exact members_keeps hm d steps _ _
    | none =>
      refine .silent_bind .isAborted fun aborted => .ite ?_ ?_
      · exact .silent_bind .closeDelimiter fun _ => .fail
      · exact .silent_bind (recoverMember_silent _ _) fun _ => members_keeps hm d steps _ _
  · rw [members]
    simp only [bind_apply, isAborted, peek, clean, Option.isSome_none, Bool.false_eq_true, if_false,
      List.head?_cons, hne, ht, remaining]
    generalize attempt member env _ = run
    obtain ⟨_ | _ | a, st⟩ := run <;> rfl

lemma members_sound (hm : Exact env levels member P first false follow) (d : Delimiter) {steps : Nat}
    {read : List α} {ts : List Token} {ds : List Delimiter} {depth : Nat} (hsteps : ts.length < steps)
    (hts : ts.length ≤ env.tokenCount) (hdepth : depth + levels = env.maxDepth)
    (hclean : (members d member steps read false env (clean ts (d :: ds) depth)).2.IsClean) :
    ∃ as closing rest, Many P ts as (closing :: rest) ∧ closing.kind = d.construct.closing ∧
      members d member steps read false env (clean ts (d :: ds) depth) =
        (some (read.reverse ++ as, false, closing), clean rest ds depth) := by
  induction steps generalizing read ts with
  | zero => exact absurd hsteps (Nat.not_lt_zero _)
  | succ steps ih =>
    cases ts with
    | nil => exact absurd hclean (Complains.leaveUnclosed d env.endPos (clean [] (d :: ds) depth) rfl)
    | cons t us =>
      by_cases hclose : t.kind = d.construct.closing
      · refine ⟨[], t, us, .nil, hclose, ?_⟩
        rw [members_closing hclose, List.append_nil]
      cases hclosing : t.kind.isClosing with
      | true => exact absurd hclean (members_mismatched hm.keeps hclose hclosing _ _ _ _ _)
      | false =>
        obtain ⟨next, hkeeps, hsome, hopen⟩ := members_open hm.keeps (d := d) hclosing steps read us
        rw [hopen] at hclean ⊢
        have hmid : (member env (clean (t :: us) (d :: ds) depth)).2.IsClean :=
          KeepsErrors.of_bind (p := attempt member) hkeeps hclean
        obtain ⟨a, rest, ha, hrun⟩ := (hm.exactAt _ hts).sound _ depth hdepth hmid
        rw [attempt_bind hrun, hsome] at hclean ⊢
        have hlen : rest.length ≤ us.length := (hm.starts _ _ _ ha).length_tail
        rw [List.length_cons] at hsteps hts
        obtain ⟨as, closing, rest', has, hkind, hmore⟩ := ih (by omega) (by omega) hclean
        exact ⟨a :: as, closing, rest', .cons ha has, hkind, by rw [hmore]; simp⟩

lemma members_complete (hm : Exact env levels member P first false follow) {d : Delimiter}
    (hseparates : Separates d.construct first follow) {as : List α} {ts mid rest : List Token}
    {closing : Token} (h : Many P ts as mid) (hmid : mid = closing :: rest) (hkind : closing.kind = d.construct.closing)
    {steps : Nat} {read : List α} {ds : List Delimiter} {depth : Nat} (hsteps : ts.length < steps)
    (hts : ts.length ≤ env.tokenCount) (hdepth : depth + levels = env.maxDepth) :
    members d member steps read false env (clean ts (d :: ds) depth) =
      (some (read.reverse ++ as, false, closing), clean rest ds depth) := by
  induction h generalizing steps read with
  | nil =>
    subst hmid
    obtain ⟨steps, rfl⟩ := Nat.exists_eq_succ_of_ne_zero (Nat.ne_zero_of_lt hsteps)
    rw [members_closing hkind, List.append_nil]
  | @cons ts mid' rest' a as ha hmany ih =>
    obtain ⟨steps, rfl⟩ := Nat.exists_eq_succ_of_ne_zero (Nat.ne_zero_of_lt hsteps)
    obtain ⟨h, -⟩ | ⟨t, us, rfl, hk, hlen⟩ := hm.starts _ _ _ ha
    · exact absurd h Bool.false_ne_true
    have hnext : NotNext follow mid' := by
      refine (hmany.starts hm.starts).notNext hseparates.2.1 fun _ t' ht' => ?_
      subst hmid
      cases ht'
      simpa [hkind] using hseparates.2.2
    obtain ⟨next, -, hsome, hopen⟩ := members_open hm.keeps (d := d) (hseparates.1 _ hk) steps read us
    have hrun := (hm.exactAt _ hts).complete (d :: ds) depth hdepth a mid' ha hnext
    rw [hopen, attempt_bind hrun, hsome]
    rw [List.length_cons] at hsteps hts
    rw [ih hmid (by omega) (by omega)]
    simp

/-- What a group does behind its last delimiter. -/
def groupEnd (c : Construct) (opening : Token) : List α × Bool × Token → Parse (List α × Pos)
  | (read, failed, closing) => do
    if read.isEmpty && !failed && !c.allowsEmpty then
      let extent := max 1 (closing.stop.offset - opening.start.offset)
      report ⟨opening.start, extent, .emptyConstruct c⟩
    return (read, opening.start)

/-- What a group does behind its opening delimiter. -/
def groupRest (c : Construct) (member : Parse α) (opening : Token) : Parse (List α × Pos) := do
  openDelimiter ⟨c, opening.start⟩
  let read ← members ⟨c, opening.start⟩ member ((← limits).tokenCount + 1) [] false
  groupEnd c opening read

lemma group_eq (c : Construct) (member : Parse α) :
    group c member = expect c.opening >>= groupRest c member := rfl

lemma groupEnd_keeps (c : Construct) (opening : Token) (out : List α × Bool × Token) :
    KeepsErrors env (groupEnd c opening out) :=
  .ite ((KeepsErrors.report _).bind fun _ => .pure _) (.pure _)

/-- Only an empty group is complained of. -/
lemma groupEnd_apply (c : Construct) (opening closing : Token) (as : List α)
    (h : as = [] → c.allowsEmpty = true) (st : ParseState) :
    groupEnd c opening (as, false, closing) env st = (some (as, opening.start), st) := by
  have hif : ¬(as.isEmpty && !false && !c.allowsEmpty) = true := by
    intro hempty
    simp only [Bool.not_false, Bool.and_true, Bool.and_eq_true, List.isEmpty_iff] at hempty
    simp [h hempty.1] at hempty
  show (if (as.isEmpty && !false && !c.allowsEmpty) = true then _ else _ : Parse _) env st = _
  rw [if_neg hif]
  rfl

lemma groupEnd_empty (c : Construct) (opening closing : Token) (h : c.allowsEmpty = false) :
    Complains env (groupEnd c opening (([] : List α), false, closing)) := by
  have hif : (([] : List α).isEmpty && !false && !c.allowsEmpty) = true := by simp [h]
  show Complains env (if (([] : List α).isEmpty && !false && !c.allowsEmpty) = true then _ else _)
  rw [if_pos hif]
  exact (Complains.report _).bind fun _ => .pure _

/-- The members of a group and the delimiter behind them. -/
def GroupRest (c : Construct) (P : Production α) (opening : Token) : Production (List α × Pos) :=
  fun ts out rest => ∃ as closing, Many P ts as (closing :: rest) ∧ closing.kind = c.closing ∧
    (as = [] → c.allowsEmpty = true) ∧ out = (as, opening.start)

lemma groupRest_exact (c : Construct) (hm : Exact env levels member P first false follow)
    (hseparates : Separates c first follow) (opening : Token) :
    Exact env levels (groupRest c member opening) (GroupRest c P opening) (first ++ [c.closing]) false
      [] where
  keeps := by
    refine .silent_bind (.openDelimiter _) fun _ => .silent_bind .limits fun _ => ?_
    exact (members_keeps hm.keeps _ _ _ _).bind fun out => groupEnd_keeps c opening out
  starts := by
    rintro ts out rest ⟨as, closing, hmany, hkind, -, -⟩
    have hend : Starts [c.closing] false (closing :: rest) rest :=
      .inr ⟨closing, rest, rfl, by simp [hkind], Nat.le_refl _⟩
    exact (hmany.starts hm.starts).trans hend
  exactAt ts hts := by
    have hrun : ∀ ds depth, groupRest c member opening env (clean ts ds depth) =
        (members ⟨c, opening.start⟩ member (env.tokenCount + 1) [] false >>= groupEnd c opening) env
          (clean ts (⟨c, opening.start⟩ :: ds) depth) := fun _ _ => rfl
    refine ⟨fun ds depth hdepth hclean => ?_, ?_⟩
    · rw [hrun] at hclean ⊢
      obtain ⟨as, closing, rest, hmany, hkind, hmembers⟩ := members_sound hm _ (Nat.lt_succ_of_le hts)
        hts hdepth (KeepsErrors.of_bind (groupEnd_keeps c opening) hclean)
      have hnonempty : as = [] → c.allowsEmpty = true := by
        rintro rfl
        by_contra hempty
        rw [bind_apply, hmembers] at hclean
        exact groupEnd_empty c opening closing (by simpa using hempty) _ rfl hclean
      rw [bind_apply, hmembers]
      exact ⟨_, rest, ⟨as, closing, hmany, hkind, hnonempty, rfl⟩,
        groupEnd_apply c opening closing as hnonempty _⟩
    · rintro ds depth hdepth out rest ⟨as, closing, hmany, hkind, hnonempty, rfl⟩ -
      have hmembers : members ⟨c, opening.start⟩ member (env.tokenCount + 1) [] false env
          (clean ts (⟨c, opening.start⟩ :: ds) depth) =
            (some (as, false, closing), clean rest ds depth) :=
        members_complete hm hseparates hmany rfl hkind (Nat.lt_succ_of_le hts) hts hdepth
      rw [hrun, bind_apply, hmembers]
      exact groupEnd_apply c opening closing as hnonempty _

lemma group_exact (c : Construct) (hm : Exact env levels member P first false follow)
    (hseparates : Separates c first follow) :
    Exact env levels (group c member) (Group c P) [c.opening] false [] := by
  rw [group_eq]
  refine ((expect_exact c.opening).bind (by simp) (groupRest_exact c hm hseparates)).congr
    (fun ts out rest => ?_) (by simp) (by simp) (by simp)
  constructor
  · rintro ⟨hopen, hmembers, hclosing, hnonempty⟩
    exact ⟨_, _, ⟨hopen⟩, _, _, hmembers, hclosing, hnonempty, rfl⟩
  · rintro ⟨opening, mid, ⟨hopen⟩, as, closing, hmembers, hclosing, hnonempty, rfl⟩
    exact ⟨hopen, hmembers, hclosing, hnonempty⟩

lemma groupMembers_exact (c : Construct) (hm : Exact env levels member P first false follow)
    (hseparates : Separates c first follow) :
    Exact env levels (group c member >>= fun (read, _) => pure read)
      (fun ts as rest => ∃ p, Group c P ts (as, p) rest) [c.opening] false [] := by
  refine ((group_exact c hm hseparates).map Prod.fst).congr (fun ts as rest => ?_) (by simp) id (by simp)
  constructor
  · rintro ⟨p, h⟩
    exact ⟨(as, p), h, rfl⟩
  · rintro ⟨⟨_, p⟩, h, rfl⟩
    exact ⟨p, h⟩

variable {size : α → Nat} {n : Nat}

lemma optionalGroup_exact (c : Construct)
    (hm : Exact env levels member (Within size n P) first false follow) (hseparates : Separates c first follow) :
    Exact env levels (optionalGroup c member) (Within (largest size) n (OptionalGroup c P)) [c.opening]
      true [c.opening] := by
  refine (Exact.nextIs_bind (groupMembers_exact c hm hseparates) (.pure []) (by simp)).congr
    (fun ts as rest => ?_) (by simp) (by simp) (by simp)
  rw [optionalGroup_within]
  constructor
  · rintro (_ | h)
    · exact .inr ⟨rfl, rfl⟩
    · exact .inl ⟨_, h⟩
  · rintro (⟨p, h⟩ | ⟨rfl, rfl⟩)
    · exact .present h
    · exact .absent

/-- The same parse, where what follows is not known but looked at. -/
lemma body_exact (c : Construct) (hm : Exact env levels member (Within size n P) first false follow)
    (hseparates : Separates c first follow) :
    Exact env levels (optionalGroup c member) (Within (largest size) n (Body c P)) [c.opening] true
      [] := by
  refine (Exact.nextIs_look (groupMembers_exact c hm hseparates) (.pure [])).congr
    (fun ts as rest => ?_) (by simp) (by simp) (by simp)
  rw [body_within]
  constructor
  · rintro (hnext | h)
    · exact .inr ⟨⟨rfl, rfl⟩, fun t ht => by simpa using hnext t ht⟩
    · exact .inl ⟨_, h⟩
  · rintro (⟨p, h⟩ | ⟨⟨rfl, rfl⟩, hnext⟩)
    · exact .present h
    · exact .absent fun t ht => by simpa using hnext t ht

end Parse

end GraphQL
