import Mathlib.Data.List.Forall2
import GraphQL.Proofs.Parser.Relocate

/-!
Groups that are read elsewhere.

Loops do the same in both places, since no turn of theirs looks at a place, and each of them has steps
enough.
-/

namespace GraphQL

namespace Parse

open ParseState

section

variable {move : Pos → Pos}

lemma startsMember_relocate (c : Construct) (t : Token) :
    c.startsMember (t.relocate move) = c.startsMember t := by
  cases c <;> rfl

lemma skipMember_relocate (c : Construct) (moved : Bool) (depth : Nat) (ts : List Token) :
    skipMember c moved depth (ts.map (Token.relocate move)) =
      (skipMember c moved depth ts).map (Token.relocate move) := by
  induction ts generalizing moved depth with
  | nil => rfl
  | cons t ts ih =>
    rw [List.map_cons, skipMember, skipMember, startsMember_relocate, Token.relocate_kind, ih]
    split <;> rfl

end

variable {r : Relocation} {levels : Nat}

namespace Simulates

section

variable {σ σ' β β' : Type} {turn : σ → Parse (σ ⊕ β)} {turn' : σ' → Parse (σ' ⊕ β')}
  {run : Nat → σ → Parse β} {run' : Nat → σ' → Parse β'} {Inv : ParseState → Prop}
  {Out : ParseState → Option β × ParseState → Prop} {S : σ → σ' → Prop} {R : β → β' → Prop}

/-- **Loops whose turns do the same do the same**, if both have a step for each token. -/
lemma loop (hturns : Turns r.env Inv Out turn) (hrun : Repeats turn run) (hrun' : Repeats turn' run')
    (hturn : ∀ s s', S s s' → Simulates r levels (Sum.LiftRel S R) (turn s) (turn' s')) {steps steps' : Nat}
    {s : σ} {s' : σ'} {st st' : ParseState} (hs : S s s') (hst : r.State st st') (hinv : Inv st)
    (hdepth : st.depth + levels = r.env.maxDepth) (hsteps : st.rest.length < steps)
    (hsteps' : st.rest.length < steps') :
    SameRun r R st.depth (run steps s r.env st) (run' steps' s' r.env' st') := by
  induction steps generalizing steps' s s' st st' with
  | zero => exact absurd hsteps (Nat.not_lt_zero _)
  | succ steps ih =>
    obtain ⟨steps', rfl⟩ := Nat.exists_eq_add_one_of_ne_zero (Nat.ne_zero_of_lt hsteps')
    have hended := hturns s st hinv
    obtain ⟨ho, hst₁, hd⟩ := hturn s s' hs st st' hst hdepth
    rw [hrun.apply, hrun'.apply]
    generalize turn s r.env st = out at hended ho hst₁ hd
    generalize turn' s' r.env' st' = out' at ho hst₁
    obtain ⟨o, st₁⟩ := out
    obtain ⟨o', st₁'⟩ := out'
    cases ho with
    | none => exact ⟨.none, hst₁, hd⟩
    | some ho =>
      cases ho with
      | inr hb => exact ⟨.some hb, hst₁, hd⟩
      | inl hs =>
        obtain ⟨hinv₁, -, hless⟩ := hended
        dsimp only at hst₁ hd ⊢
        obtain ⟨ho, hst₂, hd'⟩ := ih hs hst₁ hinv₁ (by omega) (by omega) (show _ < steps' by omega)
        exact ⟨ho, hst₂, hd'.trans hd⟩

end

/-! ### Members -/

variable {α α' : Type} {member : Parse α} {member' : Parse α'} {R : α → α' → Prop}

lemma leaveUnclosed {β β' : Type} {S : β → β' → Prop} (d : Delimiter) {p p' : Pos} (hp : p' = r.move p) :
    Simulates r levels S (leaveUnclosed d p) (leaveUnclosed (d.relocate r.move) p') := by
  refine closeDelimiter.bind fun _ _ _ => bind (report ?_) fun _ _ _ => fail
  exact ⟨hp, rfl, r.extent_refl _⟩

lemma recoverMember (c : Construct) {before before' : List Token} (h : r.Tokens before before') :
    Simulates r levels (fun _ _ => True) (recoverMember c before) (recoverMember c before') := by
  refine skip (fun _ => skipMember_suffix _ _ _ _) fun ts => ?_
  rw [h.length_eq, List.length_map]
  exact skipMember_relocate _ _ _ _

/-- Members that were read in both places. -/
def Members (R : α → α' → Prop) (s : List α × Bool) (s' : List α' × Bool) : Prop :=
  List.Forall₂ R s.1 s'.1 ∧ s'.2 = s.2

/-- A group that was read in both places, and its closing delimiter. -/
def Closed (r : Relocation) (R : α → α' → Prop) (out : List α × Bool × Token)
    (out' : List α' × Bool × Token) : Prop :=
  List.Forall₂ R out.1 out'.1 ∧ out'.2.1 = out.2.1 ∧ r.Token out.2.2 out'.2.2

lemma membersTurn (hm : Simulates r levels R member member') (d : Delimiter) {s : List α × Bool}
    {s' : List α' × Bool} (hs : Members R s s') :
    Simulates r levels (Sum.LiftRel (Members R) (Closed r R)) (membersTurn d member s)
      (membersTurn (d.relocate r.move) member' s') := by
  obtain ⟨hread, hfailed⟩ := hs
  have hleave : Simulates r levels (Sum.LiftRel (Members R) (Closed r R))
      (Parse.closeDelimiter >>= fun _ => Parse.fail) (Parse.closeDelimiter >>= fun _ => Parse.fail) :=
    closeDelimiter.bind fun _ _ _ => fail
  refine isAborted.bind fun aborted _ heq => heq ▸ ite Iff.rfl hleave ?_
  refine peek_bind (limits_bind (leaveUnclosed d ((r.endPos _).mpr rfl).symm)) fun t ht => ?_
  refine ite Iff.rfl ?_ (ite Iff.rfl ?_ ?_)
  · refine advance.bind fun _ _ _ => closeDelimiter.bind fun _ _ _ => pure (.inr ⟨?_, hfailed, ht, rfl⟩)
    exact List.forall₂_reverse_iff.mpr hread
  · refine (closesOuter _).bind fun outer _ heq => heq ▸ ite Iff.rfl (leaveUnclosed d rfl) ?_
    refine bind (report ?_) fun _ _ _ => advance.bind fun _ _ _ => pure (.inl ⟨hread, hfailed⟩)
    exact ⟨rfl, rfl, r.extent_refl _⟩
  · refine remaining.bind fun before before' hbefore => hm.attempt.bind fun o o' ho => ?_
    cases ho with
    | some ha => exact pure (.inl ⟨.cons ha hread, hfailed⟩)
    | none =>
      refine isAborted.bind fun aborted _ heq => heq ▸ ite Iff.rfl hleave ?_
      exact (recoverMember _ hbefore).bind fun _ _ _ => pure (.inl ⟨hread, rfl⟩)

/-- Groups that were read in both places. -/
def Grouped (r : Relocation) (R : α → α' → Prop) (out : List α × Pos) (out' : List α' × Pos) : Prop :=
  List.Forall₂ R out.1 out'.1 ∧ out'.2 = r.move out.2

lemma group (c : Construct) (hm : Simulates r levels R member member') (hread : Accounted r.env 1 member) :
    Simulates r levels (Grouped r R) (group c member) (group c member') := by
  refine (expect c.opening).bind fun opening opening' hopening => ?_
  obtain ⟨hknown, rfl⟩ := hopening
  intro st st' hst hdepth
  let d : Delimiter := ⟨c, opening.start⟩
  have hopened : r.State { st with delimiters := d :: st.delimiters }
      { st' with delimiters := d.relocate r.move :: st'.delimiters } :=
    hst.moved hst.rest (Nat.le_refl _) (by rw [hst.delimiters, List.map_cons])
  have hnone : Members R (([] : List α), false) (([] : List α'), false) := ⟨.nil, rfl⟩
  have hmembers := loop (members_turns hread d st.delimiters) (members_repeats d member)
    (members_repeats (d.relocate r.move) member') (fun s s' hs => membersTurn hm d hs)
    hnone hopened ⟨hst.enough, rfl⟩ hdepth
    (Nat.lt_succ_of_le hst.enough) (Nat.lt_succ_of_le hst.enough')
  refine hmembers.bind hdepth ?_
  rintro ⟨read, failed, closing⟩ ⟨read', failed', closing'⟩ ⟨hread, hfailed, hclosing, hmoved⟩
  dsimp only at hread hfailed hclosing hmoved
  subst hfailed hmoved
  have hempty : read.isEmpty = read'.isEmpty := by cases hread <;> rfl
  dsimp only
  rw [hempty]
  refine ite Iff.rfl (bind (report ?_) fun _ _ _ => pure ⟨hread, rfl⟩) (pure ⟨hread, rfl⟩)
  exact ⟨rfl, rfl, r.spans opening closing hknown hclosing⟩

lemma optionalGroup (c : Construct) (hm : Simulates r levels R member member')
    (hread : Accounted r.env 1 member) :
    Simulates r levels (List.Forall₂ R) (optionalGroup c member) (optionalGroup c member') :=
  nextIs_bind ((group c hm hread).bind fun _ _ h => pure h.1) (pure .nil)

end Simulates

end Parse

end GraphQL
