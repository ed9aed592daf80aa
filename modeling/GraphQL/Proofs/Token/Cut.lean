import GraphQL.Proofs.Token.Lexeme

/-!
What cutting does with every character of a source.

A source is ignored text and tokens in turn. A token holds the characters that stand at its place, in
the grammar of its kind, and what stands between two tokens is blanks, commas, line ends and comments.
-/

namespace GraphQL

/-- Ignored text in front of `behind`. A comment goes up to the end of its line, or of the source. -/
inductive IsGap (behind : List Char) : List Char → Prop where
  | nil : IsGap behind []
  | ignored (isIgnored : isIgnored c = true) (rest : IsGap behind gap) : IsGap behind (c :: gap)
  | comment (line : ∀ c ∈ body, isLineEnd c = false)
      (ends : ∀ c ∈ (gap ++ behind).head?, isLineEnd c = true) (rest : IsGap behind gap) :
      IsGap behind ('#' :: (body ++ gap))

lemma isIgnored_of_lineEnd {c : Char} (h : isLineEnd c = true) : isIgnored c = true := by
  rcases isLineEnd_iff.mp h with rfl | rfl <;> decide

/-- From a place on, ignored text is skipped, up to another place and what stands there. -/
def SkipsGap (here : Nat) (cs : List Char) (there : Nat × List Char) : Prop :=
  ∃ gap, cs = gap ++ there.2 ∧ IsGap there.2 gap ∧ there.1 = here + byteLength gap

/-- The rest of a comment is skipped, up to the end of its line, and then ignored text. -/
def SkipsComment (here : Nat) (cs : List Char) (there : Nat × List Char) : Prop :=
  ∃ body gap, cs = body ++ (gap ++ there.2) ∧ (∀ c ∈ body, isLineEnd c = false) ∧
    (∀ c ∈ (gap ++ there.2).head?, isLineEnd c = true) ∧ IsGap there.2 gap ∧
    there.1 = here + byteLength body + byteLength gap

section

variable {here : Nat} {c : Char} {cs : List Char} {there : Nat × List Char}

lemma SkipsGap.ignored (hc : isIgnored c = true) (h : SkipsGap (here + c.utf8Size) cs there) :
    SkipsGap here (c :: cs) there := by
  obtain ⟨gap, hcs, hgap, hplace⟩ := h
  refine ⟨c :: gap, congrArg (c :: ·) hcs, .ignored hc hgap, ?_⟩
  rw [hplace, byteLength_cons]
  omega

lemma SkipsComment.opened (h : SkipsComment (here + '#'.utf8Size) cs there) :
    SkipsGap here ('#' :: cs) there := by
  obtain ⟨body, line, hcs, hbody, hends, hline, hplace⟩ := h
  refine ⟨'#' :: (body ++ line), ?_, .comment hbody hends hline, ?_⟩
  · rw [List.cons_append, List.append_assoc, ← hcs]
  · rw [hplace, byteLength_cons, byteLength_append]
    omega

lemma SkipsGap.lineEnd (hc : isLineEnd c = true) (h : SkipsGap (here + c.utf8Size) cs there) :
    SkipsComment here (c :: cs) there := by
  obtain ⟨gap, hcs, hgap, hplace⟩ := h
  have hignored : IsGap there.2 (c :: gap) := .ignored (isIgnored_of_lineEnd hc) hgap
  refine ⟨[], c :: gap, congrArg (c :: ·) hcs, by simp, by simp [hc], hignored, ?_⟩
  rw [hplace, byteLength_cons, byteLength_nil]
  omega

lemma SkipsComment.cons (hc : isLineEnd c = false) (h : SkipsComment (here + c.utf8Size) cs there) :
    SkipsComment here (c :: cs) there := by
  obtain ⟨body, line, hcs, hbody, hends, hline, hplace⟩ := h
  refine ⟨c :: body, line, congrArg (c :: ·) hcs, List.forall_mem_cons.mpr ⟨hc, hbody⟩, hends, hline, ?_⟩
  rw [hplace, byteLength_cons]
  omega

end

/-- What is skipped in front of a token is ignored text. Within a comment, it goes on with the rest of
the comment. -/
lemma skipIgnored_gap (here : Nat) (cs : List Char) :
    SkipsGap here cs (skipIgnored false here cs) ∧ SkipsComment here cs (skipIgnored true here cs) := by
  induction cs generalizing here with
  | nil => exact ⟨⟨[], rfl, .nil, rfl⟩, [], [], rfl, by simp, by simp [skipIgnored], .nil, rfl⟩
  | cons c cs ih =>
    obtain ⟨hgap, hcomment⟩ := ih (here + c.utf8Size)
    constructor
    · rw [skipIgnored, if_neg Bool.false_ne_true]
      by_cases hopens : c = '#'
      · subst hopens
        exact hcomment.opened
      · rw [if_neg hopens]
        by_cases hblank : isIgnored c = true
        · rw [if_pos hblank]
          exact hgap.ignored hblank
        · rw [if_neg hblank]
          exact ⟨[], rfl, .nil, rfl⟩
    · rw [skipIgnored, if_pos rfl]
      cases hend : isLineEnd c with
      | true => exact hgap.lineEnd hend
      | false => exact hcomment.cons hend

namespace Token

/-- A text as ignored text and tokens in turn; its first character is `here` bytes into the source. -/
inductive IsCut : Nat → List Char → List Token → Prop where
  | done (gap : IsGap [] cs) : IsCut here cs []
  | token (gap : IsGap (cs ++ behind) front) (nonempty : cs ≠ []) (spells : TokenKind.Spells k cs)
      (rest : IsCut (here + byteLength (front ++ cs)) behind ts) :
      IsCut here (front ++ (cs ++ behind)) (⟨k, String.ofList cs, ⟨here + byteLength front⟩⟩ :: ts)

/-- The grammar of the kind holds for what is cut off. -/
lemma extent_spells (c : Char) (cs : List Char) :
    (extent (c :: cs)).1.Spells ((c :: cs).take (extent (c :: cs)).2) := by
  generalize h : c :: cs = ds
  fun_cases extent ds
  case case1 => simp at h
  case case15 cs =>
    obtain ⟨k, hk, hscan⟩ := blockExtent_scan cs 3
    rw [hk, Nat.add_comm]
    exact ⟨_, _, rfl, hscan⟩
  case case16 cs _ =>
    obtain ⟨k, hk, hscan⟩ := stringExtent_scan cs 1
    rw [hk, Nat.add_comm]
    exact ⟨_, _, rfl, hscan⟩
  case case17 c cs _ _ hstart =>
    rw [Nat.add_comm, List.take_succ_cons, ← List.prefix_iff_eq_take.mp (List.takeWhile_prefix isNamePart)]
    exact .mk hstart (List.all_eq_true.mp List.all_takeWhile)
  case case18 =>
    rename_i hnumber
    obtain ⟨rfl, rfl⟩ := List.cons.inj h
    by_cases hkind : (numberExtent (c :: cs)).1 = .unknown
    · rw [hkind]
      have hpos : 0 < (numberExtent (c :: cs)).2 := numberExtent_pos (by simpa using hnumber)
      simpa [TokenKind.Spells] using Nat.ne_of_gt hpos
    · exact numberExtent_spells _ hkind
  all_goals simp [TokenKind.Spells, TokenKind.spelling?]

lemma lexFrom_isCut (here : Nat) (cs : List Char) (h : here + byteLength cs ≤ Pos.maxOffset) :
    IsCut here cs (lexFrom here cs) := by
  fun_induction lexFrom here cs with
  | case1 here cs start hskip =>
    obtain ⟨gap, hcs, hgap, -⟩ := (skipIgnored_gap here cs).1
    rw [hskip, List.append_nil] at hcs
    rw [hskip] at hgap
    exact .done (hcs ▸ hgap)
  | case2 here cs start c ds hskip e text ih =>
    obtain ⟨gap, hcs, hgap, hplace⟩ := (skipIgnored_gap here cs).1
    rw [hskip] at hcs hgap hplace
    dsimp only at hcs hgap hplace
    have hsplit : (c :: ds).take e.2 ++ (c :: ds).drop e.2 = c :: ds := List.take_append_drop ..
    have htext : text.utf8ByteSize = byteLength ((c :: ds).take e.2) :=
      (byteLength_eq_utf8ByteSize _).symm
    have hlength : byteLength cs = byteLength gap + byteLength (c :: ds) := by
      rw [hcs, byteLength_append]
    have hpos : 0 < e.2 := extent_pos c ds
    have hstart : Pos.ofOffset start = ⟨here + byteLength gap⟩ := by
      rw [hplace, Pos.ofOffset, Nat.min_eq_left (by omega)]
    rw [hcs, ← hsplit, hstart]
    refine .token (hsplit.symm ▸ hgap) (by simpa using Nat.ne_of_gt hpos) (extent_spells c ds) ?_
    have hnext : start + text.utf8ByteSize = here + byteLength (gap ++ (c :: ds).take e.2) := by
      rw [hplace, htext, byteLength_append, Nat.add_assoc]
    rw [← hnext, hsplit]
    refine ih ?_
    have := byteLength_take_drop e.2 (c :: ds)
    omega

/-- `t` is the text that stands at its place in the source. -/
def IsSliceOf (t : Token) (source : List Char) : Prop :=
  ∃ front behind, source = front ++ t.text.toList ++ behind ∧ t.start.offset = byteLength front

lemma IsCut.member (before : List Char) {cs : List Char} {ts : List Token}
    (h : IsCut (byteLength before) cs ts)
    {t : Token} (ht : t ∈ ts) :
    t.text.toList ≠ [] ∧ t.kind.Spells t.text.toList ∧ t.IsSliceOf (before ++ cs) := by
  generalize hhere : byteLength before = here at h
  induction h generalizing before with
  | done gap => simp at ht
  | @token text behind front k here ts gap nonempty spells rest ih =>
    rcases List.mem_cons.mp ht with rfl | ht
    · rw [String.toList_ofList]
      refine ⟨nonempty, spells, before ++ front, behind, ?_, ?_⟩
      · rw [String.toList_ofList, List.append_assoc, List.append_assoc]
      · rw [byteLength_append, hhere]
    · have hmember := ih (before ++ (front ++ text)) ht (by rw [byteLength_append before, hhere])
      simpa only [List.append_assoc] using hmember

lemma IsCut.ordered {here : Nat} {cs : List Char} {ts : List Token} (h : IsCut here cs ts) :
    (∀ t ∈ ts, here ≤ t.start.offset) ∧
      ts.Pairwise fun t u => t.start.offset + t.text.utf8ByteSize ≤ u.start.offset := by
  induction h with
  | done gap => simp
  | @token text behind front k here ts gap nonempty spells rest ih =>
    obtain ⟨hstarts, hpairs⟩ := ih
    rw [byteLength_append, byteLength_eq_utf8ByteSize text, ← Nat.add_assoc] at hstarts
    refine ⟨List.forall_mem_cons.mpr ⟨Nat.le_add_right .., fun t ht => ?_⟩, ?_⟩
    · have := hstarts t ht
      omega
    · exact List.pairwise_cons.mpr ⟨hstarts, hpairs⟩

/-- **Cutting loses nothing.** The source is its tokens, in their order, with ignored text between
them; and each token is a nonempty text in the grammar of its kind, at its own place. -/
theorem lex_isCut (source : List Char) (h : byteLength source ≤ Pos.maxOffset) :
    IsCut 0 source (lex source) ∧
      (∀ t ∈ lex source, t.text.toList ≠ [] ∧ t.kind.Spells t.text.toList ∧ t.IsSliceOf source) ∧
      (lex source).Pairwise fun t u => t.start.offset + t.text.utf8ByteSize ≤ u.start.offset := by
  have hcut : IsCut 0 source (lex source) := lexFrom_isCut 0 source (by omega)
  refine ⟨hcut, fun t ht => ?_, hcut.ordered.2⟩
  exact IsCut.member [] hcut ht

/-- The theorem at a source with a comment, a comma and a number. -/
theorem lex_isCut_of_sample :
    byteLength "a # é \"\n,-1.5e3".toList ≤ Pos.maxOffset ∧
      IsCut 0 "a # é \"\n,-1.5e3".toList
        [⟨.name, "a", ⟨0⟩⟩, ⟨.float, "-1.5e3", ⟨10⟩⟩] := by
  have hlength : byteLength "a # é \"\n,-1.5e3".toList ≤ Pos.maxOffset := by decide +kernel
  have hlex : lex "a # é \"\n,-1.5e3".toList = [⟨.name, "a", ⟨0⟩⟩, ⟨.float, "-1.5e3", ⟨10⟩⟩] := by
    decide +kernel
  exact ⟨hlength, hlex ▸ (lex_isCut _ hlength).1⟩

end Token

end GraphQL
