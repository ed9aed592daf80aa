import GraphQL.Proofs.Token.Cut
import GraphQL.Proofs.Token.Quote

/-!
Cutting a text that was written from tokens.

In front of something that it could not go on with, the text of a token is cut off as that token; and
ignored text in front of it changes nothing but its place.
-/

namespace GraphQL

namespace Token

lemma lexFrom_of_nil {here start : Nat} {cs : List Char} (h : skipIgnored false here cs = (start, [])) :
    lexFrom here cs = [] := by
  rw [lexFrom]
  split
  · rfl
  · rename_i hskip
    rw [h] at hskip
    cases hskip

lemma lexFrom_of_cons {here start : Nat} {cs ds : List Char} {c : Char}
    (h : skipIgnored false here cs = (start, c :: ds)) :
    lexFrom here cs =
      ⟨(extent (c :: ds)).1, String.ofList ((c :: ds).take (extent (c :: ds)).2), .ofOffset start⟩ ::
        lexFrom (start + byteLength ((c :: ds).take (extent (c :: ds)).2))
          ((c :: ds).drop (extent (c :: ds)).2) := by
  rw [lexFrom]
  split
  · rename_i hskip
    rw [h] at hskip
    cases hskip
  · rename_i hskip
    rw [h] at hskip
    cases hskip
    rw [byteLength_eq_utf8ByteSize]

/-- Ignored text moves the tokens behind it, and does nothing else. -/
lemma skipIgnored_append {behind gap : List Char} (h : IsGap behind gap) (here : Nat) :
    skipIgnored false here (gap ++ behind) = skipIgnored false (here + byteLength gap) behind := by
  induction h generalizing here with
  | nil => rfl
  | @ignored c gap isIgnored rest ih =>
    have hcomment : c ≠ '#' := by
      rintro rfl
      exact absurd isIgnored (by decide)
    rw [List.cons_append, skipIgnored, if_neg Bool.false_ne_true, if_neg hcomment, if_pos isIgnored, ih,
      byteLength_cons, Nat.add_assoc]
  | @comment body gap line ends rest ih =>
    have hbody : ∀ here, skipIgnored true here (body ++ (gap ++ behind)) =
        skipIgnored false (here + byteLength body) (gap ++ behind) := by
      clear ih
      induction body with
      | nil =>
        intro here
        cases hcs : gap ++ behind with
        | nil => rfl
        | cons c cs =>
          have hend : isLineEnd c = true := ends c (by rw [hcs]; rfl)
          have hcomment : c ≠ '#' := by
            rintro rfl
            exact absurd hend (by decide)
          rw [List.nil_append, skipIgnored, if_pos rfl, skipIgnored, if_neg Bool.false_ne_true,
            if_neg hcomment, if_pos (isIgnored_of_lineEnd hend), hend]
          rfl
      | cons c body ihbody =>
        intro here
        obtain ⟨hc, line⟩ := List.forall_mem_cons.mp line
        rw [List.cons_append, skipIgnored, if_pos rfl, hc, Bool.not_false, ihbody line, byteLength_cons,
          Nat.add_assoc]
    rw [List.cons_append, List.append_assoc, skipIgnored, if_neg Bool.false_ne_true, if_pos rfl, hbody, ih,
      byteLength_cons, byteLength_append]
    congr 1
    omega

/-- Tokens are cut from what is left behind ignored text. -/
lemma lexFrom_congr {here here' : Nat} {cs cs' : List Char}
    (h : skipIgnored false here cs = skipIgnored false here' cs') : lexFrom here cs = lexFrom here' cs' := by
  cases hrun : skipIgnored false here' cs' with
  | mk start ds =>
    rw [hrun] at h
    cases ds with
    | nil => rw [lexFrom_of_nil h, lexFrom_of_nil hrun]
    | cons c ds => rw [lexFrom_of_cons h, lexFrom_of_cons hrun]

lemma lexFrom_append {behind gap : List Char} (h : IsGap behind gap) (here : Nat) :
    lexFrom here (gap ++ behind) = lexFrom (here + byteLength gap) behind :=
  lexFrom_congr (skipIgnored_append h here)

/-- In front of `behind`, the text is cut off as one token. -/
structure IsSpelled (k : TokenKind) (cs behind : List Char) : Prop where
  starts : ∃ c ds, cs = c :: ds ∧ c ≠ '#' ∧ isIgnored c = false
  extent : extent (cs ++ behind) = (k, cs.length)

lemma IsSpelled.lexFrom {k : TokenKind} {cs behind : List Char} (h : IsSpelled k cs behind) (here : Nat) :
    lexFrom here (cs ++ behind) =
      ⟨k, String.ofList cs, .ofOffset here⟩ :: lexFrom (here + byteLength cs) behind := by
  obtain ⟨⟨c, ds, rfl, hcomment, hignored⟩, hextent⟩ := h
  have hskip : skipIgnored false here (c :: (ds ++ behind)) = (here, c :: (ds ++ behind)) := by
    rw [skipIgnored, if_neg Bool.false_ne_true, if_neg hcomment, hignored, if_neg Bool.false_ne_true]
  rw [List.cons_append] at hextent ⊢
  rw [lexFrom_of_cons hskip, hextent]
  simp

lemma isNameStart_of_digit {c : Char} (h : c.isDigit = true) : isNameStart c = false := by
  have hupper : c.isUpper = decide ('A'.val ≤ c.val ∧ c.val ≤ 'Z'.val) := rfl
  have hlower : c.isLower = (decide ('a'.val ≤ c.val) && decide (c.val ≤ 'z'.val)) := rfl
  have halpha : c.isAlpha = (c.isUpper || c.isLower) := rfl
  simp only [Char.isDigit, isNameStart, halpha, hupper, hlower, ge_iff_le, Bool.and_eq_true, decide_eq_true_eq,
    UInt32.le_iff_toNat_le, Bool.or_eq_false_iff, Bool.and_eq_false_iff, decide_eq_false_iff_not, Char.reduceVal,
    UInt32.reduceToNat] at h ⊢
  refine ⟨⟨by omega, by omega⟩, ?_⟩
  rintro rfl
  revert h
  decide

/-- A character that only a name or a number starts with. -/
def StartsWord (c : Char) : Prop := isNameStart c = true ∨ c = '-' ∨ c.isDigit = true

lemma StartsWord.extent {c : Char} (h : StartsWord c) (cs : List Char) :
    (c ≠ '#' ∧ isIgnored c = false) ∧ extent (c :: cs) =
      if isNameStart c then (.name, 1 + (cs.takeWhile isNamePart).length) else numberExtent (c :: cs) := by
  have hother : ∀ d ∈ ['!', '$', '(', ')', ':', '=', '@', '[', ']', '\x7b', '\x7d', '|', '.', '"', '#', ' ',
      '\t', '\n', '\r', ',', '\ufeff'], c ≠ d := by
    rintro d hd rfl
    revert h
    unfold StartsWord
    fin_cases hd <;> decide
  simp only [List.forall_mem_cons] at hother
  refine ⟨⟨by tauto, by simp [isIgnored]; tauto⟩, ?_⟩
  rw [Token.extent]
  · by_cases hstart : isNameStart c = true
    · rw [if_pos hstart, if_pos hstart]
    · rw [if_neg hstart, if_neg hstart, if_pos (by simpa using h.resolve_left hstart)]
  all_goals tauto

/-- What follows a token and does not belong to it, of whatever kind the token is. -/
def EndsToken (behind : List Char) : Prop :=
  ∀ c ∈ behind.head?, isNamePart c = false ∧ c ≠ '.' ∧ c ≠ '"'

namespace EndsToken

lemma cons {c : Char} (h : isNamePart c = false ∧ c ≠ '.' ∧ c ≠ '"') (behind : List Char) :
    EndsToken (c :: behind) := fun _ hd => Option.some.inj hd ▸ h

variable {cs behind : List Char}

lemma numberEnds (h : EndsToken behind) : NumberEnds behind := fun c hc => ⟨(h c hc).1, (h c hc).2.1⟩

lemma name (h : EndsToken behind) (hcs : Lexeme.IsName cs) : IsSpelled .name cs behind := by
  obtain @⟨c, cs, start, more⟩ := hcs
  obtain ⟨hhead, hextent⟩ := StartsWord.extent (.inl start) (cs ++ behind)
  have htake : (cs ++ behind).takeWhile isNamePart = cs := by
    rw [List.takeWhile_append_of_pos more]
    cases behind with
    | nil => simp
    | cons d behind => rw [List.takeWhile_cons_of_neg (by simp [(h d rfl).1]), List.append_nil]
  refine ⟨⟨c, cs, rfl, hhead⟩, ?_⟩
  rw [List.cons_append, hextent, if_pos start, htake, List.length_cons, Nat.add_comm]

lemma number {k : TokenKind} (hextent : numberExtent (cs ++ behind) = (k, cs.length))
    (hcs : ∃ c ds, cs = c :: ds ∧ (c = '-' ∨ c.isDigit = true)) : IsSpelled k cs behind := by
  obtain ⟨c, ds, rfl, hc⟩ := hcs
  obtain ⟨hhead, hword⟩ := StartsWord.extent (.inr hc) (ds ++ behind)
  have hname : isNameStart c = false := by
    rcases hc with rfl | hc
    · decide
    · exact isNameStart_of_digit hc
  refine ⟨⟨c, ds, rfl, hhead⟩, ?_⟩
  rw [List.cons_append, hword, hname, if_neg Bool.false_ne_true, ← List.cons_append, hextent]

lemma int (h : EndsToken behind) (hcs : Lexeme.IsInt cs) : IsSpelled .int cs behind :=
  number (numberExtent_int hcs h.numberEnds) hcs.starts

lemma float (h : EndsToken behind) (hcs : Lexeme.IsFloat cs) : IsSpelled .float cs behind :=
  number (numberExtent_float hcs h.numberEnds) hcs.starts

lemma quoted (h : EndsToken behind) (text : String) :
    IsSpelled .string (StringLiteral.quote text).toList behind := by
  have hquoted : (StringLiteral.quote text).toList =
      '"' :: (text.toList.flatMap StringLiteral.quoteChar ++ ['"']) := String.toList_ofList
  have hblock := StringLiteral.quoted_not_block text.toList behind fun c hc => (h c hc).2.2
  rw [hquoted]
  refine ⟨⟨'"', _, rfl, by decide⟩, ?_⟩
  rw [List.cons_append, List.append_assoc, List.singleton_append, Token.extent, stringExtent_quoted]
  · simp
    omega
  · rintro cs heq
    exact hblock ⟨cs, by rw [heq]; rfl⟩

end EndsToken

/-- Punctuators are cut off in front of anything. -/
lemma isSpelled_punctuator {c : Char} {k : TokenKind} (hk : k.spelling? = some (String.singleton c))
    (behind : List Char) : IsSpelled k [c] behind := by
  have hchars : k.spelling?.map String.toList = some [c] := by rw [hk]; simp
  cases k <;> simp [TokenKind.spelling?] at hchars <;> subst hchars <;>
    exact ⟨⟨_, _, rfl, by decide, by decide⟩, rfl⟩

end Token

end GraphQL
