import GraphQL.Proofs.Token.Joined

/-!
Numbers in front of what may follow them.

A number is cut off whole, and what stands behind it has the tokens that it would have alone. In front
of a spread there is a difference between the two kinds: an integer stays one, and a float becomes an
unknown token, as the scan takes the first point of the spread for a second point of the number. The
malformed number that it sees then is cut back to the spread.
-/

namespace GraphQL

/-- The place `n` bytes further on, or the last place there is. -/
def Pos.further (n : Nat) (p : Pos) : Pos := .ofOffset (p.offset + n)

lemma Pos.ofOffset_further (m n : Nat) : Pos.ofOffset (m + n) = (Pos.ofOffset m).further n := by
  unfold Pos.further Pos.ofOffset
  congr 1
  dsimp only
  omega

/-! ### The parts of a number -/

namespace Lexeme

lemma IsFloat.not_isInt {cs : List Char} (h : IsFloat cs) : ¬ IsInt cs := fun hint => by
  have hends : Token.NumberEnds [] := nofun
  have hkinds := (Token.numberExtent_int hint hends).symm.trans (Token.numberExtent_float h hends)
  cases congrArg Prod.fst hkinds

/-- A character of a number, points apart. -/
def IsPlain (c : Char) : Prop := Token.isNumberLike c = true ∧ c ≠ '.'

lemma isPlain_of_digit {c : Char} (h : c.isDigit = true) : IsPlain c := by
  refine ⟨by simp [Token.isNumberLike, Char.isAlphanum, h], ?_⟩
  rintro rfl
  revert h
  decide

lemma IsInt.isPlain {cs : List Char} (h : IsInt cs) : ∀ c ∈ cs, IsPlain c := by
  obtain ⟨s, ds, hs, hds, rfl⟩ := isInt_iff.mp h
  intro c hc
  rcases List.mem_append.mp hc with hc | hc
  · rcases hs with rfl | rfl
    · cases hc
    · obtain rfl := List.mem_singleton.mp hc
      exact ⟨by decide, by decide⟩
  · exact isPlain_of_digit (hds.isDigits.1.2 c hc)

lemma IsExponent.isPlain {cs : List Char} (h : IsExponent cs) : ∀ c ∈ cs, IsPlain c := by
  obtain @⟨m, s, ds, hmark, hsign, hdigits⟩ := h
  intro c hc
  rcases List.mem_cons.mp hc with rfl | hc
  · rcases hmark with rfl | rfl <;> exact ⟨by decide, by decide⟩
  rcases List.mem_append.mp hc with hc | hc
  · have hc : c = '+' ∨ c = '-' := by
      rcases hsign with rfl | rfl | rfl <;> simp_all
    rcases hc with rfl | rfl <;> exact ⟨by decide, by decide⟩
  · exact isPlain_of_digit (hdigits.2 c hc)

end Lexeme

namespace Token

open Lexeme

/-- Wherever a text stands, its tokens are cut in the same way. -/
lemma lexFrom_further (here n : Nat) (cs : List Char) :
    lexFrom (here + n) cs = (lexFrom here cs).map (Token.relocate (Pos.further n)) :=
  lexFrom_moved here n cs fun m _ => Pos.ofOffset_further m n

/-! ### In front of a spread -/

/-- A spread. -/
def spread : List Char := ['.', '.', '.']

lemma spread_partsEnd (more : List Char) : PartsEnd (spread ++ more) where
  digit := by simp [spread]
  fraction := rfl
  exponent := rfl

lemma beforeEllipsis_plain {cs : List Char} (h : ∀ c ∈ cs, IsPlain c) (more : List Char) :
    beforeEllipsis (cs ++ more) = cs ++ beforeEllipsis more := by
  induction cs with
  | nil => rfl
  | cons c cs ih =>
    obtain ⟨hc, hcs⟩ := List.forall_mem_cons.mp h
    rw [List.cons_append, beforeEllipsis, ih hcs, List.cons_append]
    rintro ds rfl
    exact absurd rfl hc.2

/-- There are no two points in a row in a number, so the first three are those of the spread. -/
lemma beforeEllipsis_number {a b c : List Char} (ha : IsInt a) (hb : b = [] ∨ IsFraction b)
    (hc : c = [] ∨ IsExponent c) (more : List Char) :
    beforeEllipsis (a ++ (b ++ c) ++ (spread ++ more)) = a ++ (b ++ c) := by
  have hexponent : beforeEllipsis (c ++ (spread ++ more)) = c := by
    rcases hc with rfl | hc
    · rfl
    · rw [beforeEllipsis_plain hc.isPlain]
      exact List.append_nil c
  rw [List.append_assoc, beforeEllipsis_plain ha.isPlain, List.append_assoc]
  congr 1
  rcases hb with rfl | @⟨ds, hne, hds⟩
  · exact hexponent
  · have hplain : ∀ d ∈ ds, IsPlain d := fun d hd => isPlain_of_digit (hds d hd)
    rw [List.cons_append, beforeEllipsis, beforeEllipsis_plain hplain, hexponent, List.cons_append]
    -- what stands behind the point of the fraction is a digit
    obtain ⟨d, ds, rfl⟩ := List.exists_cons_of_ne_nil hne
    rintro es - h
    obtain rfl : d = '.' := (List.cons.inj h).1
    exact absurd (hds '.' List.mem_cons_self) (by decide)

lemma isNumberLike_number {a b c : List Char} (ha : IsInt a) (hb : b = [] ∨ IsFraction b)
    (hc : c = [] ∨ IsExponent c) : ∀ d ∈ a ++ (b ++ c) ++ spread, isNumberLike d = true := by
  simp only [List.mem_append]
  rintro d ((hd | hd | hd) | hd)
  · exact (ha.isPlain d hd).1
  · rcases hb with rfl | ⟨-, hds⟩
    · cases hd
    · rcases List.mem_cons.mp hd with rfl | hd
      · rfl
      · exact (isPlain_of_digit (hds d hd)).1
  · rcases hc with rfl | hc
    · cases hd
    · exact (hc.isPlain d hd).1
  · obtain rfl : d = '.' := by simpa [spread] using hd
    rfl

/-- A malformed number in front of a spread is cut back to where the spread starts. -/
lemma malformedExtent_spread {a b c : List Char} (ha : IsInt a) (hb : b = [] ∨ IsFraction b)
    (hc : c = [] ∨ IsExponent c) (more : List Char) :
    malformedExtent (a ++ (b ++ c) ++ (spread ++ more)) = (a ++ (b ++ c)).length := by
  rw [malformedExtent, ← List.append_assoc, List.takeWhile_append_of_pos (isNumberLike_number ha hb hc),
    List.append_assoc _ spread, beforeEllipsis_number ha hb hc]

lemma numberExtent_int_spread {n : List Char} (hn : IsInt n) (more : List Char) :
    numberExtent (n ++ (spread ++ more)) = (.int, n.length) := by
  simpa [runsOn, spread, isNameStart] using
    numberExtent_parts hn (.inl rfl) (.inl rfl) (spread_partsEnd more)

lemma numberExtent_float_spread {n : List Char} (hn : IsFloat n) (more : List Char) :
    numberExtent (n ++ (spread ++ more)) = (.unknown, n.length) := by
  obtain ⟨a, b, c, ha, hb, hc, hne, rfl⟩ := isFloat_iff.mp hn
  have hfloat : ((b ++ c).length != 0) = true := by simpa using hne
  rw [numberExtent_parts ha hb hc (spread_partsEnd more), hfloat, malformedExtent_spread ha hb hc]
  rfl

/-! ### Tokens -/

/-- **A number is one token**, up to the end of its text, in front of nothing, of a spread and of any
character that is no digit, letter, underscore or point; the tokens behind it are those of what follows,
further on. Its kind is that of its grammar, except for a float in front of a spread. -/
theorem lex_number {n t : List Char} (hn : IsInt n ∨ IsFloat n) (ht : NumberEnds t ∨ spread <+: t) :
    ∃ k, lex (n ++ t) =
        ⟨k, String.ofList n, .start⟩ :: (lex t).map (Token.relocate (Pos.further (byteLength n))) ∧
      (IsInt n → k = .int) ∧ (IsFloat n → k = if spread <+: t then .unknown else .float) := by
  obtain ⟨k, hextent, hint, hfloat⟩ : ∃ k, numberExtent (n ++ t) = (k, n.length) ∧ (IsInt n → k = .int) ∧
      (IsFloat n → k = if spread <+: t then .unknown else .float) := by
    by_cases hspread : spread <+: t
    · rw [if_pos hspread]
      obtain ⟨more, rfl⟩ := hspread
      rcases hn with hn | hn
      · exact ⟨_, numberExtent_int_spread hn more, fun _ => rfl, fun h => absurd hn h.not_isInt⟩
      · exact ⟨_, numberExtent_float_spread hn more, fun h => absurd h hn.not_isInt, fun _ => rfl⟩
    · have hends := ht.resolve_right hspread
      rw [if_neg hspread]
      rcases hn with hn | hn
      · exact ⟨_, numberExtent_int hn hends, fun _ => rfl, fun h => absurd hn h.not_isInt⟩
      · exact ⟨_, numberExtent_float hn hends, fun h => absurd h hn.not_isInt, fun _ => rfl⟩
  have hspelled : IsSpelled k n t := EndsToken.number hextent (hn.elim IsInt.starts IsFloat.starts)
  refine ⟨k, ?_, hint, hfloat⟩
  rw [lex, hspelled.lexFrom, lex, lexFrom_further]
  rfl

/-- In front of a closing parenthesis. -/
theorem lex_number_of_argument :
    (IsInt "-1.5e3".toList ∨ IsFloat "-1.5e3".toList) ∧ ∃ k, lex "-1.5e3) x".toList =
        ⟨k, "-1.5e3", .start⟩ :: (lex ") x".toList).map (Token.relocate (Pos.further 6)) ∧
      (IsInt "-1.5e3".toList → k = .int) ∧
      (IsFloat "-1.5e3".toList → k = if spread <+: ") x".toList then .unknown else .float) := by
  have hint : IsInt ['-', '1'] := .minus (.mk rfl (by decide) (by simp))
  have hfraction : IsFraction ['.', '5'] := .mk ⟨by simp, by simp⟩
  have hexponent : IsExponent ('e' :: ([] ++ ['3'])) := .mk (.inl rfl) (.inl rfl) ⟨by simp, by simp⟩
  have hfloat : IsFloat "-1.5e3".toList := .both hint hfraction hexponent
  have hends : NumberEnds ") x".toList := by
    rintro c ⟨⟩
    exact ⟨by decide, by decide⟩
  exact ⟨.inr hfloat, lex_number (n := "-1.5e3".toList) (t := ") x".toList) (.inr hfloat) (.inl hends)⟩

/-- A float in front of a spread is not taken for one. -/
theorem float_before_spread :
    IsFloat "1.5".toList ∧
      lex "1.5...".toList = [⟨.unknown, "1.5", ⟨0⟩⟩, ⟨.ellipsis, "...", ⟨3⟩⟩] := by
  have hint : IsInt ['1'] := .plain (.mk rfl (by decide) (by simp))
  have hfraction : IsFraction ['.', '5'] := .mk ⟨by simp, by simp⟩
  exact ⟨.fraction hint hfraction, by decide +kernel⟩

end Token

end GraphQL
