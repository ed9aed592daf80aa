import GraphQL.Proofs.Token.StringEnd

/-!
What the texts of tokens look like.

Each kind of token has a grammar of its own, told without the scan that finds where a token ends. The
scan of a number tries its parts one behind the other; what it takes for a part is one, and a part that
stands there is taken whole.
-/

namespace GraphQL

namespace Lexeme

/-- A letter or an underscore, and then letters, digits and underscores. -/
inductive IsName : List Char → Prop where
  | mk (start : isNameStart c = true) (more : ∀ d ∈ cs, isNamePart d = true) : IsName (c :: cs)

instance : DecidablePred IsName
  | [] => isFalse nofun
  | c :: cs =>
    decidable_of_iff (isNameStart c = true ∧ cs.all isNamePart = true)
      ⟨fun h => .mk h.1 (List.all_eq_true.mp h.2), fun | .mk start more => ⟨start, List.all_eq_true.mpr more⟩⟩

def IsDigits (cs : List Char) : Prop := cs ≠ [] ∧ ∀ c ∈ cs, c.isDigit = true

/-- Digits with no zero in front of others. -/
inductive IsWhole : List Char → Prop where
  | zero : IsWhole ['0']
  | mk (first : c.isDigit = true) (nonzero : c ≠ '0') (more : ∀ d ∈ cs, d.isDigit = true) :
      IsWhole (c :: cs)

inductive IsInt : List Char → Prop where
  | plain (whole : IsWhole cs) : IsInt cs
  | minus (whole : IsWhole cs) : IsInt ('-' :: cs)

inductive IsFraction : List Char → Prop where
  | mk (digits : IsDigits cs) : IsFraction ('.' :: cs)

inductive IsExponent : List Char → Prop where
  | mk (mark : c = 'e' ∨ c = 'E') (sign : s = [] ∨ s = ['+'] ∨ s = ['-']) (digits : IsDigits cs) :
      IsExponent (c :: (s ++ cs))

/-- An integer with a fraction, an exponent, or both. -/
inductive IsFloat : List Char → Prop where
  | fraction (int : IsInt a) (frac : IsFraction b) : IsFloat (a ++ b)
  | exponent (int : IsInt a) (exp : IsExponent b) : IsFloat (a ++ b)
  | both (int : IsInt a) (frac : IsFraction b) (exp : IsExponent c) : IsFloat (a ++ b ++ c)

lemma isWhole_of_digits {ds : List Char} (h : IsDigits ds) (hzero : ds.head? = some '0' → ds.length ≤ 1) :
    IsWhole ds := by
  obtain ⟨hne, hds⟩ := h
  obtain ⟨c, cs, rfl⟩ := List.exists_cons_of_ne_nil hne
  obtain ⟨hc, hcs⟩ := List.forall_mem_cons.mp hds
  by_cases h0 : c = '0'
  · subst h0
    obtain rfl : cs = [] := by simpa using hzero rfl
    exact .zero
  · exact .mk hc h0 hcs

lemma IsWhole.isDigits {ds : List Char} (h : IsWhole ds) :
    IsDigits ds ∧ (ds.head? = some '0' → ds.length ≤ 1) := by
  cases h with
  | zero => exact ⟨⟨by simp, List.forall_mem_singleton.mpr rfl⟩, by simp⟩
  | mk first nonzero more =>
    exact ⟨⟨by simp, List.forall_mem_cons.mpr ⟨first, more⟩⟩, by simp [nonzero]⟩

/-- A minus sign or nothing. -/
def IsMinus (s : List Char) : Prop := s = [] ∨ s = ['-']

lemma isInt_iff {cs : List Char} : IsInt cs ↔ ∃ s ds, IsMinus s ∧ IsWhole ds ∧ cs = s ++ ds := by
  constructor
  · rintro (h | h)
    · exact ⟨[], _, .inl rfl, h, rfl⟩
    · exact ⟨['-'], _, .inr rfl, h, rfl⟩
  · rintro ⟨s, ds, rfl | rfl, h, rfl⟩
    · exact .plain h
    · exact .minus h

lemma IsInt.starts {cs : List Char} (h : IsInt cs) :
    ∃ c ds, cs = c :: ds ∧ (c = '-' ∨ c.isDigit = true) := by
  rcases h with h | h
  · cases h with
    | zero => exact ⟨'0', [], rfl, .inr rfl⟩
    | mk first nonzero more => exact ⟨_, _, rfl, .inr first⟩
  · exact ⟨'-', _, rfl, .inl rfl⟩

lemma IsFraction.ne_nil {cs : List Char} (h : IsFraction cs) : cs ≠ [] := by
  rintro rfl
  cases h

lemma IsExponent.ne_nil {cs : List Char} (h : IsExponent cs) : cs ≠ [] := by
  rintro rfl
  cases h

lemma isFloat_iff {cs : List Char} : IsFloat cs ↔ ∃ a b c, IsInt a ∧ (b = [] ∨ IsFraction b) ∧
    (c = [] ∨ IsExponent c) ∧ b ++ c ≠ [] ∧ cs = a ++ (b ++ c) := by
  constructor
  · rintro (⟨int, frac⟩ | ⟨int, exp⟩ | ⟨int, frac, exp⟩)
    · exact ⟨_, _, [], int, .inr frac, .inl rfl, by simp [frac.ne_nil], by simp⟩
    · exact ⟨_, [], _, int, .inl rfl, .inr exp, exp.ne_nil, rfl⟩
    · exact ⟨_, _, _, int, .inr frac, .inr exp, by simp [frac.ne_nil], by simp⟩
  · rintro ⟨a, b, c, int, rfl | frac, rfl | exp, hne, rfl⟩
    · exact absurd rfl hne
    · exact .exponent int exp
    · rw [List.append_nil]
      exact .fraction int frac
    · rw [← List.append_assoc]
      exact .both int frac exp

lemma IsFloat.starts {cs : List Char} (h : IsFloat cs) :
    ∃ c ds, cs = c :: ds ∧ (c = '-' ∨ c.isDigit = true) := by
  obtain ⟨a, b, c, int, -, -, -, rfl⟩ := isFloat_iff.mp h
  obtain ⟨d, ds, rfl, hd⟩ := int.starts
  exact ⟨d, _, rfl, hd⟩

end Lexeme

open Token (QuotedScan BlockScan) in
/-- The texts that a token of a kind may have. -/
def TokenKind.Spells (k : TokenKind) (cs : List Char) : Prop :=
  match k with
  | .name => Lexeme.IsName cs
  | .int => Lexeme.IsInt cs
  | .float => Lexeme.IsFloat cs
  | .string => ∃ body b, cs = '"' :: body ∧ QuotedScan body b
  | .blockString => ∃ body b, cs = StringLiteral.tripleQuote ++ body ∧ BlockScan body b
  | .unknown => cs ≠ []
  | k => k.spelling? = some (String.ofList cs)

namespace Token

open Lexeme

/-! ### Numbers -/

lemma take_digits (cs : List Char) : cs.take (digits cs) = cs.takeWhile Char.isDigit :=
  (List.prefix_iff_eq_take.mp (List.takeWhile_prefix Char.isDigit)).symm

lemma isDigits_take {cs : List Char} (h : digits cs ≠ 0) : IsDigits (cs.take (digits cs)) := by
  rw [take_digits]
  refine ⟨fun hnil => h ?_, List.all_eq_true.mp List.all_takeWhile⟩
  rw [digits, hnil, List.length_nil]

/-- Digits that stand in front of something else are all counted. -/
lemma digits_append {ds more : List Char} (hds : ∀ c ∈ ds, c.isDigit = true)
    (hmore : ∀ c ∈ more.head?, c.isDigit = false) : digits (ds ++ more) = ds.length := by
  rw [digits, List.takeWhile_append_of_pos hds]
  cases more with
  | nil => simp
  | cons c more =>
    rw [List.takeWhile_cons_of_neg (by simp [hmore c rfl]), List.append_nil]

lemma fractionExtent_spells (cs : List Char) :
    fractionExtent cs = 0 ∨ IsFraction (cs.take (fractionExtent cs)) := by
  unfold fractionExtent
  split
  · split_ifs with h
    · exact .inl rfl
    · rw [Nat.add_comm]
      exact .inr (.mk (isDigits_take h))
  · exact .inl rfl

lemma exponentExtent_spells {cs : List Char} {n : Nat} (h : exponentExtent? cs = some n) :
    n = 0 ∨ IsExponent (cs.take n) := by
  unfold exponentExtent? at h
  split at h
  · rename_i c cs
    split at h
    · rename_i hmark
      extract_lets sign count at h
      have hsign : cs.take sign = [] ∨ cs.take sign = ['+'] ∨ cs.take sign = ['-'] := by
        cases cs with
        | nil => simp
        | cons d ds =>
          by_cases hd : d = '+' ∨ d = '-'
          · exact .inr (by simp [sign, hd])
          · exact .inl (by simp [sign, not_or.mp hd])
      split at h
      · exact absurd h (by simp)
      · rename_i hcount
        obtain rfl := Option.some.inj h
        rw [Nat.add_assoc, Nat.add_comm 1, List.take_succ_cons, List.take_add]
        exact .inr (.mk (by simpa using hmark) hsign (isDigits_take hcount))
    · exact .inl (Option.some.inj h).symm
  · exact .inl (Option.some.inj h).symm

def signExtent (cs : List Char) : Nat := if cs.head? = some '-' then 1 else 0

/-- What the scan of a number does behind its whole part. -/
def afterWhole (cs : List Char) (whole : Nat) : TokenKind × Nat :=
  let fraction := fractionExtent (cs.drop whole)
  match exponentExtent? (cs.drop (whole + fraction)) with
  | none => (.unknown, malformedExtent cs)
  | some exponent =>
    let extent := whole + fraction + exponent
    let isFloat := fraction + exponent != 0
    if runsOn isFloat (cs.drop extent) then (.unknown, malformedExtent cs)
    else (if isFloat then .float else .int, extent)

lemma numberExtent_eq {cs rest : List Char} (h : cs.drop (signExtent cs) = rest) :
    numberExtent cs =
      if digits rest = 0 then (.unknown, signExtent cs)
      else if rest.head? = some '0' && 1 < digits rest then (.unknown, malformedExtent cs)
      else afterWhole cs (signExtent cs + digits rest) := h ▸ rfl

lemma signExtent_append {s rest : List Char} (hs : IsMinus s) (hrest : rest.head? ≠ some '-') :
    signExtent (s ++ rest) = s.length := by
  rcases hs with rfl | rfl
  · exact if_neg hrest
  · rfl

lemma exists_minus (cs : List Char) : ∃ s, IsMinus s ∧ cs = s ++ cs.drop (signExtent cs) := by
  by_cases h : cs.head? = some '-'
  · obtain ⟨ds, rfl⟩ := List.head?_eq_some_iff.mp h
    exact ⟨['-'], .inr rfl, rfl⟩
  · exact ⟨[], .inl rfl, by rw [signExtent, if_neg h]; rfl⟩

/-- The whole part of a number is read first. -/
lemma numberExtent_whole {s ds more : List Char} (hs : IsMinus s) (hds : IsWhole ds)
    (hmore : ∀ c ∈ more.head?, c.isDigit = false) :
    numberExtent (s ++ ds ++ more) = afterWhole (s ++ ds ++ more) (s.length + ds.length) := by
  obtain ⟨⟨hne, hdigits⟩, hzero⟩ := hds.isDigits
  have hhead : (ds ++ more).head? = ds.head? := List.head?_append_of_ne_nil _ hne
  have hminus : (ds ++ more).head? ≠ some '-' := by
    rw [hhead]
    intro h
    obtain ⟨cs, rfl⟩ := List.head?_eq_some_iff.mp h
    exact absurd (hdigits _ List.mem_cons_self) (by decide)
  have hsign : signExtent (s ++ (ds ++ more)) = s.length := signExtent_append hs hminus
  have hrest : (s ++ (ds ++ more)).drop (signExtent (s ++ (ds ++ more))) = ds ++ more := by
    rw [hsign, List.drop_left]
  rw [List.append_assoc, numberExtent_eq hrest, hsign, digits_append hdigits hmore, hhead,
    if_neg (by simpa using hne), if_neg (by simpa using hzero)]

/-- Where no whole part stands in front, no number does. -/
lemma numberExtent_unknown (cs : List Char) :
    (numberExtent cs).1 = .unknown ∨ ∃ s ds more, IsMinus s ∧ IsWhole ds ∧
      (∀ c ∈ more.head?, c.isDigit = false) ∧ cs = s ++ ds ++ more := by
  obtain ⟨s, hs, hcs⟩ := exists_minus cs
  generalize hrest : cs.drop (signExtent cs) = rest at hcs
  by_cases hcount : digits rest = 0
  · exact .inl (by rw [numberExtent_eq hrest, if_pos hcount])
  by_cases hzero : rest.head? = some '0' ∧ 1 < digits rest
  · exact .inl (by rw [numberExtent_eq hrest, if_neg hcount, if_pos (by simpa using hzero)])
  refine .inr ⟨s, rest.takeWhile Char.isDigit, rest.dropWhile Char.isDigit, hs, ?_, ?_, ?_⟩
  · refine isWhole_of_digits (take_digits rest ▸ isDigits_take hcount) fun hhead => ?_
    rw [← take_digits, List.head?_take, if_neg hcount] at hhead
    exact Nat.le_of_not_lt fun hlong => hzero ⟨hhead, hlong⟩
  · intro c hc
    have h := List.head?_dropWhile_not Char.isDigit rest
    rw [Option.mem_def.mp hc] at h
    exact h
  · rw [List.append_assoc, List.takeWhile_append_dropWhile, hcs]

lemma afterWhole_eq (a more : List Char) :
    afterWhole (a ++ more) a.length =
      match exponentExtent? (more.drop (fractionExtent more)) with
      | none => (.unknown, malformedExtent (a ++ more))
      | some e =>
        if runsOn (fractionExtent more + e != 0) (more.drop (fractionExtent more + e)) then
          (.unknown, malformedExtent (a ++ more))
        else
          (if fractionExtent more + e != 0 then .float else .int, a.length + (fractionExtent more + e)) := by
  have hdrop : ∀ n, (a ++ more).drop (a.length + n) = more.drop n := fun n => by
    rw [← List.drop_drop, List.drop_left]
  unfold afterWhole
  simp only [List.drop_left, Nat.add_assoc, hdrop]

/-- What the scan of a number takes for one is a number. -/
lemma numberExtent_spells (cs : List Char) (h : (numberExtent cs).1 ≠ .unknown) :
    (numberExtent cs).1.Spells (cs.take (numberExtent cs).2) := by
  obtain hunknown | ⟨s, ds, more, hs, hds, hmore, rfl⟩ := numberExtent_unknown cs
  · exact absurd hunknown h
  have hint : IsInt (s ++ ds) := isInt_iff.mpr ⟨s, ds, hs, hds, rfl⟩
  rw [numberExtent_whole hs hds hmore, ← List.length_append, afterWhole_eq] at h ⊢
  generalize s ++ ds = a at h hint ⊢
  cases hexponent : exponentExtent? (more.drop (fractionExtent more)) with
  | none => exact absurd (by rw [hexponent]) h
  | some e =>
    simp only [hexponent] at h ⊢
    generalize hf : fractionExtent more = f at h hexponent ⊢
    have hfraction := hf ▸ fractionExtent_spells more
    have hexponent := exponentExtent_spells hexponent
    split
    · simp_all
    · rw [List.take_length_add_append, List.take_add]
      rcases hfraction with rfl | hfraction <;> rcases hexponent with rfl | hexponent
      · simpa [TokenKind.Spells] using hint
      · rw [List.drop_zero] at hexponent
        have hne : e ≠ 0 := fun h => hexponent.ne_nil (by rw [h, List.take_zero])
        simpa [TokenKind.Spells, hne] using IsFloat.exponent hint hexponent
      · have hne : f ≠ 0 := fun h => hfraction.ne_nil (by rw [h, List.take_zero])
        simpa [TokenKind.Spells, hne] using IsFloat.fraction hint hfraction
      · have hne : f ≠ 0 := fun h => hfraction.ne_nil (by rw [h, List.take_zero])
        simpa [TokenKind.Spells, hne] using IsFloat.both hint hfraction hexponent

/-- Behind a number stands nothing that it could go on with. -/
def NumberEnds (more : List Char) : Prop := ∀ c ∈ more.head?, isNamePart c = false ∧ c ≠ '.'

lemma NumberEnds.not_digit {more : List Char} (h : NumberEnds more) : ∀ c ∈ more.head?, c.isDigit = false :=
  fun c hc => by
    have := (h c hc).1
    simp_all [isNamePart, Char.isAlphanum]

lemma fractionExtent_of_ne {cs : List Char} (h : ∀ c ∈ cs.head?, c ≠ '.') : fractionExtent cs = 0 := by
  unfold fractionExtent
  split
  · exact absurd rfl (h '.' rfl)
  · rfl

lemma NumberEnds.exponentExtent {more : List Char} (h : NumberEnds more) :
    exponentExtent? more = some 0 := by
  cases more with
  | nil => rfl
  | cons c more =>
    have hc := (h c rfl).1
    refine if_neg fun hmark => ?_
    rcases (by simpa using hmark : c = 'e' ∨ c = 'E') with rfl | rfl <;> revert hc <;> decide

lemma NumberEnds.runsOn {more : List Char} (h : NumberEnds more) (isFloat : Bool) :
    runsOn isFloat more = false := by
  cases more with
  | nil => rfl
  | cons c more =>
    obtain ⟨hpart, hpoint⟩ := h c rfl
    simp_all [Token.runsOn, isNamePart, isNameStart, Char.isAlphanum]

lemma fractionExtent_append {b more : List Char} (hb : IsFraction b)
    (hmore : ∀ c ∈ more.head?, c.isDigit = false) : fractionExtent (b ++ more) = b.length := by
  obtain ⟨⟨hne, hds⟩⟩ := hb
  rw [List.cons_append, fractionExtent, digits_append hds hmore, if_neg (by simpa using hne),
    List.length_cons, Nat.add_comm]

lemma exponentExtent_append {x more : List Char} (hx : IsExponent x)
    (hmore : ∀ c ∈ more.head?, c.isDigit = false) :
    exponentExtent? (x ++ more) = some x.length := by
  obtain @⟨c, s, ds, hmark, hsign, hne, hds⟩ := hx
  have hhead : ∀ d, ds.head? = some d → d.isDigit = true := fun d hd => hds d (List.mem_of_mem_head? hd)
  have hplus : ds.head? ≠ some '+' := fun h => absurd (hhead _ h) (by decide)
  have hminus : ds.head? ≠ some '-' := fun h => absurd (hhead _ h) (by decide)
  have hcount : digits (ds ++ more) = ds.length := digits_append hds hmore
  rw [List.cons_append, List.append_assoc, exponentExtent?, if_pos (by simpa using hmark)]
  rcases hsign with rfl | rfl | rfl <;> simp [hplus, hminus, hcount, hne] <;> omega

/-- Where something else follows that starts with no digit, fraction or exponent, the parts of a number are
read up to there. -/
structure PartsEnd (more : List Char) : Prop where
  digit : ∀ c ∈ more.head?, c.isDigit = false
  fraction : fractionExtent more = 0
  exponent : exponentExtent? more = some 0

lemma NumberEnds.partsEnd {more : List Char} (h : NumberEnds more) : PartsEnd more :=
  ⟨h.not_digit, fractionExtent_of_ne fun c hc => (h c hc).2, h.exponentExtent⟩

/-- A number is read to its end, and what follows decides whether it is one. -/
lemma numberExtent_parts {a b c more : List Char} (ha : IsInt a) (hb : b = [] ∨ IsFraction b)
    (hc : c = [] ∨ IsExponent c) (hmore : PartsEnd more) :
    numberExtent (a ++ (b ++ c) ++ more) =
      if runsOn ((b ++ c).length != 0) more then (.unknown, malformedExtent (a ++ (b ++ c) ++ more))
      else (if (b ++ c).length != 0 then .float else .int, (a ++ (b ++ c)).length) := by
  obtain ⟨s, ds, hs, hds, rfl⟩ := isInt_iff.mp ha
  have hbehind : (∀ d ∈ (c ++ more).head?, d.isDigit = false) ∧ fractionExtent (c ++ more) = 0 := by
    rcases hc with rfl | ⟨hmark, -, -⟩
    · exact ⟨hmore.digit, hmore.fraction⟩
    · refine ⟨?_, fractionExtent_of_ne ?_⟩
      all_goals
        rintro d ⟨⟩
        rcases hmark with rfl | rfl <;> decide
  have hfraction : fractionExtent (b ++ (c ++ more)) = b.length := by
    rcases hb with rfl | hb
    · exact hbehind.2
    · exact fractionExtent_append hb hbehind.1
  have hexponent : exponentExtent? (c ++ more) = some c.length := by
    rcases hc with rfl | hc
    · exact hmore.exponent
    · exact exponentExtent_append hc hmore.digit
  have hfront : ∀ d ∈ (b ++ (c ++ more)).head?, d.isDigit = false := by
    rcases hb with rfl | @⟨fs, -⟩
    · exact hbehind.1
    · rintro d hd
      obtain rfl : '.' = d := Option.some.inj hd
      rfl
  rw [List.append_assoc (s ++ ds), List.append_assoc b, numberExtent_whole hs hds hfront, ← List.length_append,
    afterWhole_eq, hfraction, List.drop_left, hexponent]
  simp only [← List.length_append, ← List.append_assoc, List.drop_left]

/-- **Numbers are taken whole**, in front of anything that they could not go on with. -/
lemma numberExtent_ends {a b c more : List Char} (ha : IsInt a) (hb : b = [] ∨ IsFraction b)
    (hc : c = [] ∨ IsExponent c) (hmore : NumberEnds more) :
    numberExtent (a ++ (b ++ c) ++ more) =
      (if (b ++ c).length != 0 then .float else .int, (a ++ (b ++ c)).length) := by
  rw [numberExtent_parts ha hb hc hmore.partsEnd, hmore.runsOn, if_neg Bool.false_ne_true]

lemma numberExtent_int {n more : List Char} (hn : IsInt n) (hmore : NumberEnds more) :
    numberExtent (n ++ more) = (.int, n.length) := by
  simpa using numberExtent_ends hn (.inl rfl) (.inl rfl) hmore

lemma numberExtent_float {n more : List Char} (hn : IsFloat n) (hmore : NumberEnds more) :
    numberExtent (n ++ more) = (.float, n.length) := by
  obtain ⟨a, b, c, ha, hb, hc, hne, rfl⟩ := isFloat_iff.mp hn
  have hfloat : ((b ++ c).length != 0) = true := by simpa using hne
  rw [numberExtent_ends ha hb hc hmore, if_pos hfloat]

end Token

end GraphQL
