import GraphQL.Proofs.Token.StringEnd

/-!
Quoting and reading again.

A quoted text is read back as it was. Each character is written so that neither the scan for the
closing quote nor the reading stops at it.
-/

namespace GraphQL

namespace StringLiteral

/-! ### Hexadecimal digits -/

lemma hexValue?_hexDigit (upper : Bool) {n : Nat} (h : n < 16) : hexValue? (hexDigit upper n) = some n := by
  have hall : ∀ upper : Bool, ∀ n : Fin 16, hexValue? (hexDigit upper n) = some n.val := by decide +kernel
  exact hall upper ⟨n, h⟩

lemma ofHex_append (ds : List Char) (c : Char) :
    ofHex (ds ++ [c]) = 16 * ofHex ds + (hexValue? c).getD 0 := by
  rw [ofHex, List.foldl_append]
  rfl

/-- Digits that spell a number. -/
structure IsHexOf (ds : List Char) (n : Nat) : Prop where
  digits : ∀ c ∈ ds, (hexValue? c).isSome = true
  value : ofHex ds = n

lemma IsHexOf.zero_cons {ds : List Char} {n : Nat} (h : IsHexOf ds n) : IsHexOf ('0' :: ds) n := by
  refine ⟨List.forall_mem_cons.mpr ⟨by decide, h.digits⟩, ?_⟩
  rw [← h.value, ofHex, List.foldl_cons]
  rfl

lemma digitsOf_isHexOf (upper : Bool) (n : Nat) : IsHexOf (hex.digitsOf upper n) n := by
  induction n using Nat.strongRecOn with
  | _ n ih =>
    rw [hex.digitsOf]
    split_ifs with h
    · refine ⟨by simp [hexValue?_hexDigit upper h], ?_⟩
      rw [ofHex, List.foldl_cons, hexValue?_hexDigit upper h, List.foldl_nil]
      exact Nat.zero_add n
    · obtain ⟨hdigits, hvalue⟩ := ih (n / 16) (by omega)
      have hlast := hexValue?_hexDigit upper (Nat.mod_lt n (by decide : 0 < 16))
      refine ⟨List.forall_mem_append.mpr ⟨hdigits, by simp [hlast]⟩, ?_⟩
      rw [ofHex_append, hvalue, hlast, Option.getD_some, Nat.div_add_mod]

lemma length_digitsOf_le (upper : Bool) {n width : Nat} (h : n < 16 ^ (width + 1)) :
    (hex.digitsOf upper n).length ≤ width + 1 := by
  induction width generalizing n with
  | zero =>
    rw [hex.digitsOf, if_pos (by simpa using h)]
    exact Nat.le_refl 1
  | succ width ih =>
    rw [hex.digitsOf]
    split_ifs
    · exact Nat.succ_le_succ (Nat.zero_le _)
    · rw [List.length_append]
      exact Nat.succ_le_succ (ih (Nat.div_lt_of_lt_mul (by rwa [Nat.pow_succ, Nat.mul_comm] at h)))

/-- A number of at most four digits is written with four. -/
lemma hex_isHexOf (upper : Bool) {n : Nat} (h : n < 16 ^ 4) :
    IsHexOf (hex upper 4 n) n ∧ (hex upper 4 n).length = 4 := by
  have hzeros : ∀ k, IsHexOf (List.replicate k '0' ++ hex.digitsOf upper n) n := by
    intro k
    induction k with
    | zero => exact digitsOf_isHexOf upper n
    | succ k ih => exact ih.zero_cons
  have hlength : (hex.digitsOf upper n).length ≤ 3 + 1 := length_digitsOf_le upper h
  refine ⟨hzeros _, ?_⟩
  rw [hex, List.length_append, List.length_replicate]
  omega

lemma fixedDigits_append {ds : List Char} (h : ∀ c ∈ ds, (hexValue? c).isSome = true)
    (read rest : List Char) :
    fixedDigits read ds.length (ds ++ rest) = .ok (read.reverse ++ ds, rest) := by
  induction ds generalizing read with
  | nil => simp [fixedDigits]
  | cons c ds ih =>
    obtain ⟨hc, hds⟩ := List.forall_mem_cons.mp h
    rw [List.length_cons, List.cons_append, fixedDigits, if_pos hc, ih hds, List.reverse_cons,
      List.append_assoc]
    rfl

/-- The escape of a control character stands for that character. -/
lemma unicodeEscape_hex {c : Char} (h : c < ' ') (rest : List Char) :
    unicodeEscape (hex true 4 c.toNat ++ rest) = .ok (c, rest) := by
  have hsmall : c.toNat < 32 := h
  obtain ⟨hhex, hlength⟩ := hex_isHexOf true (n := c.toNat) (by omega)
  have hfixed := fixedDigits_append hhex.digits [] rest
  have hcode : codePoint (hex true 4 c.toNat ++ rest) = .ok (c.toNat, rest) := by
    have hbrace : ∀ cs, hex true 4 c.toNat ++ rest ≠ '\x7b' :: cs := by
      intro cs heq
      have hhead : (hex true 4 c.toNat ++ rest).head? = some '\x7b' := by rw [heq]; rfl
      rw [List.head?_append_of_ne_nil _ (by rw [← List.length_pos_iff, hlength]; decide)] at hhead
      exact absurd (hhex.digits _ (List.mem_of_mem_head? hhead)) (by decide)
    rw [hlength] at hfixed
    rw [codePoint, hfixed]
    · exact congrArg (fun n => Except.ok (n, rest)) hhex.value
    · exact hbrace
  have halone : trailingSurrogate c.toNat rest = .ok none := by
    have hleading : isLeadingSurrogate c.toNat = false := by
      rw [isLeadingSurrogate, decide_eq_false (by omega), Bool.false_and]
    unfold trailingSurrogate
    rw [hleading]
    rfl
  have hchar : character c.toNat = .ok c := by
    rw [character, if_pos (show c.toNat.isValidChar from c.valid), Char.ofNat_toNat]
  rw [unicodeEscape, hcode]
  show (trailingSurrogate c.toNat rest >>= _) = _
  rw [halone]
  show (character c.toNat >>= _) = _
  rw [hchar]
  rfl

/-! ### Characters -/

/-- How a character is written tells which one it is. -/
lemma quoteChar_cases (c : Char) :
    (∃ d, escape? d = some c ∧ quoteChar c = ['\\', d]) ∨
      (c < ' ' ∧ quoteChar c = '\\' :: 'u' :: hex true 4 c.toNat) ∨
      (c ≠ '"' ∧ c ≠ '\\' ∧ isLineEnd c = false ∧ isForbidden c = false ∧ quoteChar c = [c]) := by
  unfold quoteChar
  split
  case h_8 =>
    split_ifs with hcontrol
    · exact .inr (.inl ⟨hcontrol, rfl⟩)
    · refine .inr (.inr ⟨?_, ?_, ?_, ?_, rfl⟩)
      · assumption
      · assumption
      · simp_all [isLineEnd]
      · simp_all [isForbidden]
  · exact .inl ⟨'"', rfl, rfl⟩
  · exact .inl ⟨'\\', rfl, rfl⟩
  · exact .inl ⟨'n', rfl, rfl⟩
  · exact .inl ⟨'r', rfl, rfl⟩
  · exact .inl ⟨'t', rfl, rfl⟩
  · exact .inl ⟨'b', rfl, rfl⟩
  · exact .inl ⟨'f', rfl, rfl⟩

/-- A character is read as it was written. -/
lemma readQuoted_quoteChar (read : List Char) (c : Char) (rest : List Char) :
    readQuoted read (quoteChar c ++ rest) = readQuoted (c :: read) rest := by
  rw [readQuoted.eq_def]
  obtain ⟨d, hd, heq⟩ | ⟨hcontrol, heq⟩ | ⟨hquote, hescape, -, hforbidden, heq⟩ := quoteChar_cases c
  · have hu : d ≠ 'u' := by
      rintro rfl
      simp [escape?] at hd
    simp [heq, hd]
  · rw [heq]
    simp only [List.cons_append, if_false, if_true, Char.reduceEq]
    split
    · simp_all [unicodeEscape_hex]
    · rename_i hread
      rw [unicodeEscape_hex hcontrol] at hread
      cases hread
      rfl
  · simp [heq, hquote, hescape, hforbidden]

lemma readQuoted_quoted (read cs : List Char) :
    readQuoted read (cs.flatMap quoteChar ++ ['"']) = .ok (read.reverse ++ cs) := by
  induction cs generalizing read with
  | nil => simp [readQuoted]
  | cons c cs ih =>
    rw [List.flatMap_cons, List.append_assoc, readQuoted_quoteChar, ih]
    simp

lemma quoteChar_head (c : Char) : ∃ d ds, quoteChar c = d :: ds ∧ d ≠ '"' := by
  obtain ⟨d, -, heq⟩ | ⟨-, heq⟩ | ⟨hquote, -, -, -, heq⟩ := quoteChar_cases c
  · exact ⟨_, _, heq, by decide⟩
  · exact ⟨_, _, heq, by decide⟩
  · exact ⟨_, _, heq, hquote⟩

/-- A quoted text does not start as a string between triple quotes does. -/
lemma quoted_not_block (text behind : List Char) (h : ∀ c ∈ behind.head?, c ≠ '"') :
    ¬ tripleQuote <+: '"' :: (text.flatMap quoteChar ++ '"' :: behind) := by
  cases text with
  | nil =>
    cases behind with
    | nil => simp [tripleQuote]
    | cons c behind => simp [tripleQuote, (h c rfl).symm]
  | cons c text =>
    obtain ⟨d, ds, heq, hd⟩ := quoteChar_head c
    simp [tripleQuote, heq, hd.symm]

/-- **What was quoted is read back.** -/
theorem cook_quote (text : String) : cook (quote text) = .ok text := by
  have hquoted : (quote text).toList = '"' :: (text.toList.flatMap quoteChar ++ ['"']) :=
    String.toList_ofList
  rw [Token.cook_quoted hquoted (quoted_not_block _ [] (by simp)), readQuoted_quoted]
  exact congrArg Except.ok String.ofList_toList

end StringLiteral

namespace Token

open StringLiteral

/-- The scan of a string goes on over a character. -/
lemma stringExtent_plain {c : Char} (h : c ≠ '"' ∧ isLineEnd c = false) (cs : List Char) (n : Nat)
    (alone : c = '\\' → cs.head? ≠ some '"' ∧ cs.head? ≠ some '\\') :
    stringExtent (c :: cs) n = stringExtent cs (n + 1) := by
  rw [stringExtent.eq_def]
  split <;> simp_all

lemma stringExtent_plains {cs : List Char} (h : ∀ c ∈ cs, c ≠ '"' ∧ c ≠ '\\' ∧ isLineEnd c = false)
    (rest : List Char) (n : Nat) : stringExtent (cs ++ rest) n = stringExtent rest (n + cs.length) := by
  induction cs generalizing n with
  | nil => rfl
  | cons c cs ih =>
    obtain ⟨⟨hquote, hescape, hline⟩, hcs⟩ := List.forall_mem_cons.mp h
    rw [List.cons_append, stringExtent_plain ⟨hquote, hline⟩ _ _ fun heq => absurd heq hescape, ih hcs,
      List.length_cons, Nat.add_assoc, Nat.add_comm 1]

lemma hexDigit_passes {c : Char} (h : (hexValue? c).isSome = true) :
    c ≠ '"' ∧ c ≠ '\\' ∧ isLineEnd c = false := by
  refine ⟨(hexDigit_plain h).1, (hexDigit_plain h).2, ?_⟩
  by_contra hline
  rcases isLineEnd_iff.mp (Bool.not_eq_false _ ▸ hline) with rfl | rfl <;> revert h <;> decide

lemma stringExtent_quoteChar (c : Char) (rest : List Char) (n : Nat) :
    stringExtent (quoteChar c ++ rest) n = stringExtent rest (n + (quoteChar c).length) := by
  obtain ⟨d, hd, heq⟩ | ⟨hcontrol, heq⟩ | ⟨hquote, hescape, hline, -, heq⟩ := quoteChar_cases c <;> rw [heq]
  · by_cases hescaped : d = '"' ∨ d = '\\'
    · rcases hescaped with rfl | rfl <;> rfl
    · have hline : isLineEnd d = false := by
        by_contra hline
        rcases isLineEnd_iff.mp (Bool.not_eq_false _ ▸ hline) with rfl | rfl <;> simp [escape?] at hd
      obtain ⟨hquote, hescape⟩ := not_or.mp hescaped
      rw [List.cons_append, stringExtent_plain (by decide) _ _ (by simp [hquote, hescape]),
        List.cons_append, stringExtent_plain ⟨hquote, hline⟩ _ _ fun heq => absurd heq hescape]
      rfl
  · obtain ⟨hhex, hlength⟩ := hex_isHexOf true (n := c.toNat) (by
      have hsmall : c.toNat < 32 := hcontrol
      omega)
    rw [List.cons_append, stringExtent_plain (by decide) _ _ (by simp), List.cons_append,
      stringExtent_plain (by decide) _ _ (by simp),
      stringExtent_plains fun d hd => hexDigit_passes (hhex.digits d hd)]
    simp only [List.length_cons]
    congr 1
    omega
  · rw [stringExtent_plains (by simp [hquote, hescape, hline])]

/-- The scan of a quoted text ends at its closing quote. -/
lemma stringExtent_quoted (text behind : List Char) (n : Nat) :
    stringExtent (text.flatMap quoteChar ++ '"' :: behind) n
      = (n + (text.flatMap quoteChar).length + 1, true) := by
  induction text generalizing n with
  | nil => rfl
  | cons c text ih =>
    rw [List.flatMap_cons, List.append_assoc, stringExtent_quoteChar, ih, List.length_append]
    congr 1
    omega

end Token

end GraphQL
