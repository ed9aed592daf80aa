import GraphQL.Proofs.Token.Lexer
import GraphQL.Text.StringLiteral

/-!
Where string tokens end, and what that means for the texts that they denote.

Cutting reads a string once, to find its closing delimiter; working out its text reads it again. Behind
each scan stands a grammar of what was scanned, and the second reading is followed along it.
-/

namespace GraphQL

namespace Token

/-- Whether the scan of a string that starts here comes to the closing delimiter. -/
def isClosed : List Char → Bool
  | '"' :: '"' :: '"' :: cs => (blockExtent cs 3).2
  | '"' :: cs => (stringExtent cs 1).2
  | _ => false

/-- A token is cut off the text `ahead`, which goes on from the place of the token. -/
structure CutFrom (source : List Char) (t : Token) (ahead : List Char) : Prop where
  place : ∃ front, source = front ++ ahead ∧ t.start = .ofOffset (byteLength front)
  kind : t.kind = (extent ahead).1
  text : t.text = String.ofList (ahead.take (extent ahead).2)

lemma skipIgnored_split (inComment : Bool) (here : Nat) (cs : List Char) :
    ∃ front, cs = front ++ (skipIgnored inComment here cs).2 ∧
      (skipIgnored inComment here cs).1 = here + byteLength front := by
  induction cs generalizing inComment here with
  | nil => exact ⟨[], rfl, by simp [skipIgnored]⟩
  | cons c cs ih =>
    have hstep : ∀ inComment, ∃ front,
        c :: cs = front ++ (skipIgnored inComment (here + c.utf8Size) cs).2 ∧
          (skipIgnored inComment (here + c.utf8Size) cs).1 = here + byteLength front := by
      intro inComment
      obtain ⟨front, hcs, hplace⟩ := ih inComment (here + c.utf8Size)
      exact ⟨c :: front, congrArg (c :: ·) hcs, by rw [hplace, byteLength_cons, Nat.add_assoc]⟩
    rw [skipIgnored]
    split_ifs
    · exact hstep _
    · exact hstep _
    · exact hstep _
    · exact ⟨[], rfl, by simp⟩

lemma lexFrom_cutFrom (source : List Char) (here : Nat) (cs : List Char) :
    ∀ before, source = before ++ cs → here = byteLength before →
      ∀ t ∈ lexFrom here cs, ∃ ahead, CutFrom source t ahead := by
  fun_induction lexFrom here cs with
  | case1 here cs start hskip => simp
  | case2 here cs start c ds hskip e text ih =>
    intro before hsource hhere t ht
    obtain ⟨front, hcs, hplace⟩ := skipIgnored_split false here cs
    rw [hskip] at hcs hplace
    dsimp only at hcs hplace
    have hsplit : source = before ++ front ++ (c :: ds) := by
      rw [hsource, hcs, List.append_assoc]
    have hstart : start = byteLength (before ++ front) := by
      rw [hplace, hhere, byteLength_append]
    rcases List.mem_cons.mp ht with rfl | ht
    · exact ⟨c :: ds, ⟨before ++ front, hsplit, congrArg Pos.ofOffset hstart⟩, rfl, rfl⟩
    · refine ih (before ++ front ++ (c :: ds).take e.2) ?_ ?_ t ht
      · rw [List.append_assoc, List.take_append_drop, hsplit]
      · rw [byteLength_append, ← hstart, byteLength_eq_utf8ByteSize ((c :: ds).take e.2)]

/-- Every token is cut off what the source goes on with. -/
theorem lex_cutFrom {source : List Char} {t : Token} (h : t ∈ lex source) :
    ∃ ahead, CutFrom source t ahead :=
  lexFrom_cutFrom source 0 source [] (List.nil_append source).symm rfl t h

/-! ### Quoted strings -/

/-- What is scanned of a quoted string behind its opening quote, and whether the closing one is in
it. -/
inductive QuotedScan : List Char → Bool → Prop where
  | closed : QuotedScan ['"'] true
  | stopped : QuotedScan [] false
  | escaped {c : Char} {cs : List Char} {b : Bool} (isEscaped : c = '"' ∨ c = '\\')
      (rest : QuotedScan cs b) : QuotedScan ('\\' :: c :: cs) b
  | plain {c : Char} {cs : List Char} {b : Bool} (notQuote : c ≠ '"')
      (alone : c = '\\' → cs.head? ≠ some '"' ∧ cs.head? ≠ some '\\') (rest : QuotedScan cs b) :
      QuotedScan (c :: cs) b

lemma stringExtent_scan (cs : List Char) (n : Nat) :
    ∃ k, (stringExtent cs n).1 = n + k ∧ QuotedScan (cs.take k) (stringExtent cs n).2 := by
  fun_induction stringExtent cs n with
  | case1 n => exact ⟨0, rfl, .stopped⟩
  | case2 cs n => exact ⟨1, rfl, .closed⟩
  | case3 cs n ih =>
    obtain ⟨k, hk, hscan⟩ := ih
    exact ⟨k + 2, by omega, .escaped (.inl rfl) hscan⟩
  | case4 cs n ih =>
    obtain ⟨k, hk, hscan⟩ := ih
    exact ⟨k + 2, by omega, .escaped (.inr rfl) hscan⟩
  | case5 c cs n hquote hescapedQuote hescaped hend => exact ⟨0, rfl, .stopped⟩
  | case6 c cs n hquote hescapedQuote hescaped hend ih =>
    obtain ⟨k, hk, hscan⟩ := ih
    refine ⟨k + 1, by omega, .plain (fun h => hquote h) (fun h => ?_) hscan⟩
    cases cs with
    | nil => simp
    | cons d cs =>
      cases k with
      | zero => simp
      | succ k =>
        simp only [List.take_succ_cons, List.head?_cons, ne_eq, Option.some.injEq]
        exact ⟨fun hd => hescapedQuote cs h (hd ▸ rfl), fun hd => hescaped cs h (hd ▸ rfl)⟩

namespace QuotedScan

variable {c : Char} {cs : List Char} {b : Bool}

lemma tail (h : QuotedScan (c :: cs) b) (hquote : c ≠ '"') (hescape : c ≠ '\\') : QuotedScan cs b := by
  cases h with
  | closed => exact absurd rfl hquote
  | escaped => exact absurd rfl hescape
  | plain _ _ rest => exact rest

lemma afterEscape (h : QuotedScan ('\\' :: c :: cs) b) : QuotedScan cs b := by
  cases h with
  | escaped _ rest => exact rest
  | plain _ alone rest =>
    obtain ⟨hquote, hescape⟩ := alone rfl
    exact rest.tail (fun h => hquote (h ▸ rfl)) fun h => hescape (h ▸ rfl)

lemma drop {front : List Char} (h : QuotedScan (front ++ cs) b)
    (hfront : ∀ c ∈ front, c ≠ '"' ∧ c ≠ '\\') : QuotedScan cs b := by
  induction front with
  | nil => exact h
  | cons c front ih =>
    obtain ⟨hc, hfront⟩ := List.forall_mem_cons.mp hfront
    exact ih (h.tail hc.1 hc.2) hfront

lemma of_quote (h : QuotedScan ('"' :: cs) b) : cs = [] ∧ b = true := by
  cases h with
  | closed => exact ⟨rfl, rfl⟩
  | plain notQuote _ _ => exact absurd rfl notQuote

end QuotedScan

/-- Characters that no scan of a string stops at. -/
def AllPlain (cs : List Char) : Prop := ∀ c ∈ cs, c ≠ '"' ∧ c ≠ '\\'

lemma hexDigit_plain {c : Char} (h : (StringLiteral.hexValue? c).isSome = true) :
    c ≠ '"' ∧ c ≠ '\\' := by
  constructor <;> rintro rfl <;> revert h <;> decide

lemma bracedDigits_split {read cs : List Char} {r : List Char × List Char}
    (h : StringLiteral.bracedDigits read cs = .ok r) : ∃ front, cs = front ++ r.2 ∧ AllPlain front := by
  induction cs generalizing read with
  | nil => simp [StringLiteral.bracedDigits] at h
  | cons c cs ih =>
    rw [StringLiteral.bracedDigits] at h
    split_ifs at h with hclose hdigit
    · obtain rfl := Except.ok.inj h
      exact ⟨[c], rfl, List.forall_mem_singleton.mpr (by rw [hclose]; decide)⟩
    · obtain ⟨front, hcs, hplain⟩ := ih h
      exact ⟨c :: front, congrArg (c :: ·) hcs,
        List.forall_mem_cons.mpr ⟨hexDigit_plain hdigit, hplain⟩⟩

lemma fixedDigits_split {read cs : List Char} {n : Nat} {r : List Char × List Char}
    (h : StringLiteral.fixedDigits read n cs = .ok r) :
    ∃ front, cs = front ++ r.2 ∧ AllPlain front := by
  induction n generalizing read cs with
  | zero =>
    rw [StringLiteral.fixedDigits] at h
    obtain rfl := Except.ok.inj h
    exact ⟨[], rfl, by simp [AllPlain]⟩
  | succ n ih =>
    cases cs with
    | nil => simp [StringLiteral.fixedDigits] at h
    | cons c cs =>
      rw [StringLiteral.fixedDigits] at h
      split_ifs at h with hdigit
      obtain ⟨front, hcs, hplain⟩ := ih h
      exact ⟨c :: front, congrArg (c :: ·) hcs,
        List.forall_mem_cons.mpr ⟨hexDigit_plain hdigit, hplain⟩⟩

/-- The number of an escape is written with characters that no scan stops at. -/
lemma codePoint_split {cs : List Char} {r : Nat × List Char}
    (h : StringLiteral.codePoint cs = .ok r) : ∃ front, cs = front ++ r.2 ∧ AllPlain front := by
  unfold StringLiteral.codePoint at h
  split at h
  · rename_i cs
    obtain ⟨p, hp, h⟩ := StringLiteral.eq_ok_of_bind h
    obtain ⟨front, hcs, hplain⟩ := bracedDigits_split hp
    dsimp only at h
    split_ifs at h
    all_goals cases h
    · exact ⟨'\x7b' :: front, congrArg ('\x7b' :: ·) hcs,
        List.forall_mem_cons.mpr ⟨by decide, hplain⟩⟩
  · obtain ⟨p, hp, h⟩ := StringLiteral.eq_ok_of_bind h
    cases h
    exact fixedDigits_split hp

/-- The scan goes on behind an escape where the reading does. -/
lemma QuotedScan.afterUnicode {ds rest : List Char} {d : Char} {b : Bool}
    (h : QuotedScan ds b) (hd : StringLiteral.unicodeEscape ds = .ok (d, rest)) : QuotedScan rest b := by
  obtain ⟨⟨n, behind⟩, hn, hchar⟩ := StringLiteral.eq_ok_of_bind hd
  obtain ⟨front, hds, hplain⟩ := codePoint_split hn
  have hbehind : QuotedScan behind b := (hds ▸ h).drop hplain
  obtain ⟨trailing, htrailing, hchar⟩ := StringLiteral.eq_ok_of_bind hchar
  cases trailing with
  | none =>
    obtain ⟨c, -, hchar⟩ := StringLiteral.eq_ok_of_bind hchar
    cases hchar
    exact hbehind
  | some p =>
    obtain ⟨c, -, hchar⟩ := StringLiteral.eq_ok_of_bind hchar
    cases hchar
    unfold StringLiteral.trailingSurrogate at htrailing
    split at htrailing
    · obtain ⟨⟨m, behind'⟩, hm, htrailing⟩ := StringLiteral.eq_ok_of_bind htrailing
      obtain ⟨front', hcs, hplain'⟩ := codePoint_split hm
      dsimp only at htrailing
      split_ifs at htrailing
      · cases htrailing
        exact (hcs ▸ hbehind.afterEscape).drop hplain'
      · cases htrailing
    · cases htrailing

/-! An escape that cannot be read is no string without an end. -/

open StringLiteral (unicodeEscape codePoint bracedDigits fixedDigits character trailingSurrogate)

/-- What is wrong, if anything, is a Unicode escape. -/
def FailsOnUnicode {α : Type} (x : Except StringLiteralError α) : Prop :=
  ∀ e, x = .error e → ∃ text, e = .invalidUnicodeEscape text

namespace FailsOnUnicode

variable {α β : Type} {x : Except StringLiteralError α} {f : α → Except StringLiteralError β}

lemma ok (a : α) : FailsOnUnicode (.ok a) := fun _ h => nomatch h

lemma error (text : String) : FailsOnUnicode (.error (.invalidUnicodeEscape text) : Except _ α) :=
  fun _ h => ⟨text, (Except.error.inj h).symm⟩

lemma bind (hx : FailsOnUnicode x) (hf : ∀ a, FailsOnUnicode (f a)) : FailsOnUnicode (x >>= f) := by
  cases x with
  | error e => exact fun e' h => hx e' (congrArg Except.error (Except.error.inj h))
  | ok a => exact hf a

lemma ite {c : Prop} [Decidable c] {y : Except StringLiteralError α} (hx : FailsOnUnicode x)
    (hy : FailsOnUnicode y) : FailsOnUnicode (if c then x else y) := by
  split <;> assumption

lemma bracedDigits (read cs : List Char) : FailsOnUnicode (bracedDigits read cs) := by
  induction cs generalizing read with
  | nil => exact error _
  | cons c cs ih =>
    rw [StringLiteral.bracedDigits]
    exact ite (ok _) (ite (ih _) (error _))

lemma fixedDigits (read : List Char) (n : Nat) (cs : List Char) :
    FailsOnUnicode (fixedDigits read n cs) := by
  induction n generalizing read cs with
  | zero =>
    rw [StringLiteral.fixedDigits]
    exact ok _
  | succ n ih =>
    cases cs with
    | nil => exact error _
    | cons c cs =>
      rw [StringLiteral.fixedDigits]
      exact ite (ih _ _) (error _)

lemma codePoint (cs : List Char) : FailsOnUnicode (codePoint cs) := by
  unfold StringLiteral.codePoint
  split
  · refine bind (bracedDigits _ _) fun p => ?_
    exact ite (bind (error _) fun _ => ite (bind (error _) fun _ => ok _) (ok _))
      (ite (bind (error _) fun _ => ok _) (ok _))
  · exact bind (fixedDigits _ _ _) fun p => ok _

lemma character (n : Nat) : FailsOnUnicode (character n) := ite (ok _) (error _)

lemma trailingSurrogate (n : Nat) (cs : List Char) : FailsOnUnicode (trailingSurrogate n cs) := by
  unfold StringLiteral.trailingSurrogate
  split
  · exact bind (codePoint _) fun p => ok _
  · exact ok _

lemma unicodeEscape (cs : List Char) : FailsOnUnicode (unicodeEscape cs) := by
  refine bind (codePoint cs) fun p => bind (trailingSurrogate _ _) fun t => ?_
  cases t with
  | none => exact bind (character _) fun c => ok _
  | some q => exact bind (character _) fun c => ok _

end FailsOnUnicode

/-- What a reading may not say: that the end is missing where the scan found it, or nothing of it
where the scan did not. -/
def AgreesOn {α : Type} (isClosed : Bool) (x : Except StringLiteralError α) : Prop :=
  (isClosed = true → x ≠ .error .unterminated) ∧ (isClosed = false → ∀ a, x ≠ .ok a)

lemma AgreesOn.of_error {α : Type} {b : Bool} {e : StringLiteralError} (h : e ≠ .unterminated) :
    AgreesOn b (.error e : Except _ α) :=
  ⟨fun _ heq => h (Except.error.inj heq), fun _ _ heq => nomatch heq⟩

/-- The reading of a quoted string finds the end that the scan found, and no other. -/
lemma readQuoted_scan {cs : List Char} {b : Bool} (read : List Char) (h : QuotedScan cs b) :
    AgreesOn b (StringLiteral.readQuoted read cs) := by
  fun_induction StringLiteral.readQuoted read cs with
  | case1 read =>
    cases h
    exact ⟨by simp, by simp⟩
  | case2 read cs hend =>
    obtain ⟨-, rfl⟩ := h.of_quote
    exact ⟨by simp, by simp⟩
  | case3 read cs hmore => exact absurd (by simp [h.of_quote.1]) hmore
  | case4 => exact .of_error (by simp)
  | case5 read ds e he =>
    obtain ⟨text, rfl⟩ := FailsOnUnicode.unicodeEscape ds e he
    exact .of_error (by simp)
  | case6 read ds d rest hd _ ih => exact ih (h.afterEscape.afterUnicode hd)
  | case7 read d ds _ x hx _ ih => exact ih h.afterEscape
  | case8 => exact .of_error (by simp)
  | case9 => exact .of_error (by simp)
  | case10 read c cs hquote hescape _ ih => exact ih (h.tail hquote hescape)

/-! ### Strings between triple quotes -/

/-- What is scanned of a string between triple quotes behind the opening ones, and whether the closing
ones are in it. -/
inductive BlockScan : List Char → Bool → Prop where
  | closed : BlockScan ['"', '"', '"'] true
  | stopped : BlockScan [] false
  | escaped {cs : List Char} {b : Bool} (rest : BlockScan cs b) :
      BlockScan ('\\' :: '"' :: '"' :: '"' :: cs) b
  | plain {c : Char} {cs : List Char} {b : Bool}
      (notEscape : ¬ ['\\', '"', '"', '"'] <+: c :: cs) (notQuotes : ¬ ['"', '"', '"'] <+: c :: cs)
      (rest : BlockScan cs b) : BlockScan (c :: cs) b

lemma blockExtent_scan (cs : List Char) (n : Nat) :
    ∃ k, (blockExtent cs n).1 = n + k ∧ BlockScan (cs.take k) (blockExtent cs n).2 := by
  fun_induction blockExtent cs n with
  | case1 n => exact ⟨0, rfl, .stopped⟩
  | case2 cs n ih =>
    obtain ⟨k, hk, hscan⟩ := ih
    exact ⟨k + 4, by omega, .escaped hscan⟩
  | case3 cs n => exact ⟨3, rfl, .closed⟩
  | case4 c cs n hescape hquotes ih =>
    obtain ⟨k, hk, hscan⟩ := ih
    have hshort : (c :: cs).take (k + 1) <+: c :: cs := List.take_prefix _ _
    refine ⟨k + 1, by omega, .plain (fun h => ?_) (fun h => ?_) hscan⟩
    · obtain ⟨more, hmore⟩ := h.trans hshort
      obtain ⟨rfl, rfl⟩ := List.cons.inj hmore
      exact hescape more rfl rfl
    · obtain ⟨more, hmore⟩ := h.trans hshort
      obtain ⟨rfl, rfl⟩ := List.cons.inj hmore
      exact hquotes more rfl rfl

open StringLiteral (tripleQuote readBlock)

lemma endsWith_iff {cs ending : List Char} : StringLiteral.endsWith cs ending = true ↔ ending <:+ cs := by
  rw [StringLiteral.endsWith, List.isPrefixOf_iff_prefix, List.reverse_prefix]

/-- The closing quotes are not escaped. -/
lemma BlockScan.ending {body : List Char} {b : Bool} (h : BlockScan body b) (hb : b = true) :
    ∃ front, body = front ++ tripleQuote ∧ front.getLast? ≠ some '\\' := by
  induction h with
  | closed => exact ⟨[], rfl, by simp⟩
  | stopped => simp at hb
  | escaped rest ih =>
    obtain ⟨front, rfl, hlast⟩ := ih hb
    refine ⟨'\\' :: (tripleQuote ++ front), rfl, ?_⟩
    cases front <;> simp_all [tripleQuote, List.getLast?_cons]
  | @plain c cs b notEscape notQuotes rest ih =>
    obtain ⟨front, rfl, hlast⟩ := ih hb
    refine ⟨c :: front, rfl, fun heq => ?_⟩
    cases front with
    | nil =>
      obtain rfl : c = '\\' := by simpa using heq
      exact notEscape List.prefix_rfl
    | cons d front => exact hlast (by simpa [List.getLast?_cons] using heq)

/-- A string between triple quotes that ends with an escaped triple quote and one or two more quotes.
These make three with those of the escape. -/
def LeavesQuotes (raw : List Char) : Prop :=
  ∃ front quotes, raw = tripleQuote ++ front ++ ('\\' :: tripleQuote) ++ quotes ∧
    (quotes = ['"'] ∨ quotes = ['"', '"'])

lemma suffix_of_cons {c : Char} {cs ending : List Char} (h : ending <:+ c :: cs) :
    ending = c :: cs ∨ ending <:+ cs := List.suffix_cons_iff.mp h

/-- Quotes at the end that the scan did not take for closing ones belong to an escape, or stand right
behind one. -/
lemma BlockScan.leftover {body : List Char} {b : Bool} (h : BlockScan body b) (hb : b = false)
    (hend : tripleQuote <:+ body) (hescape : ¬ ('\\' :: tripleQuote) <:+ body) :
    ∃ front quotes, body = front ++ ('\\' :: tripleQuote) ++ quotes ∧
      (quotes = ['"'] ∨ quotes = ['"', '"']) := by
  induction h with
  | closed => simp at hb
  | stopped => simp [tripleQuote] at hend
  | @escaped cs b rest ih =>
    by_cases hlong : 3 ≤ cs.length
    · have hcs : cs <:+ '\\' :: '"' :: '"' :: '"' :: cs := List.suffix_append (['\\'] ++ tripleQuote) cs
      obtain ⟨front, quotes, rfl, hquotes⟩ := ih hb (List.suffix_of_suffix_length_le hend hcs hlong)
        fun h => hescape (h.trans hcs)
      exact ⟨'\\' :: (tripleQuote ++ front), quotes, by simp [tripleQuote], hquotes⟩
    · refine ⟨[], cs, rfl, ?_⟩
      match cs, hlong with
      | [], _ => exact absurd List.suffix_rfl hescape
      | [x], _ =>
        obtain rfl : '"' = x := by simpa [tripleQuote, ← List.reverse_prefix] using hend
        exact .inl rfl
      | [x, y], _ =>
        obtain ⟨rfl, rfl⟩ : '"' = y ∧ '"' = x := by
          simpa [tripleQuote, ← List.reverse_prefix] using hend
        exact .inr rfl
      | _ :: _ :: _ :: _, hlong => simp at hlong
  | @plain c cs b notEscape notQuotes rest ih =>
    rcases suffix_of_cons hend with heq | hend
    · exact absurd (heq ▸ List.prefix_rfl) notQuotes
    · obtain ⟨front, quotes, rfl, hquotes⟩ :=
        ih hb hend fun h => hescape (h.trans (List.suffix_cons c cs))
      exact ⟨c :: front, quotes, rfl, hquotes⟩

lemma readBlock_eq_unterminated {raw : List Char} : readBlock raw = .error .unterminated ↔
    raw.length < 6 ∨ ¬ tripleQuote <:+ raw ∨ ('\\' :: tripleQuote) <:+ raw := by
  unfold readBlock
  rw [← endsWith_iff, ← endsWith_iff]
  split_ifs with h
  · simpa [or_assoc] using h
  · dsimp only
    split <;> simpa [or_assoc] using h

/-- The reading of a string between triple quotes finds the end that the scan found. -/
lemma readBlock_closed {body : List Char} (h : BlockScan body true) :
    readBlock (tripleQuote ++ body) ≠ .error .unterminated := by
  obtain ⟨front, rfl, hlast⟩ := h.ending rfl
  rw [ne_eq, readBlock_eq_unterminated]
  rintro (hshort | hopen | hescape)
  · simp [tripleQuote] at hshort
    omega
  · exact hopen ((List.suffix_append _ _).trans (List.suffix_append _ _))
  · obtain ⟨more, hmore⟩ := hescape
    have heq : more ++ ['\\'] = tripleQuote ++ front := by
      rw [← List.append_cancel_right_eq _ tripleQuote]
      simpa using hmore
    have hget := congrArg List.getLast? heq
    rw [List.getLast?_append] at hget
    cases front with
    | nil => simp [tripleQuote] at hget
    | cons c front =>
      exact hlast (by simpa [List.getLast?_append, List.getLast?_cons, eq_comm] using hget)

/-- The quotes at the end of a text behind its opening quotes are its own once it is long enough. -/
lemma suffix_of_suffix_quotes {body ending : List Char}
    (h : ending <:+ tripleQuote ++ body) (hlong : ending.length ≤ body.length) : ending <:+ body :=
  List.suffix_of_suffix_length_le h (List.suffix_append _ _) hlong

/-- Where the scan found no end, the reading finds one exactly in the quotes behind an escape. -/
lemma readBlock_open {body : List Char} (h : BlockScan body false) :
    readBlock (tripleQuote ++ body) = .error .unterminated ↔ ¬ LeavesQuotes (tripleQuote ++ body) := by
  rw [readBlock_eq_unterminated]
  constructor
  · rintro hunread ⟨front, quotes, hraw, hquotes⟩
    rw [hraw] at hunread
    rcases hquotes with rfl | rfl
    all_goals
      rcases hunread with hshort | hopen | hescape
      · simp [tripleQuote] at hshort
        omega
      · refine hopen ?_
        simp [tripleQuote, ← List.reverse_prefix]
      · revert hescape
        simp [tripleQuote, ← List.reverse_prefix]
  · intro hleaves
    by_contra hread
    obtain ⟨hlong, hend, hescape⟩ := not_or.mp hread |>.imp_right not_or.mp
    have hthree : 3 ≤ body.length := by
      simpa [tripleQuote, Nat.not_lt] using hlong
    have hend : tripleQuote <:+ body := suffix_of_suffix_quotes (not_not.mp hend) hthree
    obtain ⟨front, quotes, rfl, hquotes⟩ :=
      h.leftover rfl hend fun h => hescape (h.trans (List.suffix_append _ _))
    exact hleaves ⟨front, quotes, by simp, hquotes⟩

/-! ### Tokens -/

lemma numberExtent_not_string (cs : List Char) : (numberExtent cs).1.isString = false := by
  unfold numberExtent
  extract_lets sign count whole fraction
  split_ifs
  · rfl
  · rfl
  · split
    · rfl
    · extract_lets extent isFloat
      split_ifs <;> rfl

/-- A text that starts with a string token starts with a quote, or with three. -/
lemma extent_string {ahead : List Char} (h : (extent ahead).1.isString = true) :
    (∃ cs, ahead = tripleQuote ++ cs ∧ extent ahead = (.blockString, (blockExtent cs 3).1) ∧
        isClosed ahead = (blockExtent cs 3).2) ∨
      ∃ cs, ahead = '"' :: cs ∧ ¬ tripleQuote <+: ahead ∧
        extent ahead = (.string, (stringExtent cs 1).1) ∧
        isClosed ahead = (stringExtent cs 1).2 := by
  revert h
  fun_cases extent ahead
  case case15 cs => exact fun _ => .inl ⟨cs, rfl, rfl, by simp [isClosed]⟩
  case case16 cs hother =>
    refine fun _ => .inr ⟨cs, rfl, ?_, rfl, ?_⟩
    · rintro ⟨more, hmore⟩
      exact hother more (List.cons.inj hmore).2.symm
    · rw [isClosed]
      exact hother
  case case18 => simp [numberExtent_not_string]
  all_goals simp [TokenKind.isString]

lemma cook_block {raw : String} {body : List Char} (h : raw.toList = tripleQuote ++ body) :
    StringLiteral.cook raw = String.ofList <$> readBlock (tripleQuote ++ body) := by
  rw [StringLiteral.cook, h]
  rfl

lemma cook_quoted {raw : String} {cs : List Char} (h : raw.toList = '"' :: cs)
    (hquotes : ¬ tripleQuote <+: '"' :: cs) :
    StringLiteral.cook raw = String.ofList <$> StringLiteral.readQuoted [] cs := by
  rw [StringLiteral.cook, h]
  split
  · rename_i hcs
    exact absurd (hcs ▸ List.prefix_append tripleQuote _) hquotes
  · rename_i hcs
    rw [(List.cons.inj hcs).2]
  · rename_i hother
    exact absurd rfl (hother cs)

section

variable {α β : Type} {f : α → β} {x : Except StringLiteralError α}

lemma map_eq_error {e : StringLiteralError} : f <$> x = .error e ↔ x = .error e := by
  cases x <;> simp [Functor.map, Except.map]

lemma AgreesOn.map {b : Bool} (h : AgreesOn b x) : AgreesOn b (f <$> x) := by
  cases x with
  | error e => exact ⟨fun hb => map_eq_error.not.mpr (h.1 hb), fun _ _ heq => nomatch heq⟩
  | ok a => exact ⟨fun _ heq => (nomatch heq), fun hb => absurd rfl (h.2 hb a)⟩

end

/-- **Where cutting finds the end of a string, so does the reading of its text, and the other way
round, but for the quotes behind an escaped triple quote.** For a token cut off the text `ahead`, with the
closing delimiter the text is never reported as unterminated; without it a quoted string is
never read, and a string between triple quotes is reported as unterminated exactly if it does not
leave quotes at its end that make up three with those of an escape. -/
theorem cook_terminated {source : List Char} {t : Token} (h : t ∈ lex source)
    (hstring : t.kind.isString = true) :
    (∃ ahead, CutFrom source t ahead) ∧ ∀ ahead, CutFrom source t ahead →
      (isClosed ahead = true → StringLiteral.cook t.text ≠ .error .unterminated) ∧
      (isClosed ahead = false → t.kind = .string → ∀ text, StringLiteral.cook t.text ≠ .ok text) ∧
      (isClosed ahead = false → t.kind = .blockString →
        (StringLiteral.cook t.text = .error .unterminated ↔ ¬ LeavesQuotes t.text.toList)) := by
  refine ⟨lex_cutFrom h, fun ahead hcut => ?_⟩
  have htext : t.text.toList = ahead.take (extent ahead).2 := by rw [hcut.text, String.toList_ofList]
  rw [hcut.kind] at hstring ⊢
  rcases extent_string hstring with
    ⟨cs, rfl, hextent, hclosed⟩ | ⟨cs, rfl, hquotes, hextent, hclosed⟩
  · obtain ⟨k, hk, hscan⟩ := blockExtent_scan cs 3
    rw [← hclosed] at hscan
    rw [hextent, hk, Nat.add_comm] at htext
    have htext : t.text.toList = tripleQuote ++ cs.take k := htext
    have hcook := cook_block htext
    refine ⟨fun hb => ?_, fun _ hkind => by simp [hextent] at hkind, fun hb _ => ?_⟩
    · rw [hcook, ne_eq, map_eq_error]
      exact readBlock_closed (hb ▸ hscan)
    · rw [hcook, map_eq_error, htext]
      exact readBlock_open (hb ▸ hscan)
  · obtain ⟨k, hk, hscan⟩ := stringExtent_scan cs 1
    rw [← hclosed] at hscan
    rw [hextent, hk, Nat.add_comm, List.take_succ_cons] at htext
    have hcook := cook_quoted htext fun h =>
      hquotes (h.trans (List.cons_prefix_cons.mpr ⟨rfl, List.take_prefix k cs⟩))
    have hread := (readQuoted_scan [] hscan).map (f := String.ofList)
    rw [← hcook] at hread
    exact ⟨hread.1, fun hb _ => hread.2 hb, fun _ hkind => by simp [hextent] at hkind⟩

/-- The theorem at the one token of a source whose string is closed. -/
theorem cook_terminated_of_closed :
    (⟨.string, "\"a\"", .ofOffset 0⟩ : Token) ∈ lex "\"a\"".toList ∧
      CutFrom "\"a\"".toList ⟨.string, "\"a\"", .ofOffset 0⟩ "\"a\"".toList ∧
      isClosed "\"a\"".toList = true ∧
      StringLiteral.cook "\"a\"" ≠ .error .unterminated := by
  have hmem : (⟨.string, "\"a\"", .ofOffset 0⟩ : Token) ∈ lex "\"a\"".toList := by decide +kernel
  have hcut : CutFrom "\"a\"".toList ⟨.string, "\"a\"", .ofOffset 0⟩ "\"a\"".toList :=
    ⟨⟨[], rfl, rfl⟩, by decide +kernel, by decide +kernel⟩
  have hclosed : isClosed "\"a\"".toList = true := by decide +kernel
  exact ⟨hmem, hcut, hclosed, ((cook_terminated hmem rfl).2 _ hcut).1 hclosed⟩

/-- A string between triple quotes that never ends, and that is read all the same: the last quote
makes three with those of the escape in front of it. -/
theorem cook_unended :
    lex "\"\"\"\\\"\"\"\"".toList = [⟨.blockString, "\"\"\"\\\"\"\"\"", .ofOffset 0⟩] ∧
      isClosed "\"\"\"\\\"\"\"\"".toList = false ∧
      StringLiteral.cook "\"\"\"\\\"\"\"\"" = .ok "\\\"" := by
  decide +kernel

end Token

end GraphQL
