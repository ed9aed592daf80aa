import GraphQL.Proofs.Token.Spelled
import GraphQL.Proofs.Parser.Relocate

/-!
Cutting texts that are joined by a line end.

No token goes on behind a line end but a string between triple quotes. So the tokens of two texts that
are joined by one are those of the first text and behind them those of the second one, which stand
further on.
-/

namespace GraphQL

/-- The place `n` bytes further on. -/
def Pos.shift (n : Nat) (p : Pos) : Pos := ⟨p.offset + n⟩

lemma Pos.shift_injective (n : Nat) : Function.Injective (Pos.shift n) := by
  rintro ⟨p⟩ ⟨q⟩ h
  exact congrArg Pos.mk (Nat.add_right_cancel (congrArg Pos.offset h))

lemma Pos.ofOffset_add {m n : Nat} (h : m + n ≤ Pos.maxOffset) : Pos.ofOffset (m + n) = (Pos.ofOffset m).shift n := by
  unfold Pos.ofOffset Pos.shift
  congr 1
  dsimp only
  omega

namespace Token

/-! ### In front of a line end -/

section

variable (more : List Char)

lemma drop_line {n : Nat} {cs : List Char} (h : n ≤ cs.length) :
    (cs ++ '\n' :: more).drop n = cs.drop n ++ '\n' :: more :=
  List.drop_append_of_le_length h

lemma takeWhile_line {p : Char → Bool} (hp : p '\n' = false) (cs : List Char) :
    (cs ++ '\n' :: more).takeWhile p = cs.takeWhile p := by
  induction cs with
  | nil => exact List.takeWhile_cons_of_neg (by simp [hp])
  | cons c cs ih => rw [List.cons_append, List.takeWhile_cons, List.takeWhile_cons, ih]

lemma digits_line (cs : List Char) : digits (cs ++ '\n' :: more) = digits cs :=
  congrArg List.length (takeWhile_line more rfl cs)

lemma digits_le (cs : List Char) : digits cs ≤ cs.length := (List.takeWhile_prefix _).length_le

lemma fractionExtent_line (cs : List Char) :
    fractionExtent (cs ++ '\n' :: more) = fractionExtent cs ∧ fractionExtent cs ≤ cs.length := by
  rcases cs with _ | ⟨c, cs⟩
  · exact ⟨rfl, Nat.le_refl _⟩
  by_cases hc : c = '.'
  · subst hc
    have hle := digits_le cs
    rw [List.cons_append, fractionExtent, fractionExtent, digits_line, List.length_cons]
    refine ⟨rfl, ?_⟩
    split <;> omega
  · rw [List.cons_append, fractionExtent_of_ne (by simpa using hc), fractionExtent_of_ne (by simpa using hc)]
    exact ⟨rfl, Nat.zero_le _⟩

lemma exponentExtent_line (cs : List Char) :
    exponentExtent? (cs ++ '\n' :: more) = exponentExtent? cs ∧ ∀ e ∈ exponentExtent? cs, e ≤ cs.length := by
  rcases cs with _ | ⟨c, cs⟩
  · exact ⟨rfl, by simp [exponentExtent?]⟩
  rw [List.cons_append, exponentExtent?, exponentExtent?]
  cases decide (c = 'e') || decide (c = 'E') with
  | false => exact ⟨rfl, by simp⟩
  | true =>
    have hhead : ∀ d, d ≠ '\n' → decide ((cs ++ '\n' :: more).head? = some d) = decide (cs.head? = some d) := by
      intro d hd
      cases cs with
      | nil => simp [hd.symm]
      | cons c cs => rfl
    rw [if_pos rfl, if_pos rfl, hhead '+' (by decide), hhead '-' (by decide)]
    dsimp only
    generalize hn : (if decide (cs.head? = some '+') || decide (cs.head? = some '-') then 1 else 0) = n
    have hle : n ≤ cs.length := by
      subst hn
      cases cs with
      | nil => exact Nat.le_refl _
      | cons d ds => split <;> simp
    have hdigits := digits_le (cs.drop n)
    rw [List.length_drop] at hdigits
    rw [drop_line more hle, digits_line]
    refine ⟨rfl, ?_⟩
    split
    · simp
    · simp only [Option.mem_def, Option.some.injEq, List.length_cons]
      omega

lemma malformedExtent_line (cs : List Char) : malformedExtent (cs ++ '\n' :: more) = malformedExtent cs := by
  rw [malformedExtent, malformedExtent, takeWhile_line more rfl]

lemma runsOn_line (isFloat : Bool) (cs : List Char) :
    runsOn isFloat (cs ++ '\n' :: more) = runsOn isFloat cs := by
  rcases cs with _ | ⟨c, cs⟩
  · cases isFloat <;> rfl
  · rfl

lemma afterWhole_line (a cs : List Char) :
    afterWhole (a ++ (cs ++ '\n' :: more)) a.length = afterWhole (a ++ cs) a.length := by
  obtain ⟨hfraction, hle⟩ := fractionExtent_line more cs
  obtain ⟨hexponent, hle'⟩ := exponentExtent_line more (cs.drop (fractionExtent cs))
  rw [afterWhole_eq, afterWhole_eq, hfraction, drop_line more hle, hexponent, ← List.append_assoc,
    malformedExtent_line]
  cases hrun : exponentExtent? (cs.drop (fractionExtent cs)) with
  | none => rfl
  | some e =>
    have he := hle' e hrun
    rw [List.length_drop] at he
    dsimp only
    rw [drop_line more (by omega), runsOn_line]

lemma signExtent_le (cs : List Char) : signExtent cs ≤ cs.length := by
  unfold signExtent
  split
  · rename_i h
    obtain ⟨ds, rfl⟩ := List.head?_eq_some_iff.mp h
    exact Nat.succ_le_succ (Nat.zero_le _)
  · exact Nat.zero_le _

/-- The sign and the digits that a text starts with. -/
lemma exists_whole (cs : List Char) : ∃ a rest, cs = a ++ rest ∧
    a.length = signExtent cs + digits (cs.drop (signExtent cs)) := by
  have hsign := signExtent_le cs
  have hdigits := digits_le (cs.drop (signExtent cs))
  rw [List.length_drop] at hdigits
  exact ⟨_, _, (List.take_append_drop _ cs).symm, List.length_take_of_le (by omega)⟩

lemma numberExtent_line (c : Char) (cs : List Char) :
    numberExtent (c :: cs ++ '\n' :: more) = numberExtent (c :: cs) := by
  obtain ⟨a, rest, hcs, ha⟩ := exists_whole (c :: cs)
  have hsign : signExtent (c :: cs ++ '\n' :: more) = signExtent (c :: cs) := rfl
  have hdrop := drop_line more (signExtent_le (c :: cs))
  have hzero : ∀ ds : List Char, (ds ++ '\n' :: more).head? = some '0' ↔ ds.head? = some '0' := fun ds => by
    cases ds <;> simp
  have hafter : afterWhole (c :: cs ++ '\n' :: more) a.length = afterWhole (c :: cs) a.length := by
    rw [hcs, List.append_assoc, afterWhole_line]
  rw [numberExtent_eq (hsign ▸ hdrop), numberExtent_eq rfl, digits_line, malformedExtent_line, hsign, ← ha, hafter]
  simp only [hzero]

/-- What is read in front of the line end is read from the first text. -/
lemma exists_of_append_line {p : List Char} (hp : '\n' ∉ p) {cs ds : List Char}
    (h : cs ++ '\n' :: more = p ++ ds) : ∃ es, cs = p ++ es := by
  induction p generalizing cs with
  | nil => exact ⟨cs, rfl⟩
  | cons d p ih =>
    obtain ⟨hd, htail⟩ := not_or.mp (mt List.mem_cons.mpr hp)
    cases cs with
    | nil => exact absurd (List.cons.inj h).1 hd
    | cons c cs =>
      obtain ⟨rfl, hrest⟩ := List.cons.inj h
      obtain ⟨es, rfl⟩ := ih htail hrest
      exact ⟨es, rfl⟩

/-- A quoted string ends before the end of its line anyway. -/
lemma stringExtent_line (cs : List Char) (n : Nat) :
    stringExtent (cs ++ '\n' :: more) n = stringExtent cs n := by
  fun_induction stringExtent cs n with
  | case1 n => rfl
  | case2 cs n => rfl
  | case3 cs n ih => exact ih
  | case4 cs n ih => exact ih
  | case5 c cs n hquote hescapedQuote hescaped hend =>
    rw [List.cons_append, stringExtent, if_pos hend]
    · exact hquote
    · rintro ds rfl h
      exact absurd hend (by decide)
    · rintro ds rfl h
      exact absurd hend (by decide)
  | case6 c cs n hquote hescapedQuote hescaped hend ih =>
    rw [List.cons_append, stringExtent, if_neg hend, ih]
    · exact hquote
    · rintro ds hc h
      obtain ⟨es, hes⟩ := exists_of_append_line more (p := ['"']) (by simp) h
      exact hescapedQuote es hc hes
    · rintro ds hc h
      obtain ⟨es, hes⟩ := exists_of_append_line more (p := ['\\']) (by simp) h
      exact hescaped es hc hes

/-- A string between triple quotes ends where it is closed, or takes all that is left. -/
lemma blockExtent_line (cs : List Char) (n : Nat) :
    blockExtent (cs ++ '\n' :: more) n = blockExtent cs n ∨ (blockExtent cs n).1 = n + cs.length := by
  fun_induction blockExtent cs n with
  | case1 n => exact .inr rfl
  | case2 cs n ih =>
    refine ih.imp_right fun h => ?_
    rw [h]
    simp only [List.length_cons]
    omega
  | case3 cs n => exact .inl rfl
  | case4 c cs n hescape hquotes ih =>
    refine ih.imp (fun h => ?_) fun h => ?_
    · rw [List.cons_append, blockExtent, h]
      · rintro ds hc h
        obtain ⟨es, hes⟩ := exists_of_append_line more (p := ['"', '"', '"']) (by simp) h
        exact hescape es hc hes
      · rintro ds hc h
        obtain ⟨es, hes⟩ := exists_of_append_line more (p := ['"', '"']) (by simp) h
        exact hquotes es hc hes
    · rw [h, List.length_cons]
      omega

/-- **No token goes on behind a line end** but a string between triple quotes that is not closed. -/
lemma extent_line (c : Char) (cs : List Char) :
    extent (c :: cs ++ '\n' :: more) = extent (c :: cs) ∨ extent (c :: cs) = (.blockString, (c :: cs).length) := by
  generalize hds : c :: cs = ds
  fun_cases extent ds
  case case1 => simp at hds
  case case15 cs =>
    refine (blockExtent_line more cs 3).imp (fun h => ?_) fun h => Prod.ext rfl ?_
    · rw [← h]
      rfl
    · rw [h, Nat.add_comm]
      rfl
  case case16 cs hother =>
    refine .inl ?_
    rw [List.cons_append, extent, stringExtent_line]
    rintro ds h
    obtain ⟨es, hes⟩ := exists_of_append_line more (p := ['"', '"']) (by simp) h
    exact hother es hes
  case case17 =>
    rename_i hstart
    obtain ⟨rfl, rfl⟩ := List.cons.inj hds
    have hword : StartsWord c := .inl hstart
    rw [List.cons_append, (hword.extent _).2, if_pos hstart, takeWhile_line more rfl]
    exact .inl rfl
  case case18 =>
    rename_i hstart hnumber
    obtain ⟨rfl, rfl⟩ := List.cons.inj hds
    have hword : StartsWord c := .inr (by simpa using hnumber)
    rw [List.cons_append, (hword.extent _).2, if_neg hstart, ← List.cons_append, numberExtent_line]
    exact .inl rfl
  case case19 =>
    rename_i hpoints hquotes hquote hstart hnumber
    obtain ⟨rfl, rfl⟩ := List.cons.inj hds
    refine .inl ?_
    rw [List.cons_append, extent, if_neg hstart, if_neg hnumber]
    case x_13 =>
      rintro ds hc h
      obtain ⟨es, hes⟩ := exists_of_append_line more (p := ['.', '.']) (by simp) h
      exact hpoints es hc hes
    case x_14 => exact fun _ hc _ => hquote hc
    all_goals assumption
  all_goals exact .inl rfl

/-! ### No more than there is -/

lemma stringExtent_le (cs : List Char) (n : Nat) : (stringExtent cs n).1 ≤ n + cs.length := by
  fun_induction stringExtent cs n <;> simp only [List.length_cons] <;> omega

lemma blockExtent_le (cs : List Char) (n : Nat) : (blockExtent cs n).1 ≤ n + cs.length := by
  fun_induction blockExtent cs n <;> simp only [List.length_cons] <;> omega

lemma malformedExtent_le (cs : List Char) : malformedExtent cs ≤ cs.length := by
  have hbefore : ∀ ds : List Char, (beforeEllipsis ds).length ≤ ds.length := fun ds => by
    fun_induction beforeEllipsis ds <;> simp only [List.length_cons, List.length_nil] <;> omega
  exact Nat.le_trans (hbefore _) (List.takeWhile_prefix _).length_le

lemma afterWhole_le (a cs : List Char) : (afterWhole (a ++ cs) a.length).2 ≤ (a ++ cs).length := by
  obtain ⟨-, hle⟩ := fractionExtent_line [] cs
  obtain ⟨-, hle'⟩ := exponentExtent_line [] (cs.drop (fractionExtent cs))
  have hmalformed := malformedExtent_le (a ++ cs)
  rw [afterWhole_eq]
  cases hrun : exponentExtent? (cs.drop (fractionExtent cs)) with
  | none => exact hmalformed
  | some e =>
    have he := hle' e hrun
    rw [List.length_drop] at he
    dsimp only
    split
    · exact hmalformed
    · rw [List.length_append]
      dsimp only
      omega

lemma numberExtent_le (cs : List Char) : (numberExtent cs).2 ≤ cs.length := by
  obtain ⟨a, rest, hcs, ha⟩ := exists_whole cs
  have hafter : (afterWhole cs a.length).2 ≤ cs.length := hcs ▸ afterWhole_le a rest
  rw [numberExtent_eq rfl, ← ha]
  split
  · exact signExtent_le cs
  split
  · exact malformedExtent_le cs
  · exact hafter

lemma extent_le (cs : List Char) : (extent cs).2 ≤ cs.length := by
  fun_cases extent cs
  case case15 cs => exact Nat.le_trans (blockExtent_le cs 3) (by simp only [List.length_cons]; omega)
  case case16 cs _ => exact Nat.le_trans (stringExtent_le cs 1) (by simp only [List.length_cons]; omega)
  case case17 =>
    rw [Nat.add_comm]
    exact Nat.succ_le_succ (List.takeWhile_prefix _).length_le
  case case18 => exact numberExtent_le _
  all_goals simp

/-! ### Texts -/

lemma skipIgnored_line (inComment : Bool) (here : Nat) (cs : List Char) :
    skipIgnored inComment here (cs ++ '\n' :: more) =
      match skipIgnored inComment here cs with
      | (_, []) => skipIgnored false (here + byteLength cs + 1) more
      | (start, c :: ds) => (start, c :: (ds ++ '\n' :: more)) := by
  fun_induction skipIgnored inComment here cs with
  | case1 inComment here => cases inComment <;> rfl
  | case2 here c cs ih =>
    rw [List.cons_append, skipIgnored, if_pos rfl, ih, byteLength_cons, ← Nat.add_assoc]
  | case3 inComment here cs hline ih =>
    rw [List.cons_append, skipIgnored, if_neg hline, if_pos rfl, ih, byteLength_cons,
      ← Nat.add_assoc]
  | case4 inComment here c cs hline hcomment hignored ih =>
    rw [List.cons_append, skipIgnored, if_neg hline, if_neg hcomment, if_pos hignored, ih,
      byteLength_cons, ← Nat.add_assoc]
  | case5 inComment here c cs hline hcomment hignored =>
    rw [List.cons_append, skipIgnored, if_neg hline, if_neg hcomment, if_neg hignored]

/-- **The tokens of texts that are joined by a line end** are those of the first text and those of the
second one, if no string between triple quotes is left open. -/
lemma lexFrom_line (here : Nat) (cs : List Char) (hlast : ∀ t ∈ (lexFrom here cs).getLast?, t.kind ≠ .blockString) :
    lexFrom here (cs ++ '\n' :: more) = lexFrom here cs ++ lexFrom (here + byteLength cs + 1) more := by
  fun_induction lexFrom here cs with
  | case1 here cs start hskip =>
    have hline := skipIgnored_line more false here cs
    rw [hskip] at hline
    exact lexFrom_congr hline
  | case2 here cs start c ds hskip e text ih =>
    have hline := skipIgnored_line more false here cs
    obtain ⟨-, hplace⟩ := skipIgnored_spec false here cs
    rw [hskip] at hline hplace
    dsimp only at hline hplace
    rw [lexFrom_of_cons hline]
    obtain hsame | hblock := extent_line more c ds
    · have hle : e.2 ≤ (c :: ds).length := extent_le (c :: ds)
      have hcons : c :: (ds ++ '\n' :: more) = c :: ds ++ '\n' :: more := rfl
      have htext : byteLength ((c :: ds).take e.2) = text.utf8ByteSize := byteLength_eq_utf8ByteSize _
      have hplaces := byteLength_take_drop e.2 (c :: ds)
      rw [hcons, hsame, List.take_append_of_le_length hle, drop_line more hle, htext, ih ?_, List.cons_append]
      · congr 3
        omega
      · intro t ht
        refine hlast t ?_
        rw [List.getLast?_cons, Option.mem_def.mp ht]
        rfl
    · have hnil : (c :: ds).drop e.2 = [] := by rw [show e = _ from hblock, List.drop_length]
      rw [hnil, lexFrom_of_nil rfl] at hlast
      exact absurd (congrArg Prod.fst hblock) (hlast _ rfl)

end

/-- What stands further on is cut in the same way. -/
lemma skipIgnored_shift (inComment : Bool) (here n : Nat) (cs : List Char) :
    skipIgnored inComment (here + n) cs =
      ((skipIgnored inComment here cs).1 + n, (skipIgnored inComment here cs).2) := by
  fun_induction skipIgnored inComment here cs with
  | case1 inComment here => rfl
  | case2 here c cs ih => rw [skipIgnored, if_pos rfl, Nat.add_right_comm, ih]
  | case3 inComment here cs hline ih =>
    rw [skipIgnored, if_neg hline, if_pos rfl, Nat.add_right_comm, ih]
  | case4 inComment here c cs hline hcomment hignored ih =>
    rw [skipIgnored, if_neg hline, if_neg hcomment, if_pos hignored, Nat.add_right_comm, ih]
  | case5 inComment here c cs hline hcomment hignored =>
    rw [skipIgnored, if_neg hline, if_neg hcomment, if_neg hignored]

/-- A text that stands further on has the same tokens, at the places that `move` says. -/
lemma lexFrom_moved {move : Pos → Pos} (here n : Nat) (cs : List Char)
    (hmove : ∀ m ≤ here + byteLength cs, Pos.ofOffset (m + n) = move (.ofOffset m)) :
    lexFrom (here + n) cs = (lexFrom here cs).map (Token.relocate move) := by
  fun_induction lexFrom here cs with
  | case1 here cs start hskip =>
    have hshift := skipIgnored_shift false here n cs
    rw [hskip] at hshift
    exact lexFrom_of_nil hshift
  | case2 here cs start c ds hskip e text ih =>
    have hshift := skipIgnored_shift false here n cs
    obtain ⟨-, hplace⟩ := skipIgnored_spec false here cs
    rw [hskip] at hshift hplace
    dsimp only at hshift hplace
    have htext : byteLength ((c :: ds).take e.2) = text.utf8ByteSize := byteLength_eq_utf8ByteSize _
    have hplaces := byteLength_take_drop e.2 (c :: ds)
    rw [lexFrom_of_cons hshift, List.map_cons, Nat.add_right_comm, htext, ih fun m hm => hmove m (by omega),
      hmove start (by omega)]
    rfl

/-- **A text that stands further on** has the same tokens further on, where places can be told apart. -/
lemma lexFrom_shift (here n : Nat) (cs : List Char) (h : here + n + byteLength cs ≤ Pos.maxOffset) :
    lexFrom (here + n) cs = (lexFrom here cs).map (Token.relocate (Pos.shift n)) :=
  lexFrom_moved here n cs fun m hm => Pos.ofOffset_add (by omega)

end Token

end GraphQL
