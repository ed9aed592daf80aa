import Mathlib.Tactic
import Mathlib.Data.Rat.Defs
import GraphQL.Number.Layout
import GraphQL.Number.Reading
import GraphQL.Proofs.Token.Lexeme

/-!
Numbers are written as numbers.

An integer is written with its digits and no zero in front. A floating point number that is not zero has
a first digit that is not zero either, on whichever grid its digits were found.
-/

namespace GraphQL

open Lexeme

/-! ### Integers -/

/-- The first digit of a number is not zero. -/
lemma toDigits_cons {n : Nat} (h : n ≠ 0) : ∃ c cs, Nat.toDigits 10 n = c :: cs ∧ c ≠ '0' := by
  induction n using Nat.strongRecOn with
  | _ n ih =>
    by_cases hsmall : n < 10
    · rw [Nat.toDigits_of_lt_base hsmall]
      have hdigit : ∀ m : Fin 10, m.val ≠ 0 → m.val.digitChar ≠ '0' := by decide
      exact ⟨_, [], rfl, hdigit ⟨n, hsmall⟩ h⟩
    · rw [Nat.toDigits_of_base_le (by decide) (Nat.le_of_not_lt hsmall)]
      obtain ⟨c, cs, hcs, hc⟩ := ih (n / 10) (by omega) (by omega)
      exact ⟨c, cs ++ [_], by rw [hcs]; rfl, hc⟩

lemma isDigit_toDigits (n : Nat) : ∀ c ∈ Nat.toDigits 10 n, c.isDigit = true :=
  fun _ => Nat.isDigit_of_mem_toDigits (by decide) (by decide)

lemma isWhole_toDigits (n : Nat) : IsWhole (Nat.toDigits 10 n) := by
  refine isWhole_of_digits ⟨Nat.toDigits_ne_nil, isDigit_toDigits n⟩ fun hzero => ?_
  by_cases h : n = 0
  · rw [h, Nat.toDigits_zero]
    exact Nat.le_refl 1
  · obtain ⟨c, cs, hcs, hc⟩ := toDigits_cons h
    rw [hcs] at hzero
    exact absurd (Option.some.inj hzero) hc

lemma toList_toString_int (n : Int) :
    (toString n).toList = (if n < 0 then ['-'] else []) ++ Nat.toDigits 10 n.natAbs := by
  cases n with
  | ofNat m =>
    show (Nat.repr m).toList = _
    rw [Nat.toList_repr]
    rfl
  | negSucc m =>
    show ("-" ++ Nat.repr (m + 1)).toList = _
    rw [String.toList_append, Nat.toList_repr, if_pos (Int.negSucc_lt_zero m)]
    rfl

lemma isInt_toString (n : Int) : IsInt (toString n).toList := by
  rw [toList_toString_int]
  split
  · exact .minus (isWhole_toDigits _)
  · exact .plain (isWhole_toDigits _)

/-! ### Digits and zeros -/

namespace Reading

lemma ofDigits_eq (cs : List Char) : ofDigits cs = Nat.ofDigitChars 10 cs 0 := rfl

lemma ofDigits_toDigits (n : Nat) : ofDigits (Nat.toDigits 10 n) = n :=
  Nat.ofDigitChars_toDigits (by decide) (by decide)

lemma ofDigits_zeros_append (n : Nat) (ds : List Char) : ofDigits (Layout.zeros n ++ ds) = ofDigits ds := by
  rw [ofDigits_eq, Nat.ofDigitChars_append, Layout.zeros, Nat.ofDigitChars_replicate_zero, Nat.mul_zero]
  rfl

lemma ofDigits_append_zeros (ds : List Char) (n : Nat) :
    ofDigits (ds ++ Layout.zeros n) = ofDigits ds * 10 ^ n := by
  rw [ofDigits_eq, Nat.ofDigitChars_append, Layout.zeros, Nat.ofDigitChars_replicate_zero, Nat.mul_comm]
  rfl

end Reading

/-! ### The digits of a floating point number -/

namespace Shortest

open Binary64 (pow2 pow10)

lemma pow2_pos (e : Int) : 0 < pow2 e := Nat.pow_pos (by decide)

lemma pow10_pos (e : Int) : 0 < pow10 e := Nat.pow_pos (by decide)

/-- Zero lies in no interval around a number. -/
lemma not_holds_zero {i : Interval} (hlow : 0 < i.low) (hhigh : 0 < i.high) (p : Int) : i.holds 0 p = false := by
  have hgt : ∀ x, 0 < x → compareScaled x i.exponent 0 p = .gt := by
    intro x hx
    rw [compareScaled, Nat.compare_eq_gt, Nat.zero_mul, Nat.zero_mul]
    exact Nat.mul_pos (Nat.mul_pos hx (pow2_pos _)) (pow10_pos _)
  rw [Interval.holds, hgt _ hlow, hgt _ hhigh]

lemma onGrid_ne_zero {tiesUp : Bool} {i : Interval} {p : Int} {a : Nat} (hlow : 0 < i.low)
    (hhigh : 0 < i.high) (h : onGrid tiesUp i p = some a) : a ≠ 0 := by
  have hholds : ∀ b, i.holds b p = true → b ≠ 0 := by
    rintro b hb rfl
    rw [not_holds_zero hlow hhigh p] at hb
    cases hb
  unfold onGrid at h
  extract_lets b at h
  split at h
  · rename_i hb _
    exact Option.some.inj h ▸ hholds b hb
  · exact Option.some.inj h ▸ Nat.succ_ne_zero b
  · cases h
  · rename_i hb _
    have hb := hholds b hb
    split at h
    · exact Option.some.inj h ▸ hb
    · exact Option.some.inj h ▸ Nat.succ_ne_zero b
    · have := Option.some.inj h
      split at this <;> omega

lemma stripZeros_ne_zero (steps : Nat) {a : Nat} (h : a ≠ 0) (p : Int) : (stripZeros steps a p).1 ≠ 0 := by
  induction steps generalizing a p with
  | zero => exact h
  | succ steps ih =>
    rw [stripZeros]
    split
    · exact ih (by omega) _
    · exact h

/-! The first digit of a number is at least one, so there is a digit on the finest grid. -/

lemma cast_pow2 (e : Int) : (pow2 e : Rat) = 2 ^ e * pow2 (-e) := by
  rcases Int.le_total 0 e with h | h
  · obtain ⟨n, rfl⟩ := Int.eq_ofNat_of_zero_le h
    simp [pow2]
  · obtain ⟨n, hn⟩ := Int.eq_ofNat_of_zero_le (Int.neg_nonneg_of_nonpos h)
    obtain rfl : e = -(n : Int) := by omega
    simp [pow2]

lemma cast_pow10 (e : Int) : (pow10 e : Rat) = 10 ^ e * pow10 (-e) := by
  rcases Int.le_total 0 e with h | h
  · obtain ⟨n, rfl⟩ := Int.eq_ofNat_of_zero_le h
    simp [pow10]
  · obtain ⟨n, hn⟩ := Int.eq_ofNat_of_zero_le (Int.neg_nonneg_of_nonpos h)
    obtain rfl : e = -(n : Int) := by omega
    simp [pow10]

lemma lt_pow_decimalLength (n : Nat) : n < 10 ^ Binary64.decimalLength n :=
  (Nat.length_toDigits_le_iff (by decide) Nat.length_toDigits_pos).mp (Nat.le_refl _)

lemma pow_le_of_decimalLength {n : Nat} (h : n ≠ 0) : 10 ^ (Binary64.decimalLength n - 1) ≤ n := by
  by_cases hone : Binary64.decimalLength n - 1 = 0
  · rw [hone, Nat.pow_zero]
    omega
  · have hlength : ¬ Binary64.decimalLength n ≤ Binary64.decimalLength n - 1 := by omega
    exact Nat.le_of_not_lt ((Nat.length_toDigits_le_iff (by decide) (by omega)).not.mp hlength)

/-- No number is smaller than the power of its first digit. -/
lemma pow_leadingPower_le {m : Nat} (hm : m ≠ 0) (e : Int) : (10 : Rat) ^ leadingPower m e ≤ m * 2 ^ e := by
  unfold leadingPower
  extract_lets n d guess
  have hd0 : (0 : Rat) < d := by exact_mod_cast pow2_pos (-e)
  have hquotient : (n : Rat) = m * 2 ^ e * d := by
    rw [show n = m * pow2 e from rfl, Nat.cast_mul, cast_pow2 e, mul_assoc]
  refine le_of_mul_le_mul_right ?_ hd0
  rw [← hquotient]
  split
  · rename_i hfits
    have hpos : (0 : Rat) < pow10 (-guess) := by exact_mod_cast pow10_pos (-guess)
    refine le_of_mul_le_mul_right ?_ hpos
    have hcast : (d * pow10 guess : Rat) ≤ n * pow10 (-guess) := by exact_mod_cast hfits
    rw [cast_pow10 guess] at hcast
    linarith
  · have hn0 : n ≠ 0 := Nat.mul_ne_zero hm (Nat.ne_of_gt (pow2_pos e))
    have hlow : (10 : Rat) ^ ((Binary64.decimalLength n : Int) - 1) ≤ n := by
      have hpos : 0 < Binary64.decimalLength n := Nat.length_toDigits_pos
      have hcast : ((Binary64.decimalLength n : Int) - 1) = ((Binary64.decimalLength n - 1 : Nat) : Int) := by
        omega
      rw [hcast, zpow_natCast]
      exact_mod_cast pow_le_of_decimalLength hn0
    have hhigh : (d : Rat) ≤ 10 ^ (Binary64.decimalLength d : Int) := by
      rw [zpow_natCast]
      exact_mod_cast Nat.le_of_lt (lt_pow_decimalLength d)
    calc (10 : Rat) ^ (guess - 1) * d
        ≤ 10 ^ (guess - 1) * 10 ^ (Binary64.decimalLength d : Int) := by gcongr
      _ = 10 ^ (guess - 1 + Binary64.decimalLength d) := (zpow_add₀ (by norm_num) _ _).symm
      _ = 10 ^ ((Binary64.decimalLength n : Int) - 1) := by
        congr 1
        show (Binary64.decimalLength n : Int) - Binary64.decimalLength d - 1 + Binary64.decimalLength d = _
        ring
      _ ≤ n := hlow

lemma floorScaled_ne_zero {x : Nat} {e p : Int} (h : (10 : Rat) ^ p ≤ x * 2 ^ e) : floorScaled x e p ≠ 0 := by
  have hle : pow10 p * pow2 (-e) ≤ x * pow2 e * pow10 (-p) := by
    have hcast : (pow10 p * pow2 (-e) : Rat) ≤ x * pow2 e * pow10 (-p) := by
      rw [cast_pow10 p, cast_pow2 e]
      calc (10 : Rat) ^ p * pow10 (-p) * pow2 (-e)
          ≤ x * 2 ^ e * pow10 (-p) * pow2 (-e) := by gcongr
        _ = x * (2 ^ e * pow2 (-e)) * pow10 (-p) := by ring
    exact_mod_cast hcast
  exact Nat.ne_of_gt (Nat.div_pos hle (Nat.mul_pos (pow10_pos p) (pow2_pos (-e))))

lemma search_ne_zero {tiesUp : Bool} {i : Interval} {lead : Int} (hlow : 0 < i.low) (hhigh : 0 < i.high)
    (hlast : floorScaled i.middle i.exponent (lead - maxDigits) ≠ 0) (left : Nat) :
    (search tiesUp i lead left).1 ≠ 0 := by
  induction left with
  | zero => exact hlast
  | succ left ih =>
    rw [search]
    split
    · rename_i hgrid
      exact onGrid_ne_zero hlow hhigh hgrid
    · exact ih

/-- A number that is not zero has digits that are not all zero. -/
lemma digits_ne_zero (tiesUp : Bool) {m : Nat} (hm : m ≠ 0) (e : Int) : (digits tiesUp m e).1 ≠ 0 := by
  have hlow : 0 < (interval m e).low := by
    unfold interval
    dsimp only
    split <;> omega
  have hhigh : 0 < (interval m e).high := Nat.succ_pos _
  have hlast : floorScaled (interval m e).middle (interval m e).exponent (leadingPower m e - maxDigits) ≠ 0 := by
    refine floorScaled_ne_zero ?_
    have hmiddle : ((interval m e).middle : Rat) * 2 ^ (interval m e).exponent = m * 2 ^ e := by
      show ((4 * m : Nat) : Rat) * 2 ^ (e - 2) = m * 2 ^ e
      rw [zpow_sub₀ (by norm_num)]
      push_cast
      ring
    rw [hmiddle]
    exact le_trans (zpow_le_zpow_right₀ (by norm_num) (Int.sub_le_self _ (by decide))) (pow_leadingPower_le hm e)
  exact stripZeros_ne_zero _ (search_ne_zero hlow hhigh hlast maxDigits) _

end Shortest

/-! ### Literals -/

namespace Layout

lemma isDigit_zeros (n : Nat) : ∀ c ∈ zeros n, c.isDigit = true := by
  intro c hc
  rw [List.eq_of_mem_replicate hc]
  rfl

/-- Digits with a first one that is not zero, in a row with others. -/
lemma isWhole_take {c : Char} {cs : List Char} (hds : ∀ d ∈ c :: cs, d.isDigit = true) (hc : c ≠ '0')
    (n k : Nat) : IsWhole ((c :: cs).take (n + 1) ++ zeros k) := by
  obtain ⟨hfirst, hcs⟩ := List.forall_mem_cons.mp hds
  rw [List.take_succ_cons, List.cons_append]
  refine .mk hfirst hc (List.forall_mem_append.mpr ⟨fun d hd => hcs d (List.mem_of_mem_take hd), ?_⟩)
  exact isDigit_zeros k

variable {s : List Char}

lemma isInt_minus {ds : List Char} (hs : IsMinus s) (hds : IsWhole ds) : IsInt (s ++ ds) :=
  isInt_iff.mpr ⟨s, ds, hs, hds, rfl⟩

/-- Digits, and others behind a point if there are any. -/
def pointed (whole fraction : List Char) : List Char :=
  whole ++ if fraction = [] then [] else '.' :: fraction

lemma isInt_pointed (hs : IsMinus s) {whole : List Char} (hwhole : IsWhole whole) :
    IsInt (s ++ pointed whole []) := by
  rw [pointed, if_pos rfl, List.append_nil]
  exact isInt_minus hs hwhole

lemma isFloat_pointed (hs : IsMinus s) {whole fraction : List Char} (hwhole : IsWhole whole)
    (hne : fraction ≠ []) (hfraction : ∀ d ∈ fraction, d.isDigit = true) :
    IsFloat (s ++ pointed whole fraction) := by
  rw [pointed, if_neg hne, ← List.append_assoc]
  exact .fraction (isInt_minus hs hwhole) (.mk ⟨hne, hfraction⟩)

/-- A whole number and the digits behind the point, and what they stand for. -/
structure Decimal (whole fraction : List Char) (value : Rat) : Prop where
  isWhole : IsWhole whole
  isDigit : ∀ d ∈ fraction, d.isDigit = true
  stands : Reading.ofDigits (whole ++ fraction) * 10 ^ (-fraction.length : Int) = value

variable {ds : List Char} {lead : Int}

lemma decimal_small (hds : ∀ d ∈ ds, d.isDigit = true) (hlead : lead < 0) :
    Decimal ['0'] (zeros (-lead - 1).toNat ++ ds) (Reading.ofDigits ds * 10 ^ (lead + 1 - ds.length)) := by
  refine ⟨.zero, List.forall_mem_append.mpr ⟨isDigit_zeros _, hds⟩, ?_⟩
  rw [← List.append_assoc, show ['0'] ++ zeros (-lead - 1).toNat = zeros ((-lead - 1).toNat + 1) from rfl,
    Reading.ofDigits_zeros_append]
  congr 2
  rw [List.length_append, zeros, List.length_replicate]
  omega

/-- All digits stand in front of the point, with zeros for what is missing. -/
lemma decimal_whole (hwhole : IsWhole (ds ++ zeros (lead.toNat + 1 - ds.length))) (hlead : 0 ≤ lead)
    (hshort : ds.length ≤ lead.toNat + 1) (n : Nat) : Decimal (ds ++ zeros (lead.toNat + 1 - ds.length)) (zeros n)
      (Reading.ofDigits ds * 10 ^ (lead + 1 - ds.length)) := by
  refine ⟨hwhole, isDigit_zeros n, ?_⟩
  have hpower : (10 : Rat) ^ (lead + 1 - ds.length) = 10 ^ (lead.toNat + 1 - ds.length) := by
    rw [← zpow_natCast]
    congr 1
    omega
  rw [Reading.ofDigits_append_zeros, Reading.ofDigits_append_zeros, hpower, zeros, List.length_replicate,
    zpow_neg, zpow_natCast]
  push_cast
  exact mul_inv_cancel_right₀ (by positivity) _

/-- The point stands between two of the digits. -/
lemma decimal_split (hwhole : IsWhole (ds.take (lead.toNat + 1))) (hds : ∀ d ∈ ds, d.isDigit = true)
    (hlead : 0 ≤ lead) (hlong : lead.toNat + 1 ≤ ds.length) :
    Decimal (ds.take (lead.toNat + 1)) (ds.drop (lead.toNat + 1))
      (Reading.ofDigits ds * 10 ^ (lead + 1 - ds.length)) := by
  refine ⟨hwhole, fun d hd => hds d (List.mem_of_mem_drop hd), ?_⟩
  rw [List.take_append_drop, List.length_drop]
  congr 2
  omega

/-- Without an exponent, a number is written as a whole one, with a fraction or without. -/
lemma positionalText_pointed (l : Layout) (hne : ds ≠ []) (hds : ∀ d ∈ ds, d.isDigit = true)
    (hfirst : ds.head? ≠ some '0') (lead : Int) : ∃ whole fraction,
      l.positionalText ds lead = pointed whole fraction ∧ (l.keepsPoint = true → fraction ≠ []) ∧
      Decimal whole fraction (Reading.ofDigits ds * 10 ^ (lead + 1 - ds.length)) := by
  unfold positionalText
  split
  · rename_i hlead
    refine ⟨_, _, ?_, ?_, decimal_small hds hlead⟩
    · simp [pointed, hne]
    · simp [hne]
  rename_i hlead
  rw [not_lt] at hlead
  have hwhole : IsWhole (ds.take (lead.toNat + 1) ++ zeros (lead.toNat + 1 - ds.length)) := by
    obtain ⟨c, cs, rfl⟩ := List.exists_cons_of_ne_nil hne
    exact isWhole_take hds (fun h => hfirst (congrArg some h)) lead.toNat _
  dsimp only
  split
  · rename_i hdrop
    have hshort : ds.length ≤ lead.toNat + 1 := List.drop_eq_nil_iff.mp hdrop
    rw [List.take_of_length_le hshort] at hwhole ⊢
    split
    · refine ⟨_, _, ?_, ?_, decimal_whole hwhole hlead hshort 1⟩
      · simp [pointed, zeros]
      · simp [zeros]
    · rename_i hpoint
      refine ⟨_, _, ?_, fun h => absurd h hpoint, decimal_whole hwhole hlead hshort 0⟩
      simp [pointed, zeros]
  · rename_i hmore
    have hlong : lead.toNat + 1 ≤ ds.length := by
      by_contra hshort
      exact hmore (List.drop_eq_nil_of_le (by omega))
    rw [Nat.sub_eq_zero_of_le hlong, zeros, List.replicate_zero, List.append_nil] at hwhole ⊢
    exact ⟨_, _, (by rw [pointed, if_neg hmore]), fun _ => hmore, decimal_split hwhole hds hlead hlong⟩

lemma positionalText_isFloat (hs : IsMinus s) {c : Char} {cs : List Char}
    (hds : ∀ d ∈ c :: cs, d.isDigit = true) (hc : c ≠ '0') (lead : Int) :
    IsFloat (s ++ literal.positionalText (c :: cs) lead) := by
  obtain ⟨whole, fraction, htext, hpoint, hdecimal⟩ :=
    literal.positionalText_pointed (by simp) hds (by simpa using hc) lead
  rw [htext]
  exact isFloat_pointed hs hdecimal.isWhole (hpoint rfl) hdecimal.isDigit

lemma scientificText_isFloat (hs : IsMinus s) {c : Char} {cs : List Char}
    (hds : ∀ d ∈ c :: cs, d.isDigit = true) (lead : Int) :
    IsFloat (s ++ literal.scientificText (c :: cs) lead) := by
  obtain ⟨hfirst, hcs⟩ := List.forall_mem_cons.mp hds
  have hint : IsInt (s ++ [c]) :=
    isInt_minus hs (isWhole_of_digits ⟨by simp, by simpa using hfirst⟩ fun _ => Nat.le_refl 1)
  have hexponent : IsExponent ('e' :: (toString lead).toList) := by
    rw [toList_toString_int]
    refine .mk (.inl rfl) ?_ ⟨Nat.toDigits_ne_nil, isDigit_toDigits _⟩
    split <;> simp
  have hsign : (if (decide (0 ≤ lead) && literal.signsExponent) = true then ['+'] else []) = ([] : List Char) := by
    simp [literal]
  unfold scientificText
  rw [hsign]
  cases cs with
  | nil => simpa using IsFloat.exponent hint hexponent
  | cons d cs => simpa using IsFloat.both hint (.mk ⟨by simp, hcs⟩) hexponent

lemma magnitudeText_isFloat (hs : IsMinus s) (m : Nat) (e : Int) :
    IsFloat (s ++ literal.magnitudeText m e) := by
  unfold magnitudeText
  split
  · have hfraction : IsFraction ['.', '0'] := .mk ⟨by simp, List.forall_mem_singleton.mpr rfl⟩
    rw [show literal.keepsPoint = true from rfl, if_pos rfl]
    simpa using IsFloat.fraction (isInt_minus hs .zero) hfraction
  · rename_i hm
    obtain ⟨c, cs, hds, hc⟩ := toDigits_cons (Shortest.digits_ne_zero literal.tiesUp hm e)
    have hdigits := hds ▸ isDigit_toDigits (Shortest.digits literal.tiesUp m e).1
    dsimp only
    rw [hds]
    show IsFloat (s ++ if _ then _ else _)
    split
    · exact positionalText_isFloat hs hdigits hc _
    · exact scientificText_isFloat hs hdigits _

/-- **A finite number is written as a float.** -/
theorem render_isFloat {x : Binary64} (h : x.isFinite = true) : IsFloat (literal.render x).toList := by
  cases x with
  | finite negative m e =>
    rw [render, String.toList_ofList]
    cases negative
    · exact magnitudeText_isFloat (.inl rfl) m e
    · exact magnitudeText_isFloat (.inr rfl) m e
  | infinite => cases h
  | nan => cases h

end Layout

end GraphQL
