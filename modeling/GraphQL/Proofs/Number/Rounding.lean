import GraphQL.Proofs.Number.DecimalText

/-!
What a quotient is rounded to.

A quotient has one exponent with which it has 53 bits in front of the point. So it is rounded to a number
as soon as it lies in the interval around it, which below a power of two is narrower than above.
-/

namespace GraphQL

namespace Binary64

open Shortest (cast_pow2 pow2_pos)

variable {n d m : Nat} {e : Int}

/-! ### Rounding to a natural -/

lemma roundQuotient_eq (hd : 0 < d) (hlow : 2 * m * d ≤ 2 * n + d) (hhigh : 2 * n ≤ (2 * m + 1) * d)
    (hopen : m % 2 = 1 → 2 * m * d < 2 * n + d ∧ 2 * n < (2 * m + 1) * d) : roundQuotient n d = m := by
  have hn : 2 * n = 2 * (n / d) * d + 2 * (n % d) := by
    rw [Nat.mul_assoc, ← Nat.mul_add, Nat.mul_comm (n / d), Nat.div_add_mod]
  have hr : n % d < d := Nat.mod_lt n hd
  have hcancel : ∀ {a b : Nat}, a * d < b * d → a < b := Nat.lt_of_mul_lt_mul_right
  unfold roundQuotient
  dsimp only
  generalize n / d = q at hn ⊢
  generalize n % d = r at hn hr ⊢
  have hupper : m ≤ q + 1 := by
    have : 2 * m < 2 * q + 3 := hcancel (by linarith)
    omega
  have hlower : q ≤ m := by
    have : 2 * q < 2 * m + 2 := hcancel (by linarith)
    omega
  split_ifs with hless hmore
  · have : 2 * m < 2 * q + 2 := hcancel (by linarith)
    omega
  · have : 2 * q + 1 < 2 * m + 1 := hcancel (by linarith)
    omega
  · -- In the middle between two naturals, the even one is meant.
    have hmiddle : 2 * r = d := by omega
    have heven : m % 2 = 0 := by
      by_contra hodd
      obtain ⟨hlow, hhigh⟩ := hopen (by omega)
      have : 2 * m < 2 * q + 2 := hcancel (by linarith)
      have : 2 * q + 1 < 2 * m + 1 := hcancel (by linarith)
      omega
    omega

/-- A rounded quotient is at most one half away from it. -/
lemma roundQuotient_bounds (hd : 0 < d) :
    2 * n ≤ (2 * roundQuotient n d + 1) * d ∧ 2 * roundQuotient n d * d ≤ 2 * n + d := by
  have hn : 2 * n = 2 * (n / d) * d + 2 * (n % d) := by
    rw [Nat.mul_assoc, ← Nat.mul_add, Nat.mul_comm (n / d), Nat.div_add_mod]
  have hr : n % d < d := Nat.mod_lt n hd
  unfold roundQuotient
  dsimp only
  generalize n / d = q at hn ⊢
  generalize n % d = r at hn hr ⊢
  split_ifs with hless hmore
  · constructor <;> linarith
  · constructor <;> linarith
  · have hmiddle : 2 * r = d := by omega
    obtain heven | hodd := Nat.mod_two_eq_zero_or_one q
    · rw [heven]
      constructor <;> linarith
    · rw [hodd]
      constructor <;> linarith

/-! ### Rounding in units of a power of two -/

lemma pow2_52 : pow2 52 = 2 ^ 52 := by simp [pow2]

lemma pow2_53 : pow2 53 = 2 ^ 53 := by simp [pow2]

/-- A quotient in units, with the same factor on both sides. -/
lemma cast_inUnits (hd : d ≠ 0) (e : Int) :
    ((n * pow2 (-e) : Nat) : Rat) = (n / d : Rat) * (d * pow2 (-e) : Nat) ∧
      ((d * pow2 e : Nat) : Rat) = 2 ^ e * (d * pow2 (-e) : Nat) ∧ (0 : Rat) < (d * pow2 (-e) : Nat) := by
  have hd' : (d : Rat) ≠ 0 := Nat.cast_ne_zero.mpr hd
  refine ⟨?_, ?_, ?_⟩
  · push_cast
    field_simp
  · push_cast
    rw [cast_pow2 e]
    ring
  · exact_mod_cast Nat.mul_pos (Nat.pos_of_ne_zero hd) (pow2_pos _)

lemma inUnits_eq (hd : d ≠ 0) (hlow : 2 * m * 2 ^ e ≤ 2 * (n / d : Rat) + 2 ^ e)
    (hhigh : 2 * (n / d : Rat) ≤ (2 * m + 1) * 2 ^ e)
    (hopen : m % 2 = 1 → 2 * m * 2 ^ e < 2 * (n / d : Rat) + 2 ^ e ∧ 2 * (n / d : Rat) < (2 * m + 1) * 2 ^ e) :
    inUnits n d e = m := by
  obtain ⟨hn, hunit, hpos⟩ := cast_inUnits (n := n) hd e
  generalize (n / d : Rat) = x at hlow hhigh hopen hn
  generalize ((d * pow2 (-e) : Nat) : Rat) = k at hn hunit hpos
  refine roundQuotient_eq (Nat.mul_pos (Nat.pos_of_ne_zero hd) (pow2_pos _)) ?_ ?_ fun hodd => ⟨?_, ?_⟩
  · have : (2 * m * (d * pow2 e : Nat) : Rat) ≤ 2 * (n * pow2 (-e) : Nat) + (d * pow2 e : Nat) := by
      rw [hn, hunit]
      nlinarith
    exact_mod_cast this
  · have : (2 * (n * pow2 (-e) : Nat) : Rat) ≤ (2 * m + 1) * (d * pow2 e : Nat) := by
      rw [hn, hunit]
      nlinarith
    exact_mod_cast this
  · have : (2 * m * (d * pow2 e : Nat) : Rat) < 2 * (n * pow2 (-e) : Nat) + (d * pow2 e : Nat) := by
      rw [hn, hunit]
      nlinarith [(hopen hodd).1]
    exact_mod_cast this
  · have : (2 * (n * pow2 (-e) : Nat) : Rat) < (2 * m + 1) * (d * pow2 e : Nat) := by
      rw [hn, hunit]
      nlinarith [(hopen hodd).2]
    exact_mod_cast this

lemma inUnits_bounds (hd : d ≠ 0) (e : Int) : 2 * (n / d : Rat) ≤ (2 * inUnits n d e + 1) * 2 ^ e ∧
    2 * inUnits n d e * 2 ^ e ≤ 2 * (n / d : Rat) + 2 ^ e := by
  obtain ⟨hn, hunit, hpos⟩ := cast_inUnits (n := n) hd e
  obtain ⟨hhigh, hlow⟩ := roundQuotient_bounds (n := n * pow2 (-e))
    (Nat.mul_pos (Nat.pos_of_ne_zero hd) (pow2_pos e))
  have hhigh : (2 * (n * pow2 (-e) : Nat) : Rat) ≤ (2 * inUnits n d e + 1) * (d * pow2 e : Nat) := by
    exact_mod_cast hhigh
  have hlow : (2 * inUnits n d e * (d * pow2 e : Nat) : Rat) ≤ 2 * (n * pow2 (-e) : Nat) + (d * pow2 e : Nat) := by
    exact_mod_cast hlow
  rw [hn, hunit] at hhigh hlow
  generalize (n / d : Rat) = x at *
  generalize ((d * pow2 (-e) : Nat) : Rat) = k at *
  constructor
  · refine le_of_mul_le_mul_right ?_ hpos
    linarith
  · refine le_of_mul_le_mul_right ?_ hpos
    linarith

/-! ### The exponent of a quotient -/

/-- The exponent with which a quotient has 53 bits, if there were no least one. -/
def freeExponent (n d : Nat) : Int :=
  let guess : Int := (n.log2 : Int) - d.log2 - 52
  if d * pow2 52 * pow2 guess ≤ n * pow2 (-guess) then guess else guess - 1

lemma exponentFor_eq_max (n d : Nat) : exponentFor n d = max minExponent (freeExponent n d) := rfl

lemma cast_log2_bounds (hn : n ≠ 0) :
    (2 : Rat) ^ (n.log2 : Int) ≤ n ∧ (n : Rat) < 2 ^ (n.log2 + 1 : Int) := by
  constructor
  · rw [zpow_natCast]
    exact_mod_cast Nat.log2_self_le hn
  · have : ((n.log2 : Int) + 1) = ((n.log2 + 1 : Nat) : Int) := by push_cast; rfl
    rw [this, zpow_natCast]
    exact_mod_cast Nat.lt_log2_self

/-- Whether a quotient has at least 53 bits with an exponent. -/
lemma fits_iff (hd : d ≠ 0) (e : Int) :
    d * pow2 52 * pow2 e ≤ n * pow2 (-e) ↔ 2 ^ (52 + e) ≤ (n / d : Rat) := by
  obtain ⟨hn, hunit, hpos⟩ := cast_inUnits (n := n) hd e
  have hcast : ((d * pow2 52 * pow2 e : Nat) : Rat) = 2 ^ (52 + e) * (d * pow2 (-e) : Nat) := by
    rw [mul_right_comm, Nat.cast_mul, hunit, zpow_add₀ (by norm_num), pow2_52]
    norm_num
    ring
  rw [← Nat.cast_le (α := Rat), hcast, hn]
  exact mul_le_mul_iff_left₀ hpos

/-- With its free exponent, a quotient has 53 bits. -/
lemma freeExponent_bounds (hn : n ≠ 0) (hd : d ≠ 0) :
    2 ^ (52 + freeExponent n d) ≤ (n / d : Rat) ∧ (n / d : Rat) < 2 ^ (53 + freeExponent n d) := by
  obtain ⟨hnlow, hnhigh⟩ := cast_log2_bounds hn
  obtain ⟨hdlow, hdhigh⟩ := cast_log2_bounds hd
  have hd0 : (0 : Rat) < d := by exact_mod_cast Nat.pos_of_ne_zero hd
  have hlow : (2 : Rat) ^ ((n.log2 : Int) - d.log2 - 1) ≤ n / d := by
    rw [le_div_iff₀ hd0]
    calc (2 : Rat) ^ ((n.log2 : Int) - d.log2 - 1) * d
        ≤ 2 ^ ((n.log2 : Int) - d.log2 - 1) * 2 ^ (d.log2 + 1 : Int) := by gcongr
      _ = 2 ^ (n.log2 : Int) := by rw [← zpow_add₀ (by norm_num)]; congr 1; ring
      _ ≤ n := hnlow
  have hhigh : (n / d : Rat) < 2 ^ ((n.log2 : Int) - d.log2 + 1) := by
    rw [div_lt_iff₀ hd0]
    calc (n : Rat) < 2 ^ (n.log2 + 1 : Int) := hnhigh
      _ = 2 ^ ((n.log2 : Int) - d.log2 + 1) * 2 ^ (d.log2 : Int) := by
        rw [← zpow_add₀ (by norm_num)]; congr 1; ring
      _ ≤ 2 ^ ((n.log2 : Int) - d.log2 + 1) * d := by gcongr
  unfold freeExponent
  dsimp only
  split_ifs with hfits
  · refine ⟨(fits_iff hd _).mp hfits, ?_⟩
    rwa [show (53 : Int) + (n.log2 - d.log2 - 52) = n.log2 - d.log2 + 1 by ring]
  · rw [fits_iff hd, not_le] at hfits
    constructor
    · rwa [show (52 : Int) + (n.log2 - d.log2 - 52 - 1) = n.log2 - d.log2 - 1 by ring]
    · rwa [show (53 : Int) + (n.log2 - d.log2 - 52 - 1) = 52 + (n.log2 - d.log2 - 52) by ring]

/-- A quotient with 53 bits, or fewer of the least exponent, has that exponent. -/
lemma exponentFor_eq (hn : n ≠ 0) (hd : d ≠ 0) (hleast : minExponent ≤ e)
    (hlow : 2 ^ (52 + e) ≤ (n / d : Rat) ∨ e = minExponent) (hhigh : (n / d : Rat) < 2 ^ (53 + e)) :
    exponentFor n d = e := by
  obtain ⟨hfreelow, hfreehigh⟩ := freeExponent_bounds hn hd
  have hlt : ∀ {a b : Int}, (2 : Rat) ^ a < 2 ^ b → a < b := (zpow_lt_zpow_iff_right₀ (by norm_num)).mp
  have hle : freeExponent n d ≤ e := by
    have := hlt (hfreelow.trans_lt hhigh)
    omega
  rw [exponentFor_eq_max]
  rcases hlow with hlow | rfl
  · have := hlt (hlow.trans_lt hfreehigh)
    omega
  · omega

/-! ### Rounded numbers -/

/-- A significand and an exponent as rounding makes them: 53 bits, or fewer of the least exponent. -/
structure IsRounded (m : Nat) (e : Int) : Prop where
  bits : m < 2 ^ 53
  least : minExponent ≤ e
  greatest : e ≤ maxExponent
  full : 2 ^ 52 ≤ m ∨ e = minExponent

/-- A quotient in units of its exponent has 53 bits, or it is the next power of two. -/
lemma significand_bounds (hn : n ≠ 0) (hd : d ≠ 0) : inUnits n d (exponentFor n d) ≤ 2 ^ 53 ∧
    (2 ^ 52 ≤ inUnits n d (exponentFor n d) ∨ exponentFor n d = minExponent) := by
  obtain ⟨hfreelow, hfreehigh⟩ := freeExponent_bounds hn hd
  obtain ⟨hhigh, hlow⟩ := inUnits_bounds (n := n) hd (exponentFor n d)
  rw [exponentFor_eq_max] at *
  generalize freeExponent n d = free at *
  generalize hm : inUnits n d (max minExponent free) = m at *
  generalize (n / d : Rat) = x at *
  constructor
  · have hpos : (0 : Rat) < 2 ^ max minExponent free := by positivity
    have hx : x < 2 ^ (53 : Int) * 2 ^ max minExponent free := by
      rw [← zpow_add₀ (by norm_num)]
      exact hfreehigh.trans_le (zpow_le_zpow_right₀ (by norm_num) (by omega))
    have : (m : Rat) < 2 ^ 53 + 1 := by
      refine lt_of_mul_lt_mul_right ?_ hpos.le
      norm_num at hx ⊢
      linarith
    exact Nat.lt_succ_iff.mp (by exact_mod_cast this)
  · rcases le_total free minExponent with hle | hle
    · exact .inr (max_eq_left hle)
    · left
      rw [max_eq_right hle] at *
      have hpos : (0 : Rat) < 2 ^ free := by positivity
      rw [zpow_add₀ (by norm_num)] at hfreelow
      have : (2 ^ 53 : Rat) ≤ 2 * m + 1 := by
        refine le_of_mul_le_mul_right ?_ hpos
        norm_num at hfreelow ⊢
        linarith
      have : 2 ^ 53 ≤ 2 * m + 1 := by exact_mod_cast this
      omega

/-- A significand with one bit too many is halved. -/
def carried (m : Nat) (e : Int) : Nat × Int := if m = pow2 53 then (pow2 52, e + 1) else (m, e)

lemma ofQuotient_of_ne_zero (hn : n ≠ 0) (he : exponentFor n d = e) (hm : inUnits n d e = m)
    (negative : Bool) : ofQuotient negative n d =
      if maxExponent < (carried m e).2 then infinite negative
      else finite negative (carried m e).1 (carried m e).2 := by
  unfold ofQuotient
  refine (if_neg hn).trans ?_
  rw [he]
  extract_lets _ m'
  rw [show m' = m from hm]
  rfl

/-- What is not infinite comes out rounded. -/
lemma ofQuotient_isRounded (hd : d ≠ 0) {negative : Bool} (h : (ofQuotient negative n d).isFinite = true) :
    ∃ m e, ofQuotient negative n d = finite negative m e ∧ IsRounded m e := by
  by_cases hzero : n = 0
  · exact ⟨0, minExponent, if_pos hzero, by decide, le_refl _, by decide, .inr rfl⟩
  obtain ⟨hle, hfull⟩ := significand_bounds hzero hd
  have hleast : minExponent ≤ exponentFor n d := le_max_left _ _
  rw [ofQuotient_of_ne_zero hzero rfl rfl] at h ⊢
  generalize exponentFor n d = e at *
  generalize inUnits n d e = m at *
  split_ifs at h ⊢ with hlarge
  · cases h
  · refine ⟨_, _, rfl, ?_⟩
    rw [not_lt] at hlarge
    unfold carried at hlarge ⊢
    split_ifs at hlarge ⊢ with hcarry
    · rw [pow2_52]
      exact ⟨(by decide : 2 ^ 52 < 2 ^ 53), by omega, hlarge, .inl (le_refl _)⟩
    · rw [pow2_53] at hcarry
      exact ⟨by omega, hleast, hlarge, hfull⟩

end Binary64

/-! ### The interval around a number -/

namespace Shortest

/-- Whether a rational lies in an interval: all between the ends do, and the ends if it is closed. -/
structure Interval.Contains (i : Interval) (x : Rat) : Prop where
  low : i.low * 2 ^ i.exponent ≤ x
  high : x ≤ i.high * 2 ^ i.exponent
  inner : i.closed = false → i.low * 2 ^ i.exponent < x ∧ x < i.high * 2 ^ i.exponent

end Shortest

namespace Binary64

open Shortest

variable {n d m : Nat} {e : Int} {negative : Bool}

/-- A power of two in fourths. -/
lemma pow_eq_fourths (e : Int) : (2 : Rat) ^ e = 4 * 2 ^ (e - 2) := by
  rw [zpow_sub₀ (by norm_num)]
  norm_num
  ring

lemma interval_low (hm : m ≠ 0) (e : Int) :
    (4 * m - 2 : Rat) ≤ (interval m e).low ∧ (interval m e).low + 1 ≤ (4 * m : Rat) := by
  have hlow : 4 * m ≤ (interval m e).low + 2 ∧ (interval m e).low + 1 ≤ 4 * m := by
    unfold interval
    dsimp only
    split <;> omega
  rw [sub_le_iff_le_add]
  exact_mod_cast hlow

/-- Below a power of two the numbers lie twice as close. -/
lemma interval_low_narrow (he : minExponent < e) :
    ((interval (2 ^ 52) e).low : Rat) = 4 * (2 ^ 52 : Nat) - 1 := by
  have hlow : (interval (2 ^ 52) e).low + 1 = 4 * 2 ^ 52 := by
    unfold interval
    rw [pow2_52]
    simp [he]
  rw [eq_sub_iff_add_eq]
  exact_mod_cast hlow

lemma interval_high (m : Nat) (e : Int) : ((interval m e).high : Rat) = 4 * m + 2 := by
  simp [interval]

/-- A quotient that has the exponent of a number, and is at most half a unit away from it. -/
lemma ofQuotient_eq_beside (h : IsRounded m e) (hn : n ≠ 0) (hd : d ≠ 0)
    (hnormal : 2 ^ (52 + e) ≤ (n / d : Rat) ∨ e = minExponent)
    (hlow : (4 * m - 2) * 2 ^ (e - 2) ≤ (n / d : Rat)) (hhigh : (n / d : Rat) ≤ (4 * m + 2) * 2 ^ (e - 2))
    (hinner : m % 2 = 1 → (4 * m - 2) * 2 ^ (e - 2) < (n / d : Rat) ∧ (n / d : Rat) < (4 * m + 2) * 2 ^ (e - 2)) :
    ofQuotient negative n d = finite negative m e := by
  have hunit := pow_eq_fourths e
  have hpos : (0 : Rat) < 2 ^ (e - 2) := by positivity
  have hbits : (m + 1 : Rat) * 2 ^ (e - 2) ≤ 2 ^ 53 * 2 ^ (e - 2) := by
    refine mul_le_mul_of_nonneg_right ?_ hpos.le
    exact_mod_cast h.bits
  have he : exponentFor n d = e := by
    refine exponentFor_eq hn hd h.least hnormal ?_
    rw [zpow_add₀ (by norm_num), hunit]
    norm_num at hbits ⊢
    linarith
  have hm : inUnits n d e = m := by
    refine inUnits_eq hd ?_ ?_ fun hodd => ⟨?_, ?_⟩
    · rw [hunit]
      linarith
    · rw [hunit]
      linarith
    · rw [hunit]
      linarith [(hinner hodd).1]
    · rw [hunit]
      linarith [(hinner hodd).2]
  have hcarried : carried m e = (m, e) := if_neg (by rw [pow2_53]; exact h.bits.ne)
  rw [ofQuotient_of_ne_zero hn he hm, hcarried]
  exact if_neg (not_lt.mpr h.greatest)

/-- A quotient that is less than a power of two by a fourth of its unit at most. Its own unit is one half
of that, and rounding gives one bit too many. -/
lemma ofQuotient_eq_below (hleast : minExponent < e) (hgreatest : e ≤ maxExponent) (hn : n ≠ 0) (hd : d ≠ 0)
    (hlow : (2 ^ 54 - 1) * 2 ^ (e - 2) ≤ (n / d : Rat)) (hbelow : (n / d : Rat) < 2 ^ 54 * 2 ^ (e - 2)) :
    ofQuotient negative n d = finite negative (2 ^ 52) e := by
  have hpos : (0 : Rat) < 2 ^ (e - 2) := by positivity
  have hunit : (2 : Rat) ^ (e - 1) = 2 * 2 ^ (e - 2) := by
    rw [zpow_sub₀ (by norm_num), zpow_sub₀ (by norm_num)]
    norm_num
    ring
  have he : exponentFor n d = e - 1 := by
    refine exponentFor_eq hn hd (by omega) (.inl ?_) ?_
    · rw [zpow_add₀ (by norm_num), hunit]
      norm_num at hlow ⊢
      linarith
    · rw [zpow_add₀ (by norm_num), hunit]
      norm_num at hbelow ⊢
      linarith
  have hm : inUnits n d (e - 1) = 2 ^ 53 := by
    refine inUnits_eq hd ?_ ?_ fun hodd => absurd hodd (by decide)
    · rw [hunit]
      norm_num at hlow ⊢
      linarith
    · rw [hunit]
      norm_num at hbelow ⊢
      linarith
  have hcarried : carried (2 ^ 53) (e - 1) = (2 ^ 52, e) := by
    rw [carried, pow2_53, if_pos rfl, pow2_52, Int.sub_add_cancel]
  rw [ofQuotient_of_ne_zero hn he hm, hcarried]
  exact if_neg (not_lt.mpr hgreatest)

/-- **Rounding comes back**: a quotient that lies in the interval around a number is rounded to it. -/
theorem ofQuotient_eq (h : IsRounded m e) (hm : m ≠ 0) (hd : d ≠ 0)
    (hin : (interval m e).Contains (n / d)) : ofQuotient negative n d = finite negative m e := by
  have hpos : (0 : Rat) < 2 ^ (e - 2) := by positivity
  have hwidest := mul_le_mul_of_nonneg_right (interval_low hm e).1 hpos.le
  obtain ⟨hlow, hhigh, hinner⟩ := hin
  rw [interval_high] at hhigh hinner
  rw [show (interval m e).exponent = e - 2 from rfl] at hlow hhigh hinner
  have hn : n ≠ 0 := by
    rintro rfl
    have hm1 : (1 : Rat) ≤ m := by exact_mod_cast Nat.one_le_iff_ne_zero.mpr hm
    rw [Nat.cast_zero, zero_div] at hlow
    nlinarith
  by_cases hnormal : 2 ^ (52 + e) ≤ (n / d : Rat) ∨ e = minExponent
  · refine ofQuotient_eq_beside h hn hd hnormal (hwidest.trans hlow) hhigh fun hodd => ?_
    obtain ⟨hlow, hhigh⟩ := hinner (by simp [interval, hodd])
    exact ⟨hwidest.trans_lt hlow, hhigh⟩
  · -- Only the interval around the power of two itself reaches below it.
    obtain ⟨hbelow, hne⟩ := not_or.mp hnormal
    rw [not_le, zpow_add₀ (by norm_num), pow_eq_fourths e] at hbelow
    have hleast : minExponent < e := lt_of_le_of_ne h.least (Ne.symm hne)
    obtain rfl : m = 2 ^ 52 := by
      have hle := h.full.resolve_right hne
      have hlt : (m : Rat) < 2 ^ 52 + 1 := by
        refine lt_of_mul_lt_mul_right ?_ hpos.le
        norm_num at hbelow ⊢
        linarith
      have hlt : m < 2 ^ 52 + 1 := by exact_mod_cast hlt
      omega
    rw [interval_low_narrow hleast] at hlow
    refine ofQuotient_eq_below hleast h.greatest hn hd ?_ ?_
    · norm_num at hlow ⊢
      linarith
    · norm_num at hbelow ⊢
      linarith

end Binary64

end GraphQL
