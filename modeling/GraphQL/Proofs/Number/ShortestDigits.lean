import GraphQL.Proofs.Number.Rounding

/-!
The fewest digits of a number stand for a number in the interval around it.

Every grid that is tried gives a multiple in the interval or nothing, and on a grid that is fine enough
already the multiple below the number is in it. Zeros at the end are no loss.
-/

namespace GraphQL

namespace Shortest

open Binary64 (pow2 pow10 IsRounded)

variable {i : Interval} {m a : Nat} {e p : Int}

/-! ### Multiples of powers of ten -/

/-- What is compared in naturals are two rationals times the same factor. -/
lemma cast_scaled (x : Nat) (e : Int) (a : Nat) (p : Int) : ∃ k : Rat, 0 < k ∧
    ((x * pow2 e * pow10 (-p) : Nat) : Rat) = x * 2 ^ e * k ∧
    ((a * pow10 p * pow2 (-e) : Nat) : Rat) = a * 10 ^ p * k := by
  refine ⟨(pow10 (-p) * pow2 (-e) : Nat), ?_, ?_, ?_⟩
  · exact_mod_cast Nat.mul_pos (pow10_pos (-p)) (pow2_pos (-e))
  · push_cast
    rw [cast_pow2 e]
    ring
  · push_cast
    rw [cast_pow10 p]
    ring

lemma compareScaled_eq (x : Nat) (e : Int) (a : Nat) (p : Int) :
    compareScaled x e a p = compare (x * 2 ^ e : Rat) (a * 10 ^ p) := by
  obtain ⟨k, hpos, hleft, hright⟩ := cast_scaled x e a p
  unfold compareScaled
  rcases lt_trichotomy (x * 2 ^ e : Rat) (a * 10 ^ p) with h | h | h
  · rw [compare_lt_iff_lt.mpr h, compare_lt_iff_lt, ← Nat.cast_lt (α := Rat), hleft, hright]
    gcongr
  · rw [compare_eq_iff_eq.mpr h, compare_eq_iff_eq, ← Nat.cast_inj (R := Rat), hleft, hright, h]
  · rw [compare_gt_iff_gt.mpr h, compare_gt_iff_gt, ← Nat.cast_lt (α := Rat), hleft, hright]
    gcongr

/-- The multiples that an interval holds are those that it contains. -/
lemma contains_of_holds (hwide : (i.low * 2 ^ i.exponent : Rat) ≤ i.high * 2 ^ i.exponent)
    (h : i.holds a p = true) : i.Contains (a * 10 ^ p) := by
  unfold Interval.holds at h
  rw [compareScaled_eq, compareScaled_eq] at h
  split at h
  · rename_i hlow hhigh
    rw [compare_lt_iff_lt] at hlow
    rw [compare_gt_iff_gt] at hhigh
    exact ⟨hlow.le, hhigh.le, fun _ => ⟨hlow, hhigh⟩⟩
  · rename_i hlow
    rw [compare_eq_iff_eq] at hlow
    exact ⟨hlow.le, hlow ▸ hwide, by simp [h]⟩
  · rename_i hhigh _
    rw [compare_eq_iff_eq] at hhigh
    exact ⟨hhigh ▸ hwide, hhigh.ge, by simp [h]⟩
  · cases h

lemma holds_of_onGrid {tiesUp : Bool} (h : onGrid tiesUp i p = some a) : i.holds a p = true := by
  unfold onGrid at h
  extract_lets b at h
  split at h
  · rename_i hb _
    exact Option.some.inj h ▸ hb
  · rename_i hb
    exact Option.some.inj h ▸ hb
  · cases h
  · rename_i hb hb'
    split at h
    · exact Option.some.inj h ▸ hb
    · exact Option.some.inj h ▸ hb'
    · obtain rfl := Option.some.inj h
      split
      · exact hb'
      · rcases Nat.mod_two_eq_zero_or_one b with heven | hodd
        · rwa [heven, Nat.add_zero]
        · rwa [hodd]

/-! ### The grids -/

lemma stripZeros_value (steps a : Nat) (p : Int) :
    ((stripZeros steps a p).1 * 10 ^ (stripZeros steps a p).2 : Rat) = a * 10 ^ p := by
  induction steps generalizing a p with
  | zero => rfl
  | succ steps ih =>
    rw [stripZeros]
    split
    · rename_i hzero
      have hten : (a : Rat) = (a / 10 : Nat) * 10 := by
        exact_mod_cast (Nat.div_mul_cancel (Nat.dvd_of_mod_eq_zero hzero)).symm
      rw [ih, hten, zpow_add_one₀ (by norm_num)]
      ring
    · rfl

/-- The multiple below a number is less than one step of the grid away from it. -/
lemma floorScaled_bounds (x : Nat) (e p : Int) :
    (floorScaled x e p * 10 ^ p : Rat) ≤ x * 2 ^ e ∧ (x * 2 ^ e : Rat) < (floorScaled x e p + 1) * 10 ^ p := by
  obtain ⟨k, hpos, hnumber, hstep⟩ := cast_scaled x e 1 p
  have hbelow : floorScaled x e p * (1 * pow10 p * pow2 (-e)) ≤ x * pow2 e * pow10 (-p) := by
    rw [Nat.one_mul]
    exact Nat.div_mul_le_self _ _
  have habove : x * pow2 e * pow10 (-p) < (floorScaled x e p + 1) * (1 * pow10 p * pow2 (-e)) := by
    rw [Nat.one_mul]
    exact Nat.lt_mul_of_div_lt (Nat.lt_succ_self _) (Nat.mul_pos (pow10_pos p) (pow2_pos (-e)))
  rw [← Nat.cast_le (α := Rat), hnumber, Nat.cast_mul, hstep] at hbelow
  rw [← Nat.cast_lt (α := Rat), hnumber, Nat.cast_mul, hstep] at habove
  push_cast at hbelow habove
  constructor
  · refine le_of_mul_le_mul_right ?_ hpos
    linarith
  · refine lt_of_mul_lt_mul_right ?_ hpos.le
    linarith

/-- A grid of 17 digits more than the first is finer than a fourth of the unit of a number. -/
lemma pow_finest_lt (h : IsRounded m e) (hm : m ≠ 0) :
    (10 : Rat) ^ (leadingPower m e - maxDigits) < 2 ^ (e - 2) := by
  have hpos : (0 : Rat) < 2 ^ (e - 2) := by positivity
  have hlead := pow_leadingPower_le hm e
  have hbits : (m : Rat) * 2 ^ (e - 2) < 2 ^ 53 * 2 ^ (e - 2) := by
    refine mul_lt_mul_of_pos_right ?_ hpos
    exact_mod_cast h.bits
  rw [Binary64.pow_eq_fourths e] at hlead
  rw [zpow_sub₀ (by norm_num), div_lt_iff₀ (by positivity)]
  norm_num [maxDigits] at hbits ⊢
  linarith

/-- The multiple below a number is in the interval on the finest grid. -/
lemma contains_floor (h : IsRounded m e) (hm : m ≠ 0) :
    (interval m e).Contains (floorScaled (4 * m) (e - 2) (leadingPower m e - maxDigits)
      * 10 ^ (leadingPower m e - maxDigits)) := by
  have hpos : (0 : Rat) < 2 ^ (e - 2) := by positivity
  obtain ⟨hbelow, habove⟩ := floorScaled_bounds (4 * m) (e - 2) (leadingPower m e - maxDigits)
  have hstep := pow_finest_lt h hm
  have hlow := mul_le_mul_of_nonneg_right (Binary64.interval_low hm e).2 hpos.le
  have hexponent : (interval m e).exponent = e - 2 := rfl
  push_cast at hbelow habove
  have hinner : ((interval m e).low * 2 ^ (interval m e).exponent : Rat)
        < floorScaled (4 * m) (e - 2) (leadingPower m e - maxDigits) * 10 ^ (leadingPower m e - maxDigits) ∧
      (floorScaled (4 * m) (e - 2) (leadingPower m e - maxDigits) * 10 ^ (leadingPower m e - maxDigits) : Rat)
        < (interval m e).high * 2 ^ (interval m e).exponent := by
    rw [Binary64.interval_high, hexponent]
    constructor <;> linarith
  exact ⟨hinner.1.le, hinner.2.le, fun _ => hinner⟩

lemma search_contains (h : IsRounded m e) (hm : m ≠ 0) (tiesUp : Bool) (left : Nat) :
    (interval m e).Contains ((search tiesUp (interval m e) (leadingPower m e) left).1
      * 10 ^ (search tiesUp (interval m e) (leadingPower m e) left).2) := by
  induction left with
  | zero => exact contains_floor h hm
  | succ left ih =>
    rw [search]
    split
    · rename_i hgrid
      refine contains_of_holds ?_ (holds_of_onGrid hgrid)
      refine mul_le_mul_of_nonneg_right ?_ (by positivity)
      rw [Binary64.interval_high]
      linarith [(Binary64.interval_low hm e).2]
    · exact ih

/-- **The digits of a number stand for a number in the interval around it.** -/
theorem digits_contains (h : IsRounded m e) (hm : m ≠ 0) (tiesUp : Bool) :
    (interval m e).Contains ((digits tiesUp m e).1 * 10 ^ (digits tiesUp m e).2) := by
  rw [digits]
  exact (stripZeros_value _ _ _).symm ▸ search_contains h hm tiesUp maxDigits

end Shortest

end GraphQL
