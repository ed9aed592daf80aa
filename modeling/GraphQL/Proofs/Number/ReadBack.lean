import Mathlib.Data.List.TakeWhile
import GraphQL.Number.Reading
import GraphQL.Proofs.Number.ShortestDigits

/-!
Numbers are read back as they are written.

An integer is read back from its digits. A floating point number is written with the fewest digits that
tell it from all others, and what those digits stand for is rounded to it again.
-/

namespace GraphQL

open Lexeme

namespace Reading

variable {cs ds whole fraction : List Char} {negative : Bool}

/-! ### Signs -/

/-- The minus sign of a negative number. -/
def minus (negative : Bool) : List Char := if negative then ['-'] else []

lemma sign_digits (h : IsDigits ds) (more : List Char) (negative : Bool) :
    sign (minus negative ++ (ds ++ more)) = (negative, ds ++ more) := by
  cases negative with
  | true => rfl
  | false =>
    obtain ⟨c, cs, rfl⟩ := List.exists_cons_of_ne_nil h.1
    have hc : c.isDigit = true := h.2 c List.mem_cons_self
    show sign (c :: (cs ++ more)) = _
    unfold sign
    split
    · rename_i heq
      obtain ⟨rfl, -⟩ := List.cons.inj heq
      exact absurd hc (by decide)
    · rename_i heq
      obtain ⟨rfl, -⟩ := List.cons.inj heq
      exact absurd hc (by decide)
    · rfl

/-- **An integer is read back from its text.** -/
theorem int?_toString (n : Int) : int? (toString n) = some n := by
  have htext : (toString n).toList = minus (n < 0) ++ (Nat.toDigits 10 n.natAbs ++ []) := by
    rw [toList_toString_int, List.append_nil, minus]
    simp
  have hdigits : IsDigits (Nat.toDigits 10 n.natAbs) := ⟨Nat.toDigits_ne_nil, isDigit_toDigits _⟩
  unfold int?
  rw [htext, sign_digits hdigits, List.append_nil]
  dsimp only
  rw [if_neg (by simpa using hdigits.2), ofDigits_toDigits]
  by_cases hn : n < 0
  · rw [if_pos (decide_eq_true hn)]
    congr
    omega
  · rw [if_neg (by simpa using hn)]
    congr
    omega

lemma int32?_toString {n : Int} (h : inInt32 n = true) : int32? (toString n) = some n := by
  rw [int32?, int?_toString, Option.filter_some, if_pos h]

/-! ### Decimals without an exponent -/

open Layout (pointed)

lemma decimal?_pointed (hwhole : IsDigits whole)
    (hfraction : ∀ c ∈ fraction, c.isDigit = true) (negative : Bool) :
    decimal? negative (pointed whole fraction)
      = some (.ofDecimal negative (ofDigits (whole ++ fraction)) (-fraction.length)) := by
  have hempty : whole.isEmpty = false := by simp [hwhole.1]
  unfold decimal? pointed
  by_cases h : fraction = []
  · subst h
    have htake : whole.takeWhile Char.isDigit = whole := List.takeWhile_eq_self_iff.mpr hwhole.2
    have hdrop : whole.dropWhile Char.isDigit = [] := List.dropWhile_eq_nil_iff.mpr hwhole.2
    simp only [if_true, List.append_nil, htake, hdrop, hempty]
    rfl
  · have htake : (whole ++ '.' :: fraction).takeWhile Char.isDigit = whole := by
      rw [List.takeWhile_append_of_pos hwhole.2, List.takeWhile_cons_of_neg (by decide), List.append_nil]
    have hdrop : (whole ++ '.' :: fraction).dropWhile Char.isDigit = '.' :: fraction := by
      rw [List.dropWhile_append_of_pos hwhole.2, List.dropWhile_cons_of_neg (by decide)]
    have htake' : fraction.takeWhile Char.isDigit = fraction := List.takeWhile_eq_self_iff.mpr hfraction
    have hdrop' : fraction.dropWhile Char.isDigit = [] := List.dropWhile_eq_nil_iff.mpr hfraction
    simp only [if_neg h, htake, hdrop, htake', hdrop', hempty]
    simp [exponent?]

lemma toLower_digit {c : Char} (hc : c.isDigit = true) : c.toLower = c := by
  simp only [Char.isDigit, Bool.and_eq_true, decide_eq_true_eq] at hc
  exact dif_neg fun h => absurd (UInt32.le_trans h.1 hc.2) (by decide)

/-- What starts with a digit is not the name of a number. -/
lemma ofList_ne {c : Char} (hc : c.isDigit = true) (cs : List Char) {name : String}
    (hname : name.toList.head?.any Char.isDigit = false) : String.ofList ((c :: cs).map Char.toLower) ≠ name := by
  rintro rfl
  rw [String.toList_ofList, List.map_cons, toLower_digit hc] at hname
  exact absurd hc (by simpa using hname)

lemma float?_pointed (hwhole : IsDigits whole)
    (hfraction : ∀ c ∈ fraction, c.isDigit = true) (negative : Bool) :
    float? (String.ofList (minus negative ++ pointed whole fraction))
      = some (.ofDecimal negative (ofDigits (whole ++ fraction)) (-fraction.length)) := by
  have hname {name : String} (hhead : name.toList.head?.any Char.isDigit = false) :
      String.ofList ((pointed whole fraction).map Char.toLower) ≠ name := by
    obtain ⟨c, cs, rfl⟩ := List.exists_cons_of_ne_nil hwhole.1
    exact ofList_ne (hwhole.2 c List.mem_cons_self) _ hhead
  unfold float?
  rw [String.toList_ofList, pointed, sign_digits hwhole, ← pointed]
  dsimp only
  split
  · rename_i h
    exact absurd h (hname (by decide))
  · rename_i h
    exact absurd h (hname (by decide))
  · rename_i h
    exact absurd h (hname (by decide))
  · exact decimal?_pointed hwhole hfraction negative

end Reading

/-! ### Decimals in the interval around a number -/

namespace Binary64

variable {m digits : Nat} {e exponent : Int} {negative : Bool}

lemma ofDecimal_zero (negative : Bool) (exponent : Int) : ofDecimal negative 0 exponent = zero negative := by
  simp [ofDecimal]

/-- The length of a number says between which powers of ten it lies. -/
lemma decimal_bounds (hdigits : digits ≠ 0) (exponent : Int) :
    (10 : Rat) ^ (exponent + decimalLength digits - 1) ≤ digits * 10 ^ exponent ∧
      (digits * 10 ^ exponent : Rat) < 10 ^ (exponent + decimalLength digits) := by
  have hpos : (0 : Rat) < 10 ^ exponent := by positivity
  have hlength : 0 < decimalLength digits := Nat.length_toDigits_pos
  have hlow : (10 : Rat) ^ (decimalLength digits - 1) ≤ digits := by
    exact_mod_cast Shortest.pow_le_of_decimalLength hdigits
  have hhigh : (digits : Rat) < 10 ^ decimalLength digits := by
    exact_mod_cast Shortest.lt_pow_decimalLength digits
  constructor
  · rw [show exponent + decimalLength digits - 1 = ((decimalLength digits - 1 : Nat) : Int) + exponent by omega,
      zpow_add₀ (by norm_num), zpow_natCast]
    gcongr
  · rw [Int.add_comm, zpow_add₀ (by norm_num), zpow_natCast]
    gcongr

lemma two_zpow_lt_ten_zpow {n : Nat} (hn : n ≠ 0) : (2 : Rat) ^ (3 * n : Int) < 10 ^ (n : Int) := by
  rw [zpow_mul, zpow_natCast, zpow_natCast]
  exact pow_lt_pow_left₀ (by norm_num) (by norm_num) hn

/-- Decimals in the interval around a number are far from both ends of the range. -/
lemma interval_range (h : IsRounded m e) (hm : m ≠ 0) {x : Rat} (hin : (Shortest.interval m e).Contains x) :
    (10 : Rat) ^ (-400 : Int) < x ∧ x < 10 ^ (399 : Int) := by
  have hpos : (0 : Rat) < 2 ^ (e - 2) := by positivity
  have hexponent : (Shortest.interval m e).exponent = e - 2 := rfl
  have hm1 : (1 : Rat) ≤ m := by exact_mod_cast Nat.one_le_iff_ne_zero.mpr hm
  have hbits : (m : Rat) + 1 ≤ 2 ^ (53 : Int) := by exact_mod_cast h.bits
  have hlow := hin.low
  have hhigh := hin.high
  rw [hexponent] at hlow hhigh
  rw [interval_high] at hhigh
  constructor
  · calc (10 : Rat) ^ (-400 : Int) < 2 ^ (-(3 * 400) : Int) := by
          rw [zpow_neg, zpow_neg]
          exact inv_strictAnti₀ (by positivity) (two_zpow_lt_ten_zpow (n := 400) (by decide))
      _ ≤ 2 ^ (1 + (e - 2)) := by
        refine zpow_le_zpow_right₀ (by norm_num) ?_
        have := h.least
        unfold minExponent at this
        omega
      _ = 2 * 2 ^ (e - 2) := by rw [zpow_add₀ (by norm_num), zpow_one]
      _ ≤ (Shortest.interval m e).low * 2 ^ (e - 2) := by
        gcongr
        linarith [(interval_low hm e).1]
      _ ≤ x := hlow
  · calc x ≤ (4 * m + 2) * 2 ^ (e - 2) := hhigh
      _ ≤ 2 ^ (55 : Int) * 2 ^ (e - 2) := by
        gcongr
        norm_num at hbits ⊢
        linarith
      _ = 2 ^ (55 + (e - 2)) := (zpow_add₀ (by norm_num) _ _).symm
      _ ≤ 2 ^ (3 * 399 : Int) := by
        refine zpow_le_zpow_right₀ (by norm_num) ?_
        have := h.greatest
        unfold maxExponent at this
        omega
      _ < 10 ^ (399 : Int) := two_zpow_lt_ten_zpow (n := 399) (by decide)

/-- **Decimals come back**: what lies in the interval around a number is read as that number. -/
theorem ofDecimal_eq (h : IsRounded m e) (hm : m ≠ 0)
    (hin : (Shortest.interval m e).Contains (digits * 10 ^ exponent)) :
    ofDecimal negative digits exponent = finite negative m e := by
  obtain ⟨hlow, hhigh⟩ := interval_range h hm hin
  have hdigits : digits ≠ 0 := by
    rintro rfl
    rw [Nat.cast_zero, zero_mul] at hlow
    exact absurd hlow (not_lt.mpr (by positivity))
  obtain ⟨hleast, hmost⟩ := decimal_bounds hdigits exponent
  have hlt : ∀ {a b : Int}, (10 : Rat) ^ a < 10 ^ b → a < b := (zpow_lt_zpow_iff_right₀ (by norm_num)).mp
  have hsize := hlt (hlow.trans hmost)
  have hsize' := hlt (hleast.trans_lt hhigh)
  have hsmall : ¬(digits = 0 || decide (exponent + decimalLength digits < decimalRange.1)) = true := by
    rw [Bool.or_eq_true, decide_eq_true_eq, decide_eq_true_eq]
    exact not_or.mpr ⟨hdigits, not_lt.mpr hsize.le⟩
  have hlarge : ¬decimalRange.2 < exponent + decimalLength digits := by
    rw [decimalRange]
    omega
  have hquotient : ((digits * pow10 exponent : Nat) / (pow10 (-exponent) : Nat) : Rat) = digits * 10 ^ exponent := by
    have hpos : (pow10 (-exponent) : Rat) ≠ 0 := by exact_mod_cast (Shortest.pow10_pos (-exponent)).ne'
    push_cast
    rw [Shortest.cast_pow10 exponent]
    field_simp
  unfold ofDecimal
  rw [if_neg hsmall, if_neg hlarge]
  exact ofQuotient_eq h hm (Shortest.pow10_pos _).ne' (hquotient ▸ hin)

/-! ### Numbers and their texts -/

/-- A finite number as rounding makes it. -/
inductive Representable : Binary64 → Prop where
  | mk (negative : Bool) {m : Nat} {e : Int} (rounded : IsRounded m e) : Representable (finite negative m e)

lemma isRounded_zero : IsRounded 0 minExponent := ⟨by decide, le_refl _, by decide, .inr rfl⟩

/-- What is read from a decimal is representable, unless it is infinite. -/
lemma ofDecimal_representable (h : (ofDecimal negative digits exponent).isFinite = true) :
    (ofDecimal negative digits exponent).Representable := by
  unfold ofDecimal at h ⊢
  dsimp only at h ⊢
  split_ifs at h ⊢
  · exact .mk _ isRounded_zero
  · cases h
  · obtain ⟨m, e, heq, hrounded⟩ := ofQuotient_isRounded (Shortest.pow10_pos _).ne' h
    exact heq ▸ .mk _ hrounded

end Binary64

/-- What is read from a text is representable, unless it is infinite or no number. -/
lemma Reading.float?_representable {text : String} {x : Binary64} (h : float? text = some x)
    (hx : x.isFinite = true) : x.Representable := by
  unfold float? at h
  dsimp only at h
  split at h
  · cases Option.some.inj h
    cases hx
  · cases Option.some.inj h
    cases hx
  · cases Option.some.inj h
    cases hx
  · unfold decimal? at h
    extract_lets whole behind at h
    split at h
    split at h
    · cases h
    · obtain ⟨e, -, rfl⟩ := Option.map_eq_some_iff.mp h
      exact Binary64.ofDecimal_representable hx

namespace Layout

variable {m : Nat} {e : Int} {x : Binary64}

/-- The plain text of a number that is not zero is a decimal of the value of its digits. -/
lemma magnitudeText_plain (hm : m ≠ 0) (e : Int) : ∃ whole fraction, plain.magnitudeText m e = pointed whole fraction ∧
    Decimal whole fraction ((Shortest.digits true m e).1 * 10 ^ (Shortest.digits true m e).2) := by
  obtain ⟨c, cs, hds, hc⟩ := toDigits_cons (Shortest.digits_ne_zero true hm e)
  have hne : Nat.toDigits 10 (Shortest.digits true m e).1 ≠ [] := Nat.toDigits_ne_nil
  have hfirst : (Nat.toDigits 10 (Shortest.digits true m e).1).head? ≠ some '0' := by simpa [hds] using hc
  unfold magnitudeText
  rw [if_neg hm]
  obtain ⟨whole, fraction, htext, -, hdecimal⟩ := plain.positionalText_pointed hne (isDigit_toDigits _) hfirst
    ((Shortest.digits true m e).2 + (Nat.toDigits 10 (Shortest.digits true m e).1).length - 1)
  refine ⟨whole, fraction, htext, ?_⟩
  rw [Reading.ofDigits_toDigits] at hdecimal
  convert hdecimal using 3
  ring

lemma plain_render (negative : Bool) (m : Nat) (e : Int) : plain.render (.finite negative m e)
    = String.ofList (Reading.minus negative ++ plain.magnitudeText m e) := rfl

lemma magnitudeText_zero (e : Int) : plain.magnitudeText 0 e = pointed ['0'] [] := rfl

/-- **A number is read back from its plain text.** -/
theorem float?_render (h : x.Representable) : Reading.float? (plain.render x) = some x := by
  obtain @⟨negative, m, e, hrounded⟩ := h
  rw [plain_render]
  by_cases hm : m = 0
  · subst hm
    obtain rfl : e = Binary64.minExponent := hrounded.full.resolve_left (by decide)
    rw [magnitudeText_zero, Reading.float?_pointed IsWhole.zero.isDigits.1 (by simp)]
    exact congrArg some (Binary64.ofDecimal_zero negative _)
  · obtain ⟨whole, fraction, htext, hdecimal⟩ := magnitudeText_plain hm e
    rw [htext, Reading.float?_pointed hdecimal.isWhole.isDigits.1 hdecimal.isDigit]
    refine congrArg some (Binary64.ofDecimal_eq hrounded hm ?_)
    rw [hdecimal.stands]
    exact Shortest.digits_contains hrounded hm true

lemma point_mem_pointed {whole fraction : List Char} (hwhole : IsWhole whole) (negative : Bool) :
    '.' ∈ Reading.minus negative ++ pointed whole fraction ↔ fraction ≠ [] := by
  have hminus : '.' ∉ Reading.minus negative := by cases negative <;> simp [Reading.minus]
  have hdigit : '.' ∉ whole := fun h => absurd (hwhole.isDigits.1.2 _ h) (by decide)
  by_cases h : fraction = [] <;> simp [pointed, hminus, hdigit, h]

/-- The plain text of a finite number with a point is a float, and without one it is an integer. -/
lemma plain_render_spells (h : x.isFinite = true) :
    if '.' ∈ (plain.render x).toList then IsFloat (plain.render x).toList else IsInt (plain.render x).toList := by
  cases x with
  | finite negative m e =>
    have hminus : IsMinus (Reading.minus negative) := by cases negative <;> simp [Reading.minus, IsMinus]
    obtain ⟨whole, fraction, htext, hwhole, hfraction⟩ : ∃ whole fraction,
        plain.magnitudeText m e = pointed whole fraction ∧ IsWhole whole ∧ ∀ d ∈ fraction, d.isDigit = true := by
      by_cases hm : m = 0
      · exact ⟨['0'], [], hm ▸ magnitudeText_zero e, .zero, by simp⟩
      · obtain ⟨whole, fraction, htext, hdecimal⟩ := magnitudeText_plain hm e
        exact ⟨whole, fraction, htext, hdecimal.isWhole, hdecimal.isDigit⟩
    rw [plain_render, String.toList_ofList, htext]
    by_cases hpoint : fraction = []
    · subst hpoint
      rw [if_neg fun h => (point_mem_pointed hwhole negative).mp h rfl]
      exact isInt_pointed hminus hwhole
    · rw [if_pos ((point_mem_pointed hwhole negative).mpr hpoint)]
      exact isFloat_pointed hminus hwhole hpoint hfraction
  | infinite => cases h
  | nan => cases h

end Layout

end GraphQL
