import GraphQL.Number.Binary64

/-!
The fewest digits that read back as a number.

The reals that round to a number form an interval around it, with its ends if the significand is
even. On the grid of the multiples of a power of ten, only the two neighbours of the number can be
the closest in the interval. Grids are tried from coarse to fine, and the first one with a
neighbour in the interval gives the digits.
-/

namespace GraphQL

namespace Shortest

open Binary64 (pow2 pow10)

/-- A number and the interval around it: all three times `10 ^ k` and over the same unit. The unit
is `2 ^ (exponent - 2)`, which makes the ends of the interval natural. -/
structure Interval where
  low : Nat
  middle : Nat
  high : Nat
  closed : Bool
  exponent : Int

/-- The interval around `m * 2 ^ e`. Below a power of two the numbers lie twice as close. -/
def interval (m : Nat) (e : Int) : Interval :=
  let narrow := m = pow2 52 && Binary64.minExponent < e
  ⟨4 * m - (if narrow then 1 else 2), 4 * m, 4 * m + 2, m % 2 = 0, e - 2⟩

/-- Compares `x * 2 ^ e` with `a * 10 ^ p`. -/
def compareScaled (x : Nat) (e : Int) (a : Nat) (p : Int) : Ordering :=
  compare (x * pow2 e * pow10 (-p)) (a * pow10 p * pow2 (-e))

/-- Whether `a * 10 ^ p` lies in an interval. -/
def Interval.holds (i : Interval) (a : Nat) (p : Int) : Bool :=
  match compareScaled i.low i.exponent a p, compareScaled i.high i.exponent a p with
  | .lt, .gt => true
  | .eq, _ | _, .eq => i.closed
  | _, _ => false

/-- The greatest `a` with `a * 10 ^ p ≤ x * 2 ^ e`. -/
def floorScaled (x : Nat) (e p : Int) : Nat :=
  (x * pow2 e * pow10 (-p)) / (pow10 p * pow2 (-e))

/-- The power of ten of the first digit of `x * 2 ^ e`. -/
def leadingPower (x : Nat) (e : Int) : Int :=
  let n := x * pow2 e
  let d := pow2 (-e)
  let guess : Int := (Binary64.decimalLength n : Int) - Binary64.decimalLength d
  if d * pow10 guess ≤ n * pow10 (-guess) then guess else guess - 1

/-- The closest multiple of `10 ^ p` in the interval, if there is one. -/
def onGrid (tiesUp : Bool) (i : Interval) (p : Int) : Option Nat :=
  let a := floorScaled i.middle i.exponent p
  match i.holds a p, i.holds (a + 1) p with
  | true, false => some a
  | false, true => some (a + 1)
  | false, false => none
  | true, true =>
    match compareScaled (2 * i.middle) i.exponent (2 * a + 1) p with
    | .lt => some a
    | .gt => some (a + 1)
    | .eq => some (if tiesUp then a + 1 else a + a % 2)

/-- Takes the zeros off the end of the digits. -/
def stripZeros : Nat → Nat → Int → Nat × Int
  | 0, a, p => (a, p)
  | steps + 1, a, p => if a % 10 = 0 then stripZeros steps (a / 10) (p + 1) else (a, p)

/-- Every number is told from all others by that many digits. -/
def maxDigits : Nat := 17

/-- Tries the grids that are left, `left` of them down to `10 ^ p`. -/
def search (tiesUp : Bool) (i : Interval) (lead : Int) : Nat → Nat × Int
  | 0 => (floorScaled i.middle i.exponent (lead - maxDigits), lead - maxDigits)
  | left + 1 =>
    let p := lead - (maxDigits - (left + 1) : Nat)
    match onGrid tiesUp i p with
    | some a => (a, p)
    | none => search tiesUp i lead left

/-- The digits of `m * 2 ^ e` and the power of ten of the last one. -/
def digits (tiesUp : Bool) (m : Nat) (e : Int) : Nat × Int :=
  let i := interval m e
  let (a, p) := search tiesUp i (leadingPower m e) maxDigits
  stripZeros (maxDigits + 1) a p

end Shortest

end GraphQL
