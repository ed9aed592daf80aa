/-!
Floating point numbers of 64 bits, as exact values.

A finite number is a significand times a power of two. Every operation works out the exact result
as a quotient of naturals and rounds it once, to the nearest number and in a tie to the even one.
-/

namespace GraphQL

/-- A finite number is `significand * 2 ^ exponent` with its sign. The significand has 53 bits,
unless the exponent is the least there is. -/
inductive Binary64 where
  | finite (negative : Bool) (significand : Nat) (exponent : Int)
  | infinite (negative : Bool)
  | nan
deriving DecidableEq, Repr, Inhabited

namespace Binary64

/-- The exponent of the numbers closest to zero. -/
def minExponent : Int := -1074

/-- The exponent of the largest numbers. -/
def maxExponent : Int := 971

def isFinite : Binary64 → Bool
  | finite .. => true
  | _ => false

def zero (negative : Bool) : Binary64 := finite negative 0 minExponent

def negate : Binary64 → Binary64
  | finite s m e => finite (!s) m e
  | infinite s => infinite (!s)
  | nan => nan

/-- `2 ^ e`, or 1 where the exponent is negative. -/
def pow2 (e : Int) : Nat := Nat.pow 2 e.toNat

/-- `10 ^ e`, or 1 where the exponent is negative. -/
def pow10 (e : Int) : Nat := Nat.pow 10 e.toNat

/-- `n / d`, to the nearest natural, and in a tie to the even one. -/
def roundQuotient (n d : Nat) : Nat :=
  let q := n / d
  if 2 * (n % d) < d then q else if d < 2 * (n % d) then q + 1 else q + q % 2

/-- `n / d` in units of `2 ^ e`, rounded. -/
def inUnits (n d : Nat) (e : Int) : Nat :=
  roundQuotient (n * pow2 (-e)) (d * pow2 e)

/-- The exponent with which `n / d` has a significand of 53 bits, or the least exponent. -/
def exponentFor (n d : Nat) : Int :=
  let guess : Int := (n.log2 : Int) - d.log2 - 52
  let fits := d * pow2 52 * pow2 guess ≤ n * pow2 (-guess)
  max minExponent (if fits then guess else guess - 1)

/-- The number closest to `n / d`. -/
def ofQuotient (negative : Bool) (n d : Nat) : Binary64 :=
  if n = 0 then zero negative
  else
    let e := exponentFor n d
    let m := inUnits n d e
    let (m, e) := if m = pow2 53 then (pow2 52, e + 1) else (m, e)
    if maxExponent < e then infinite negative else finite negative m e

/-- Decimal exponents beyond these lead to infinity and to zero, whatever the digits. -/
def decimalRange : Int × Int := (-400, 400)

def decimalLength (n : Nat) : Nat := (Nat.toDigits 10 n).length

/-- The number closest to `digits * 10 ^ exponent`. -/
def ofDecimal (negative : Bool) (digits : Nat) (exponent : Int) : Binary64 :=
  let size : Int := exponent + decimalLength digits
  if digits = 0 || size < decimalRange.1 then zero negative
  else if decimalRange.2 < size then infinite negative
  else ofQuotient negative (digits * pow10 exponent) (pow10 (-exponent))

def ofInt (n : Int) : Binary64 := ofQuotient (n < 0) n.natAbs 1

/-- The product of a finite number with `10 ^ power`, both factors rounded. -/
def timesPowerOfTen (x : Binary64) (power : Nat) : Binary64 :=
  match x, ofDecimal false 1 power with
  | finite s m e, finite _ m' e' =>
    ofQuotient s (m * m' * pow2 (e + e')) (pow2 (-(e + e')))
  | _, _ => nan

/-- The quotient of a finite number and `10 ^ power`, both operands rounded. -/
def overPowerOfTen (x : Binary64) (power : Nat) : Binary64 :=
  match x, ofDecimal false 1 power with
  | finite s m e, finite _ m' e' =>
    ofQuotient s (m * pow2 (e - e')) (m' * pow2 (e' - e))
  | _, _ => nan

def isZero : Binary64 → Bool
  | finite _ m _ => m = 0
  | _ => false

/-- The integer that a number is, if it is one. -/
def toInt? : Binary64 → Option Int
  | finite s m e =>
    let n := m * pow2 e
    let d := pow2 (-e)
    if n % d = 0 then some (if s then -((n / d : Nat) : Int) else ((n / d : Nat) : Int)) else none
  | _ => none

end Binary64

end GraphQL
