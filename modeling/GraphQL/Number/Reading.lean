import GraphQL.Number.Binary64

/-!
Reading numbers.

An integer is digits with an optional sign. A floating point number may have a point and an exponent
as well, with at least one digit in front of the exponent, or is an infinity or no number by name.
-/

namespace GraphQL

namespace Reading

def digitValue (c : Char) : Nat := c.toNat - '0'.toNat

def ofDigits (cs : List Char) : Nat := cs.foldl (fun n c => 10 * n + digitValue c) 0

/-- Splits off an optional sign; `true` stands for a minus. -/
def sign : List Char → Bool × List Char
  | '-' :: cs => (true, cs)
  | '+' :: cs => (false, cs)
  | cs => (false, cs)

/-- The integer that a text is. -/
def int? (text : String) : Option Int :=
  let (negative, cs) := sign text.toList
  if cs.isEmpty || !cs.all Char.isDigit then none
  else
    let n : Int := ofDigits cs
    some (if negative then -n else n)

/-- The integers of words of 32 bits. -/
def inInt32 (n : Int) : Bool := -2147483648 ≤ n && n ≤ 2147483647

/-- The integers of words of 64 bits. -/
def inInt64 (n : Int) : Bool := -9223372036854775808 ≤ n && n ≤ 9223372036854775807

def int64? (text : String) : Option Int := (int? text).filter inInt64

def int32? (text : String) : Option Int := (int? text).filter inInt32

/-- The value of an exponent: nothing, or a mark and a whole number. -/
def exponent? : List Char → Option Int
  | [] => some 0
  | c :: cs =>
    if c = 'e' || c = 'E' then
      let (negative, ds) := sign cs
      if ds.isEmpty || !ds.all Char.isDigit then none
      else
        let n : Int := ofDigits ds
        some (if negative then -n else n)
    else none

def decimal? (negative : Bool) (cs : List Char) : Option Binary64 :=
  let whole := cs.takeWhile Char.isDigit
  let behind := cs.dropWhile Char.isDigit
  let (fraction, rest) :=
    match behind with
    | '.' :: ds => (ds.takeWhile Char.isDigit, ds.dropWhile Char.isDigit)
    | ds => ([], ds)
  if whole.isEmpty && fraction.isEmpty then none
  else (exponent? rest).map fun e =>
    .ofDecimal negative (ofDigits (whole ++ fraction)) (e - fraction.length)

/-- The number closest to what a text says. -/
def float? (text : String) : Option Binary64 :=
  let (negative, cs) := sign text.toList
  match String.ofList (cs.map Char.toLower) with
  | "inf" | "infinity" => some (.infinite negative)
  | "nan" => some .nan
  | _ => decimal? negative cs

end Reading

end GraphQL
