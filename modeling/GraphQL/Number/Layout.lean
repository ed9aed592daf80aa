import GraphQL.Number.Shortest

/-!
Writing numbers.

A layout says where positional writing ends and how an exponent looks. Three layouts are in use:
`Layout.plain` for coerced values, `Layout.literal` for numbers in literals, and `Layout.json` for
responses.
-/

namespace GraphQL

/-- How a number is written. -/
structure Layout where
  /-- The powers of ten of the first digit, from and to, of numbers that are written without an
  exponent; `none` where all are. -/
  positional : Option (Int × Int)
  /-- A number written without an exponent has at least one digit behind the point. -/
  keepsPoint : Bool
  /-- A positive exponent has a plus sign. -/
  signsExponent : Bool
  /-- Of two digits that are equally close, the upper one is taken and not the even one. -/
  tiesUp : Bool

namespace Layout

/-- Never an exponent, and a point only in front of a digit that is not zero. -/
def plain : Layout := ⟨none, false, false, true⟩

/-- An exponent from 10^16 on and below 10^-4, and else at least one digit behind the point. -/
def literal : Layout := ⟨some (-4, 16), true, false, true⟩

/-- An exponent with a sign from 10^16 on and below 10^-5, and else at least one digit behind the
point. -/
def json : Layout := ⟨some (-5, 16), true, true, false⟩

def zeros (n : Nat) : List Char := List.replicate n '0'

/-- Digits whose first one counts powers `10 ^ lead`, without an exponent. -/
def positionalText (l : Layout) (ds : List Char) (lead : Int) : List Char :=
  if lead < 0 then '0' :: '.' :: (zeros (-lead - 1).toNat ++ ds)
  else
    let count := lead.toNat + 1
    let whole := ds.take count ++ zeros (count - ds.length)
    match ds.drop count with
    | [] => if l.keepsPoint then whole ++ ['.', '0'] else whole
    | fraction => whole ++ '.' :: fraction

/-- Digits whose first one counts powers `10 ^ lead`, with an exponent. -/
def scientificText (l : Layout) (ds : List Char) (lead : Int) : List Char :=
  let head :=
    match ds with
    | d :: e :: es => d :: '.' :: e :: es
    | ds => ds
  let sign := if 0 ≤ lead && l.signsExponent then ['+'] else []
  head ++ 'e' :: (sign ++ (toString lead).toList)

def magnitudeText (l : Layout) (m : Nat) (e : Int) : List Char :=
  if m = 0 then if l.keepsPoint then ['0', '.', '0'] else ['0']
  else
    let (a, p) := Shortest.digits l.tiesUp m e
    let ds := Nat.toDigits 10 a
    let lead := p + ds.length - 1
    match l.positional with
    | none => l.positionalText ds lead
    | some (from10, to10) =>
      if from10 ≤ lead && lead < to10 then l.positionalText ds lead else l.scientificText ds lead

/-- A number as a layout writes it. -/
def render (l : Layout) : Binary64 → String
  | .finite s m e => String.ofList ((if s then ['-'] else []) ++ l.magnitudeText m e)
  | .infinite s => if s then "-inf" else "inf"
  | .nan => "NaN"

end Layout

end GraphQL
