/-!
Classes of characters as ranges of code points.
-/

namespace GraphQL

/-- Closed ranges of code points, ascending and apart. -/
abbrev CharRanges := List (Nat × Nat)

namespace CharRanges

def contains (ranges : CharRanges) (c : Char) : Bool :=
  ranges.any fun (first, last) => first ≤ c.toNat && c.toNat ≤ last

/-- The number of code points in the ranges. -/
def count (ranges : CharRanges) : Nat :=
  ranges.foldr (fun (first, last) n => last + 1 - first + n) 0

/-- Every range has a member, and each stands behind the one before it. -/
def isAscending : CharRanges → Bool
  | [] => true
  | [(first, last)] => first ≤ last
  | (first, last) :: (next, last') :: rest =>
    first ≤ last && last < next && isAscending ((next, last') :: rest)

end CharRanges

end GraphQL
