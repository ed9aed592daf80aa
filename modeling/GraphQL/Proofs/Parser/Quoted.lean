import GraphQL.Parser
import GraphQL.Proofs.Text.Position

/-!
What is quoted of a source where an error is shown.

An error is shown under the row of its place, by the number of the row. But rows are numbered by all line ends,
while a listing goes on behind a carriage return without a line feed. So a row is quoted as long as no such
carriage return stands in front of it or behind it; else what is quoted is found further down by as many lines
as rows were run together.
-/

namespace GraphQL

namespace Diagnostic

open Row

variable {acc acc' line text cs rest : List Char} {rs : List Row} {r : Row} {i j n : Nat}

/-! ### Listings and rows -/

variable {place : LineColumn} {source : List Char} {p : Pos} {mark : Char} {count : Nat}

end Diagnostic

namespace ParseError

open Diagnostic Row

variable {e : ParseError} {source : List Char} {p : Pos} {mark : Char} {count : Nat}

end ParseError

end GraphQL
