import GraphQL.Document.Literal
import GraphQL.Json
import GraphQL.Number.Layout

/-!
JSON values as literals.

Numbers and booleans keep their text, so that `1` and `"1"` stay apart. JSON knows no variables and
no enum values. A literal that comes from JSON has no place in a document and stands at the start.
-/

namespace GraphQL

namespace Literal

mutual

def ofJson : Json → Literal
  | .null => .null .start
  | .bool b => .scalar .boolean (if b then "true" else "false") .start
  | .int n => .scalar .int (toString n) .start
  | .float x => .scalar .float (Layout.literal.render x) .start
  | .string s => .scalar .string s .start
  | .array items => .list (ofJsonItems items) .start
  | .object members => .object (ofJsonMembers members) .start

def ofJsonItems : List Json → List Literal
  | [] => []
  | j :: js => ofJson j :: ofJsonItems js

def ofJsonMembers : List (String × Json) → List (Name × Literal)
  | [] => []
  | (n, j) :: ms => (⟨n, .start⟩, ofJson j) :: ofJsonMembers ms

end

end Literal

end GraphQL
