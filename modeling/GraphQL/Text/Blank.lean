import GraphQL.Text.CharRange

/-!
White space: the characters with the Unicode property `White_Space`.
-/

namespace GraphQL

namespace Blank

def ranges : CharRanges :=
  [(0x9, 0xD), (0x20, 0x20), (0x85, 0x85), (0xA0, 0xA0), (0x1680, 0x1680), (0x2000, 0x200A),
    (0x2028, 0x2029), (0x202F, 0x202F), (0x205F, 0x205F), (0x3000, 0x3000)]

example : ranges.isAscending = true ∧ ranges.count = 25 := by decide

def isBlank (c : Char) : Bool := ranges.contains c

/-- A text without the white space at its ends. -/
def trim (text : String) : String :=
  String.ofList ((text.toList.dropWhile isBlank).reverse.dropWhile isBlank).reverse

end Blank

end GraphQL
