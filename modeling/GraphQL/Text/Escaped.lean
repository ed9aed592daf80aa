import GraphQL.Text.DefaultIgnorable
import GraphQL.Text.GraphemeExtend
import GraphQL.Text.NonPrinting
import GraphQL.Text.StringLiteral

/-!
Texts of a host in messages: in quotes, and with every character in sight.

What leaves no mark of its own is written as its code point, as is what would run into the character
in front of it.
-/

namespace GraphQL

namespace Escaped

/-- The sound marks of halfwidth katakana extend the letter in front of them, but are letters with a
width of their own. -/
def isHalfwidthSoundMark (c : Char) : Bool := c = '\uff9e' || c = '\uff9f'

/-- Whether a character runs into the one in front of it. -/
def isJoined (c : Char) : Bool := GraphemeExtend.ranges.contains c && !isHalfwidthSoundMark c

/-- Whether a character can be seen on its own. -/
def isVisible (c : Char) : Bool :=
  !isJoined c && !NonPrinting.ranges.contains c && !DefaultIgnorable.ranges.contains c

/-- The code point of a character, without leading zeros. -/
def codePoint (c : Char) : List Char :=
  '\\' :: 'u' :: '\x7b' :: ((Nat.toDigits 16 c.toNat) ++ ['\x7d'])

def char : Char → List Char
  | '\x00' => ['\\', '0']
  | '\t' => ['\\', 't']
  | '\r' => ['\\', 'r']
  | '\n' => ['\\', 'n']
  | '"' => ['\\', '"']
  | '\\' => ['\\', '\\']
  | c => if isVisible c then [c] else codePoint c

/-- A text in quotes. -/
def quote (text : String) : String :=
  String.ofList ('"' :: (text.toList.flatMap char ++ ['"']))

end Escaped

end GraphQL
