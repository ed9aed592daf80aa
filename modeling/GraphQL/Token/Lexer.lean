import GraphQL.Token

/-!
Cutting a source text into tokens.

Between two tokens stands ignored text: blanks, line ends, commas, byte order marks and comments.
At the first character of a token, `Token.extent` says of which kind the token is and how many
characters belong to it; nothing is lost, as the text is cut there. The extent is never zero, which
is why cutting ends.
-/

namespace GraphQL

def isLineEnd (c : Char) : Bool := c = '\n' || c = '\r'

def isNameStart (c : Char) : Bool := c.isAlpha || c = '_'

def isNamePart (c : Char) : Bool := c.isAlphanum || c = '_'

/-- Characters that may stand anywhere between tokens. -/
def isIgnored (c : Char) : Bool :=
  c = ' ' || c = '\t' || c = '\n' || c = '\r' || c = ',' || c = '\ufeff'

/-- What follows the ignored text at the start of a text, and the place where that begins.
`inComment` holds within a comment, which ends where its line ends. -/
def skipIgnored (inComment : Bool) (here : Nat) : List Char → Nat × List Char
  | [] => (here, [])
  | c :: cs =>
    if inComment then skipIgnored (!isLineEnd c) (here + c.utf8Size) cs
    else if c = '#' then skipIgnored true (here + c.utf8Size) cs
    else if isIgnored c then skipIgnored false (here + c.utf8Size) cs
    else (here, c :: cs)

theorem length_skipIgnored_le (b : Bool) (n : Nat) (cs : List Char) :
    (skipIgnored b n cs).2.length ≤ cs.length := by
  fun_induction skipIgnored b n cs <;> simp_all <;> omega

namespace Token

/-- The number of characters of a quoted string that are left to read, and whether the closing
quote is among them. The string ends before the end of its line. -/
def stringExtent : List Char → Nat → Nat × Bool
  | [], n => (n, false)
  | '"' :: _, n => (n + 1, true)
  | '\\' :: '"' :: cs, n => stringExtent cs (n + 2)
  | '\\' :: '\\' :: cs, n => stringExtent cs (n + 2)
  | c :: cs, n => if isLineEnd c then (n, false) else stringExtent cs (n + 1)

/-- As `stringExtent`, for a string between triple quotes, which may hold line ends. -/
def blockExtent : List Char → Nat → Nat × Bool
  | [], n => (n, false)
  | '\\' :: '"' :: '"' :: '"' :: cs, n => blockExtent cs (n + 4)
  | '"' :: '"' :: '"' :: _, n => (n + 3, true)
  | _ :: cs, n => blockExtent cs (n + 1)

/-- How many digits a text starts with. -/
def digits (cs : List Char) : Nat := (cs.takeWhile Char.isDigit).length

/-- The extent of a fraction: a point and at least one digit. -/
def fractionExtent : List Char → Nat
  | '.' :: cs => if digits cs = 0 then 0 else 1 + digits cs
  | _ => 0

/-- The extent of an exponent: a mark, a sign or none, and at least one digit. A mark without a
digit is `none`. -/
def exponentExtent? : List Char → Option Nat
  | c :: cs =>
    if c = 'e' || c = 'E' then
      let sign := if cs.head? = some '+' || cs.head? = some '-' then 1 else 0
      let count := digits (cs.drop sign)
      if count = 0 then none else some (1 + sign + count)
    else some 0
  | [] => some 0

/-- The characters that a malformed number takes with it. -/
def isNumberLike (c : Char) : Bool := c.isAlphanum || c = '.' || c = '+' || c = '-' || c = '_'

/-- A text up to its first three points in a row. -/
def beforeEllipsis : List Char → List Char
  | [] => []
  | '.' :: '.' :: '.' :: _ => []
  | c :: cs => c :: beforeEllipsis cs

def malformedExtent (cs : List Char) : Nat :=
  (beforeEllipsis (cs.takeWhile isNumberLike)).length

/-- Whether a number that ends here would run into what follows. -/
def runsOn (isFloat : Bool) : List Char → Bool
  | c :: _ => isNameStart c || (isFloat && c = '.')
  | [] => false

/-- The kind and extent of a text that starts with a digit or a minus sign. -/
def numberExtent (cs : List Char) : TokenKind × Nat :=
  let sign := if cs.head? = some '-' then 1 else 0
  let count := digits (cs.drop sign)
  if count = 0 then (.unknown, sign)
  else if (cs.drop sign).head? = some '0' && 1 < count then (.unknown, malformedExtent cs)
  else
    let whole := sign + count
    let fraction := fractionExtent (cs.drop whole)
    match exponentExtent? (cs.drop (whole + fraction)) with
    | none => (.unknown, malformedExtent cs)
    | some exponent =>
      let extent := whole + fraction + exponent
      let isFloat := fraction + exponent != 0
      if runsOn isFloat (cs.drop extent) then (.unknown, malformedExtent cs)
      else (if isFloat then .float else .int, extent)

/-- The kind of the token that a text starts with, and the number of its characters. -/
def extent : List Char → TokenKind × Nat
  | [] => (.unknown, 0)
  | '!' :: _ => (.bang, 1)
  | '$' :: _ => (.dollar, 1)
  | '(' :: _ => (.parenOpen, 1)
  | ')' :: _ => (.parenClose, 1)
  | ':' :: _ => (.colon, 1)
  | '=' :: _ => (.equals, 1)
  | '@' :: _ => (.atSign, 1)
  | '[' :: _ => (.bracketOpen, 1)
  | ']' :: _ => (.bracketClose, 1)
  | '\x7b' :: _ => (.braceOpen, 1)
  | '\x7d' :: _ => (.braceClose, 1)
  | '|' :: _ => (.pipe, 1)
  | '.' :: '.' :: '.' :: _ => (.ellipsis, 3)
  | '"' :: '"' :: '"' :: cs => (.blockString, (blockExtent cs 3).1)
  | '"' :: cs => (.string, (stringExtent cs 1).1)
  | c :: cs =>
    if isNameStart c then (.name, 1 + (cs.takeWhile isNamePart).length)
    else if c = '-' || c.isDigit then numberExtent (c :: cs)
    else (.unknown, 1)

theorem le_stringExtent (cs : List Char) (n : Nat) : n ≤ (stringExtent cs n).1 := by
  fun_induction stringExtent cs n <;> first | (simp; done) | omega

theorem le_blockExtent (cs : List Char) (n : Nat) : n ≤ (blockExtent cs n).1 := by
  fun_induction blockExtent cs n <;> first | (simp; done) | omega

theorem malformedExtent_pos {c : Char} {cs : List Char} (h : c = '-' ∨ c.isDigit = true) :
    0 < malformedExtent (c :: cs) := by
  have hl : isNumberLike c = true := by
    rcases h with rfl | h <;> simp_all [isNumberLike, Char.isAlphanum]
  have hp : c ≠ '.' := by rintro rfl; revert h; decide
  unfold malformedExtent
  rw [List.takeWhile_cons_of_pos hl]
  unfold beforeEllipsis
  split <;> simp_all

theorem numberExtent_pos {c : Char} {cs : List Char} (h : c = '-' ∨ c.isDigit = true) :
    0 < (numberExtent (c :: cs)).2 := by
  have hm : 0 < malformedExtent (c :: cs) := malformedExtent_pos h
  unfold numberExtent
  extract_lets sign count
  split
  · rename_i hz
    rcases h with rfl | h
    · simp [sign]
    · have hd : c ≠ '-' := by rintro rfl; revert h; decide
      simp [count, sign, hd, digits, h] at hz
  · split
    · exact hm
    · split
      · exact hm
      · extract_lets extent isFloat
        split
        · exact hm
        · dsimp only; omega

theorem extent_pos (c : Char) (cs : List Char) : 0 < (extent (c :: cs)).2 := by
  generalize h : c :: cs = ds
  unfold extent
  split <;> try (simp; done)
  · simp at h
  · exact Nat.lt_of_lt_of_le (by decide) (le_blockExtent ..)
  · exact Nat.lt_of_lt_of_le (by decide) (le_stringExtent ..)
  · split
    · simp only; omega
    · split
      · rename_i hc
        exact numberExtent_pos (by simpa using hc)
      · simp

/-- The tokens of a text whose first character is `here` bytes into the source. -/
def lexFrom (here : Nat) (cs : List Char) : List Token :=
  match _h : skipIgnored false here cs with
  | (_, []) => []
  | (start, c :: ds) =>
    let e := extent (c :: ds)
    let text := String.ofList ((c :: ds).take e.2)
    ⟨e.1, text, .ofOffset start⟩ :: lexFrom (start + text.utf8ByteSize) ((c :: ds).drop e.2)
termination_by cs.length
decreasing_by
  have hl := length_skipIgnored_le false here cs
  have hp := extent_pos c ds
  rw [_h] at hl
  simp only [List.length_drop, List.length_cons] at hl ⊢
  omega

/-- The tokens of a source text. -/
def lex (source : List Char) : List Token := lexFrom 0 source

end Token

end GraphQL
