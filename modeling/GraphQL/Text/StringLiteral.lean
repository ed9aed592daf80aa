/-!
String literals: from the raw text of a token to the text that it denotes, and back.

A quoted string is read escape by escape. A string between triple quotes knows the one escape
`\"""`; its lines lose the indentation that they share, and blank lines at both ends are dropped.
`quote` writes a text so that reading gives it back.
-/

namespace GraphQL

inductive StringLiteralError where
  | unterminated
  | invalidEscape (text : String)
  | invalidUnicodeEscape (text : String)
  | invalidCharacter (c : Char)
deriving DecidableEq, Repr

namespace StringLiteral

/-! ### Hexadecimal digits -/

def hexValue? (c : Char) : Option Nat :=
  if '0' ≤ c ∧ c ≤ '9' then some (c.toNat - '0'.toNat)
  else if 'a' ≤ c ∧ c ≤ 'f' then some (c.toNat - 'a'.toNat + 10)
  else if 'A' ≤ c ∧ c ≤ 'F' then some (c.toNat - 'A'.toNat + 10)
  else none

def hexDigit (upper : Bool) (n : Nat) : Char :=
  if n < 10 then Char.ofNat ('0'.toNat + n)
  else Char.ofNat ((if upper then 'A' else 'a').toNat + (n - 10))

/-- The number in base sixteen, with zeros in front up to `width` digits. -/
def hex (upper : Bool) (width n : Nat) : List Char :=
  let digits := digitsOf n
  List.replicate (width - digits.length) '0' ++ digits
where
  digitsOf (n : Nat) : List Char :=
    if n < 16 then [hexDigit upper n] else digitsOf (n / 16) ++ [hexDigit upper (n % 16)]

def ofHex (digits : List Char) : Nat :=
  digits.foldl (fun n c => 16 * n + (hexValue? c).getD 0) 0

/-! ### Quoted strings -/

/-- Control characters may not stand in a string, tabs and line ends apart. -/
def isForbidden (c : Char) : Bool := c < ' ' && c != '\t' && c != '\n' && c != '\r'

/-- Code points of a size that no word of 32 bits holds are refused with the digits. -/
def codePointLimit : Nat := 4294967296

/-- The digits of an escape between braces, up to the closing one, and what follows it. -/
def bracedDigits (read : List Char) :
    List Char → Except StringLiteralError (List Char × List Char)
  | [] => .error (.invalidUnicodeEscape (String.ofList ("\\u\x7b".toList ++ read.reverse)))
  | c :: cs =>
    if c = '\x7d' then .ok (read.reverse, cs)
    else if (hexValue? c).isSome then bracedDigits (c :: read) cs
    else .error (.invalidUnicodeEscape (String.ofList ("\\u\x7b".toList ++ read.reverse ++ [c])))

/-- The next `count` digits of an escape, and what follows them. -/
def fixedDigits (read : List Char) :
    Nat → List Char → Except StringLiteralError (List Char × List Char)
  | 0, cs => .ok (read.reverse, cs)
  | _ + 1, [] => .error (.invalidUnicodeEscape (String.ofList ("\\u".toList ++ read.reverse)))
  | n + 1, c :: cs =>
    if (hexValue? c).isSome then fixedDigits (c :: read) n cs
    else .error (.invalidUnicodeEscape (String.ofList ("\\u".toList ++ read.reverse ++ [c])))

/-- The number behind `\u`, written with four digits or with any number of them in braces. -/
def codePoint : List Char → Except StringLiteralError (Nat × List Char)
  | '\x7b' :: cs => do
    let (digits, rest) ← bracedDigits [] cs
    if digits.isEmpty then throw (.invalidUnicodeEscape "\\u\x7b\x7d")
    if codePointLimit ≤ ofHex digits then
      throw (.invalidUnicodeEscape (String.ofList ("\\u\x7b".toList ++ digits ++ ['\x7d'])))
    return (ofHex digits, rest)
  | cs => do
    let (digits, rest) ← fixedDigits [] 4 cs
    return (ofHex digits, rest)

def isLeadingSurrogate (n : Nat) : Bool := 0xD800 ≤ n && n ≤ 0xDBFF

def isTrailingSurrogate (n : Nat) : Bool := 0xDC00 ≤ n && n ≤ 0xDFFF

def joinSurrogates (leading trailing : Nat) : Nat :=
  0x10000 + (leading - 0xD800) * 0x400 + (trailing - 0xDC00)

/-- The character of a code point on its own. -/
def character (n : Nat) : Except StringLiteralError Char :=
  if n.isValidChar then .ok (Char.ofNat n)
  else .error (.invalidUnicodeEscape (String.ofList ("\\u".toList ++ hex true 4 n)))

/-- The trailing surrogate behind a leading one, if the next escape holds one. -/
def trailingSurrogate (leading : Nat) (cs : List Char) :
    Except StringLiteralError (Option (Nat × List Char)) :=
  match isLeadingSurrogate leading, cs with
  | true, '\\' :: 'u' :: cs => do
    let (n, rest) ← codePoint cs
    return if isTrailingSurrogate n then some (n, rest) else none
  | _, _ => return none

/-- The character behind `\u`. A leading surrogate is joined with the trailing one behind it. -/
def unicodeEscape (cs : List Char) : Except StringLiteralError (Char × List Char) := do
  let (n, rest) ← codePoint cs
  match ← trailingSurrogate n rest with
  | some (m, rest) => return (← character (joinSurrogates n m), rest)
  | none => return (← character n, rest)

/-- What the letter behind a backslash stands for. -/
def escape? : Char → Option Char
  | 'n' => some '\n'
  | 'r' => some '\r'
  | 't' => some '\t'
  | '\\' => some '\\'
  | '"' => some '"'
  | '/' => some '/'
  | 'b' => some '\x08'
  | 'f' => some '\x0c'
  | _ => none

theorem length_bracedDigits {read cs : List Char} {r : List Char × List Char}
    (h : bracedDigits read cs = .ok r) : r.2.length < cs.length := by
  induction cs generalizing read with
  | nil => simp [bracedDigits] at h
  | cons c cs ih =>
    unfold bracedDigits at h
    split at h
    · cases h; simp
    · split at h
      · have := ih h; simp only [List.length_cons]; omega
      · simp at h

theorem length_fixedDigits {read cs : List Char} {n : Nat} {r : List Char × List Char}
    (h : fixedDigits read n cs = .ok r) : r.2.length + n = cs.length := by
  induction n generalizing read cs with
  | zero => simp only [fixedDigits, Except.ok.injEq] at h; subst h; simp
  | succ n ih =>
    cases cs with
    | nil => simp [fixedDigits] at h
    | cons c cs =>
      unfold fixedDigits at h
      split at h
      · have := ih h; simp only [List.length_cons]; omega
      · simp at h

theorem eq_ok_of_bind {α β ε : Type} {x : Except ε α} {f : α → Except ε β} {b : β}
    (h : (x >>= f) = .ok b) : ∃ a, x = .ok a ∧ f a = .ok b := by
  cases x with
  | error e => simp [bind, Except.bind] at h
  | ok a => exact ⟨a, rfl, h⟩

theorem length_codePoint {cs : List Char} {r : Nat × List Char} (h : codePoint cs = .ok r) :
    r.2.length < cs.length := by
  unfold codePoint at h
  split at h
  · obtain ⟨p, hp, h⟩ := eq_ok_of_bind h
    have := length_bracedDigits hp
    dsimp only at h
    split at h
    · cases h
    · split at h
      · cases h
      · cases h; simp only [List.length_cons]; omega
  · obtain ⟨p, hp, h⟩ := eq_ok_of_bind h
    have := length_fixedDigits hp
    cases h; dsimp only; omega

theorem length_trailingSurrogate {n : Nat} {cs : List Char} {r : Nat × List Char}
    (h : trailingSurrogate n cs = .ok (some r)) : r.2.length < cs.length := by
  unfold trailingSurrogate at h
  split at h
  · obtain ⟨p, hp, h⟩ := eq_ok_of_bind h
    have := length_codePoint hp
    dsimp only at h
    split at h
    · cases h; simp only [List.length_cons]; omega
    · cases h
  · cases h

theorem length_unicodeEscape {cs : List Char} {r : Char × List Char}
    (h : unicodeEscape cs = .ok r) : r.2.length < cs.length := by
  unfold unicodeEscape at h
  obtain ⟨p, hp, h⟩ := eq_ok_of_bind h
  have := length_codePoint hp
  obtain ⟨q, hq, h⟩ := eq_ok_of_bind h
  cases q with
  | none =>
    obtain ⟨c, -, h⟩ := eq_ok_of_bind h
    cases h; exact this
  | some q =>
    have := length_trailingSurrogate hq
    obtain ⟨c, -, h⟩ := eq_ok_of_bind h
    cases h; dsimp only; omega

/-- Reads a quoted string behind its opening quote; `read` is the text so far, last character
first. The closing quote must be the last character. -/
def readQuoted (read : List Char) (cs : List Char) : Except StringLiteralError (List Char) :=
  match cs with
  | [] => .error .unterminated
  | c :: cs =>
    if c = '"' then if cs.isEmpty then .ok read.reverse else .error .unterminated
    else if c = '\\' then
      match cs with
      | [] => .error (.invalidEscape "\\")
      | 'u' :: ds =>
        match _h : unicodeEscape ds with
        | .error e => .error e
        | .ok (d, rest) => readQuoted (d :: read) rest
      | d :: ds =>
        match escape? d with
        | some x => readQuoted (x :: read) ds
        | none => .error (.invalidEscape (String.ofList ['\\', d]))
    else if isForbidden c then .error (.invalidCharacter c)
    else readQuoted (c :: read) cs
termination_by cs.length
decreasing_by
  · have := length_unicodeEscape _h
    dsimp only [List.length_cons] at this ⊢; omega
  · simp only [List.length_cons]; omega
  · simp only [List.length_cons]; omega

/-! ### Strings between triple quotes -/

def tripleQuote : List Char := ['"', '"', '"']

/-- Writes every escaped triple quote as the triple quote alone. -/
def unescapeTriple : List Char → List Char
  | [] => []
  | '\\' :: '"' :: '"' :: '"' :: cs => '"' :: '"' :: '"' :: unescapeTriple cs
  | c :: cs => c :: unescapeTriple cs

/-- The lines of a text. A carriage return and the line feed behind it end one line; `line` is the
part of the current line that was read, last character first. -/
def splitLines (line : List Char) : List Char → List (List Char)
  | [] => [line.reverse]
  | '\r' :: '\n' :: cs => line.reverse :: splitLines [] cs
  | c :: cs =>
    if c = '\n' || c = '\r' then line.reverse :: splitLines [] cs else splitLines (c :: line) cs

def isIndent (c : Char) : Bool := c = ' ' || c = '\t'

def isBlankLine (line : List Char) : Bool := line.all isIndent

def indentation (line : List Char) : Nat := (line.takeWhile isIndent).length

/-- The indentation that the lines share, blank lines apart. -/
def sharedIndentation (lines : List (List Char)) : Nat :=
  (((lines.filter fun l => !isBlankLine l).map indentation).min?).getD 0

/-- Takes the shared indentation off. A line shorter than that is blank and stays. -/
def dedent (shared : Nat) (line : List Char) : List Char :=
  if line.length < shared then line else line.drop shared

def trimBlankLines (lines : List (List Char)) : List (List Char) :=
  ((lines.dropWhile isBlankLine).reverse.dropWhile isBlankLine).reverse

/-- The text of the lines, joined by line feeds. -/
def joinLines (lines : List (List Char)) : List Char := (lines.intersperse ['\n']).flatten

/-- The text denoted by what stands between triple quotes. -/
def blockText (content : List Char) : List Char :=
  match splitLines [] (unescapeTriple content) with
  | [] => []
  | first :: rest =>
    joinLines (trimBlankLines (first :: rest.map (dedent (sharedIndentation rest))))

def endsWith (cs ending : List Char) : Bool := ending.reverse.isPrefixOf cs.reverse

/-- Reads a string between triple quotes, given its whole raw text. -/
def readBlock (raw : List Char) : Except StringLiteralError (List Char) :=
  if raw.length < 6 || !endsWith raw tripleQuote || endsWith raw ('\\' :: tripleQuote) then
    .error .unterminated
  else
    let content := (raw.drop 3).take (raw.length - 6)
    match (unescapeTriple content).find? isForbidden with
    | some c => .error (.invalidCharacter c)
    | none => .ok (blockText content)

/-! ### Both forms -/

/-- The text that the raw text of a string token denotes. -/
def cook (raw : String) : Except StringLiteralError String :=
  String.ofList <$>
    match raw.toList with
    | '"' :: '"' :: '"' :: cs => readBlock ('"' :: '"' :: '"' :: cs)
    | '"' :: cs => readQuoted [] cs
    | _ => .error .unterminated

/-- How a character stands in a quoted string. -/
def quoteChar (c : Char) : List Char :=
  match c with
  | '"' => ['\\', '"']
  | '\\' => ['\\', '\\']
  | '\n' => ['\\', 'n']
  | '\r' => ['\\', 'r']
  | '\t' => ['\\', 't']
  | '\x08' => ['\\', 'b']
  | '\x0c' => ['\\', 'f']
  | c => if c < ' ' then '\\' :: 'u' :: hex true 4 c.toNat else [c]

/-- Writes a text as a quoted string. -/
def quote (text : String) : String :=
  String.ofList ('"' :: (text.toList.flatMap quoteChar ++ ['"']))

end StringLiteral

end GraphQL
