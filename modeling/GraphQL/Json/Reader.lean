import GraphQL.Json
import GraphQL.Number.Reading

/-!
Reading JSON texts.

Integers that fit a word of 64 bits stay integers, with a sign or without. All other numbers are
floating point: their first digits make an integer of 64 bits, and the rest only counts towards the
power of ten by which that integer is multiplied or divided. Containers nest `maxLevels` deep at
most.
-/

namespace GraphQL

namespace Json

/-- Reads a value from the front of a text and returns what follows it. -/
abbrev Reader (α : Type) := List Char → Option (α × List Char)

def isBlank (c : Char) : Bool := c = ' ' || c = '\n' || c = '\t' || c = '\r'

def skipBlanks (cs : List Char) : List Char := cs.dropWhile isBlank

/-! ### Numbers -/

/-- The largest integer of a word of 64 bits. -/
def maxWord : Nat := 18446744073709551615

/-- Adds digits to an integer as long as it fits a word, and returns the digits that are left. -/
def addDigits (n : Nat) : List Char → Nat × List Char
  | [] => (n, [])
  | c :: cs =>
    let m := 10 * n + Reading.digitValue c
    if m ≤ maxWord then addDigits m cs else (n, c :: cs)

/-- Divides by `10 ^ n`, in steps of `10 ^ 308` and a last one. -/
def divideByPower (x : Binary64) (n : Nat) : Binary64 :=
  if _h : 308 < n then
    if x.isZero then x else divideByPower (x.overPowerOfTen 308) (n - 308)
  else x.overPowerOfTen n
termination_by n
decreasing_by exact Nat.sub_lt (Nat.lt_trans (Nat.zero_lt_succ _) _h) (Nat.zero_lt_succ _)

/-- `n * 10 ^ e` in floating point, or nothing if that is infinite. -/
def scaled? (negative : Bool) (n : Nat) (e : Int) : Option Binary64 :=
  let x := Binary64.ofQuotient false n 1
  let y :=
    if e < 0 then divideByPower x (-e).toNat
    else if x.isZero then x
    else if 308 < e then .infinite false
    else x.timesPowerOfTen e.toNat
  if y.isFinite then some (if negative then y.negate else y) else none

/-- The exponents that are told apart. -/
def maxExponent : Nat := 2147483647

/-- Reads the sign and the digits of an exponent, behind its mark. -/
def exponent : Reader Int := fun cs =>
  let (negative, ds) := Reading.sign cs
  let digits := ds.takeWhile Char.isDigit
  if digits.isEmpty then none
  else
    let n : Int := Reading.ofDigits digits
    some (if negative then -n else n, ds.dropWhile Char.isDigit)

/-- Reads what may follow the digits of `n * 10 ^ e`: an exponent or nothing. -/
def scaledBy (negative : Bool) (n : Nat) (e : Int) : Reader Json
  | [] => (scaled? negative n e).map fun x => (float x, [])
  | c :: cs =>
    if c = 'e' || c = 'E' then
      match exponent cs with
      | none => none
      | some (f, rest) =>
        if maxExponent < f.natAbs then
          if n = 0 || f < 0 then some (float (.zero negative), rest) else none
        else (scaled? negative n (e + f)).map fun x => (float x, rest)
    else (scaled? negative n e).map fun x => (float x, c :: cs)

/-- Whether a text goes on with an exponent. -/
def startsExponent : List Char → Bool
  | c :: _ => c = 'e' || c = 'E'
  | [] => false

/-- An integer whose value fits a word, with its sign. -/
def integer (negative : Bool) (n : Nat) : Json :=
  if negative then
    if n = 0 || 9223372036854775808 < n then float (Binary64.ofQuotient true n 1) else int (-n)
  else int n

/-- Reads a number behind its sign. -/
def unsigned (negative : Bool) : Reader Json := fun cs =>
  let whole := cs.takeWhile Char.isDigit
  if whole.isEmpty || (whole.head? = some '0' && 1 < whole.length) then none
  else
    let (n, more) := addDigits 0 whole
    match cs.dropWhile Char.isDigit with
    | '.' :: ds =>
      let fraction := ds.takeWhile Char.isDigit
      if fraction.isEmpty then none
      else
        let (m, dropped) := addDigits n fraction
        let e : Int := (more.length + dropped.length : Nat) - (fraction.length : Int)
        scaledBy negative m e (ds.dropWhile Char.isDigit)
    | rest =>
      if more.isEmpty && !startsExponent rest then some (integer negative n, rest)
      else scaledBy negative n more.length rest

def number : Reader Json
  | '-' :: cs => unsigned true cs
  | cs => unsigned false cs

/-! ### Strings -/

/-- Reads four hexadecimal digits. -/
def unit : Reader Nat
  | a :: b :: c :: d :: cs =>
    if [a, b, c, d].all (fun c => (StringLiteral.hexValue? c).isSome) then
      some (StringLiteral.ofHex [a, b, c, d], cs)
    else none
  | _ => none

/-- Reads the character of an escape behind `\u`. Surrogates come in pairs; where `lenient`, one on
its own is let pass. -/
def unicode (lenient : Bool) : Reader Char := fun cs =>
  match unit cs with
  | none => none
  | some (n, rest) =>
    if lenient then some (Char.ofNat n, rest)
    else if StringLiteral.isTrailingSurrogate n then none
    else if StringLiteral.isLeadingSurrogate n then
      match rest with
      | '\\' :: 'u' :: rest =>
        match unit rest with
        | some (m, rest) =>
          if StringLiteral.isTrailingSurrogate m then
            some (Char.ofNat (StringLiteral.joinSurrogates n m), rest)
          else none
        | none => none
      | _ => none
    else some (Char.ofNat n, rest)

theorem length_unit {cs : List Char} {r : Nat × List Char} (h : unit cs = some r) :
    r.2.length < cs.length := by
  unfold unit at h
  split at h
  · split at h
    · cases h; simp only [List.length_cons]; omega
    · cases h
  · cases h

theorem length_unicode {lenient : Bool} {cs : List Char} {r : Char × List Char}
    (h : unicode lenient cs = some r) : r.2.length < cs.length := by
  unfold unicode at h
  split at h
  · cases h
  · rename_i n rest hu
    have hr := length_unit hu
    dsimp only at hr
    split at h
    · cases h; exact hr
    · split at h
      · cases h
      · split at h
        · split at h
          · split at h
            · rename_i hm
              have hs := length_unit hm
              dsimp only at hs
              split at h
              · rw [← Option.some.inj h]; simp only [List.length_cons] at hr ⊢; omega
              · cases h
            · cases h
          · cases h
        · cases h; exact hr

/-- What the letter behind a backslash stands for. -/
def escape? : Char → Option Char
  | '"' => some '"'
  | '\\' => some '\\'
  | '/' => some '/'
  | 'b' => some '\x08'
  | 'f' => some '\x0c'
  | 'n' => some '\n'
  | 'r' => some '\r'
  | 't' => some '\t'
  | _ => none

/-- Reads a string behind its opening quote; `read` is the text so far, last character first. -/
def stringFrom (lenient : Bool) (read : List Char) (cs : List Char) :
    Option (String × List Char) :=
  match cs with
  | [] => none
  | c :: cs =>
    if c = '"' then some (String.ofList read.reverse, cs)
    else if c = '\\' then
      match cs with
      | [] => none
      | 'u' :: ds =>
        match _h : unicode lenient ds with
        | none => none
        | some (d, rest) => stringFrom lenient (d :: read) rest
      | d :: ds =>
        match escape? d with
        | none => none
        | some x => stringFrom lenient (x :: read) ds
    else if c < ' ' then none
    else stringFrom lenient (c :: read) cs
termination_by cs.length
decreasing_by
  · have := length_unicode _h
    dsimp only [List.length_cons] at this ⊢; omega
  · simp only [List.length_cons]; omega
  · simp only [List.length_cons]; omega

/-! ### Containers -/

/-- Reads a word. -/
def word (text : String) (j : Json) : Reader Json := fun cs =>
  if text.toList.isPrefixOf cs then some (j, cs.drop text.length) else none

/-- Reads the items behind a comma or the closing bracket, as often as there are characters. -/
def itemsFrom (value : Reader Json) : Nat → List Json → Reader (List Json)
  | 0, _, _ => none
  | steps + 1, read, cs =>
    match skipBlanks cs with
    | ']' :: rest => some (read.reverse, rest)
    | ',' :: rest =>
      match value (skipBlanks rest) with
      | some (j, rest) => itemsFrom value steps (j :: read) rest
      | none => none
    | _ => none

/-- Reads an array behind its opening bracket. -/
def items (value : Reader Json) : Reader (List Json) := fun cs =>
  match skipBlanks cs with
  | ']' :: rest => some ([], rest)
  | cs =>
    match value cs with
    | some (j, rest) => itemsFrom value rest.length [j] rest
    | none => none

/-- Reads a name, a colon and a value. -/
def member {α : Type} (lenient : Bool) (value : String → Reader α) : Reader (String × α)
  | '"' :: cs =>
    match stringFrom lenient [] cs with
    | some (name, rest) =>
      match skipBlanks rest with
      | ':' :: rest => (value name (skipBlanks rest)).map fun r => ((name, r.1), r.2)
      | _ => none
    | none => none
  | _ => none

def membersFrom {α : Type} (lenient : Bool) (value : String → Reader α) :
    Nat → List (String × α) → Reader (List (String × α))
  | 0, _, _ => none
  | steps + 1, read, cs =>
    match skipBlanks cs with
    | '\x7d' :: rest => some (read.reverse, rest)
    | ',' :: rest =>
      match member lenient value (skipBlanks rest) with
      | some (m, rest) => membersFrom lenient value steps (m :: read) rest
      | none => none
    | _ => none

/-- Reads an object behind its opening brace. How a value is read depends on its name. -/
def members {α : Type} (lenient : Bool) (value : String → Reader α) :
    Reader (List (String × α)) := fun cs =>
  match skipBlanks cs with
  | '\x7d' :: rest => some ([], rest)
  | cs =>
    match member lenient value cs with
    | some (m, rest) => membersFrom lenient value rest.length [m] rest
    | none => none

/-- Reads a value in which containers nest `levels` deep at most. -/
def value : Nat → Reader Json
  | _, 'n' :: cs => word "null" null ('n' :: cs)
  | _, 't' :: cs => word "true" (bool true) ('t' :: cs)
  | _, 'f' :: cs => word "false" (bool false) ('f' :: cs)
  | _, '"' :: cs => (stringFrom false [] cs).map fun r => (string r.1, r.2)
  | 0, cs => number cs
  | levels + 1, '[' :: cs => (items (value levels) cs).map fun r => (array r.1, r.2)
  | levels + 1, '\x7b' :: cs =>
    (members false (fun _ => value levels) cs).map fun r => (object r.1, r.2)
  | _ + 1, cs => number cs

/-! ### Values that nobody reads -/

/-- Steps over digits, of which there must be one. -/
def someDigits (cs : List Char) : Option (List Char) :=
  if (cs.takeWhile Char.isDigit).isEmpty then none else some (cs.dropWhile Char.isDigit)

/-- Steps over a number, however large. -/
def skipNumber : Reader Unit := fun cs =>
  let cs := match cs with
    | '-' :: cs => cs
    | cs => cs
  let whole := cs.takeWhile Char.isDigit
  if whole.isEmpty || (whole.head? = some '0' && 1 < whole.length) then none
  else
    let afterFraction := match cs.dropWhile Char.isDigit with
      | '.' :: ds => someDigits ds
      | rest => some rest
    match afterFraction with
    | none => none
    | some (c :: rest) =>
      if c = 'e' || c = 'E' then
        let digits := match rest with
          | '+' :: ds | '-' :: ds => ds
          | ds => ds
        (someDigits digits).map fun rest => ((), rest)
      else some ((), c :: rest)
    | some [] => some ((), [])

/-- Steps over a value that nests at most `levels` deep. -/
def skip : Nat → Reader Unit
  | _, 'n' :: cs => (word "null" null ('n' :: cs)).map fun r => ((), r.2)
  | _, 't' :: cs => (word "true" null ('t' :: cs)).map fun r => ((), r.2)
  | _, 'f' :: cs => (word "false" null ('f' :: cs)).map fun r => ((), r.2)
  | _, '"' :: cs => (stringFrom true [] cs).map fun r => ((), r.2)
  | 0, cs => skipNumber cs
  | levels + 1, '[' :: cs =>
    let item : Reader Json := fun cs => (skip levels cs).map fun r => (null, r.2)
    (items item cs).map fun r => ((), r.2)
  | levels + 1, '\x7b' :: cs => (members true (fun _ => skip levels) cs).map fun r => ((), r.2)
  | _ + 1, cs => skipNumber cs

/-- How deep containers may nest. -/
def maxLevels : Nat := 127

/-- Runs a reader on a whole text, with blanks allowed at both ends. -/
def readAll {α : Type} (read : Reader α) (text : String) : Option α :=
  match read (skipBlanks text.toList) with
  | some (a, rest) => if (skipBlanks rest).isEmpty then some a else none
  | none => none

/-- The value that a text is. -/
def read? (text : String) : Option Json := readAll (value maxLevels) text

/-- The members of the object that a text is. -/
def readObject? (text : String) : Option (List (String × Json)) :=
  match read? text with
  | some (object members) => some members
  | _ => none

end Json

end GraphQL
