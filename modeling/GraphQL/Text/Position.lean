/-!
Places in a source text.

Tokens, nodes and errors hold a place as a byte offset; line and column are worked out only when
somebody has to read them. A line feed, a carriage return and the two together each end a line,
and columns count characters.
-/

namespace GraphQL

/-- A byte offset into the UTF-8 form of a text. -/
structure Pos where
  offset : Nat
deriving DecidableEq, Hashable, Repr, Inhabited

namespace Pos

/-- Offsets are words of 32 bits. -/
def maxOffset : Nat := 4294967295

/-- The place `n` bytes into a text, or the last place there is. -/
def ofOffset (n : Nat) : Pos := ⟨min n maxOffset⟩

/-- The start of a text, where everything stands that was not read from one. -/
def start : Pos := ⟨0⟩

def render (p : Pos) : String := "@" ++ toString p.offset

@[simp] theorem offset_ofOffset (n : Nat) : (ofOffset n).offset = min n maxOffset := rfl

end Pos

/-- The number of bytes of a text in UTF-8. -/
def byteLength (cs : List Char) : Nat := cs.foldl (fun n c => n + c.utf8Size) 0

theorem foldl_utf8Size (cs : List Char) (n : Nat) :
    cs.foldl (fun n c => n + c.utf8Size) n = n + byteLength cs := by
  induction cs generalizing n with
  | nil => rfl
  | cons c cs ih => simp only [byteLength, List.foldl_cons]; rw [ih, ih (0 + _)]; omega

@[simp] theorem byteLength_nil : byteLength [] = 0 := rfl

@[simp] theorem byteLength_cons (c : Char) (cs : List Char) :
    byteLength (c :: cs) = c.utf8Size + byteLength cs := by
  rw [byteLength, List.foldl_cons, foldl_utf8Size, Nat.zero_add]

@[simp] theorem byteLength_append (s t : List Char) :
    byteLength (s ++ t) = byteLength s + byteLength t := by
  induction s with
  | nil => simp
  | cons c s ih => simp [ih, Nat.add_assoc]

/-- A line and a column, both counted from one. -/
structure LineColumn where
  line : Nat
  column : Nat
deriving DecidableEq, Repr, Inhabited

namespace LineColumn

def render (p : LineColumn) : String := toString p.line ++ ":" ++ toString p.column

end LineColumn

/-- The place reached while reading a text from its start. -/
structure ReadingPoint where
  line : Nat
  column : Nat
  /-- The last character read was a carriage return, so a line feed belongs to its line end. -/
  afterReturn : Bool
deriving DecidableEq, Repr

namespace ReadingPoint

def start : ReadingPoint := ⟨1, 1, false⟩

def advance (p : ReadingPoint) (c : Char) : ReadingPoint :=
  if c = '\n' then
    if p.afterReturn then ⟨p.line, p.column, false⟩ else ⟨p.line + 1, 1, false⟩
  else if c = '\r' then ⟨p.line + 1, 1, true⟩
  else ⟨p.line, p.column + 1, false⟩

end ReadingPoint

namespace Pos

/-- Reads the characters that begin before `target`; `here` is where the next one begins. -/
def readUpTo (target : Nat) : Nat → ReadingPoint → List Char → ReadingPoint
  | _, p, [] => p
  | here, p, c :: cs =>
    if here < target then readUpTo target (here + c.utf8Size) (p.advance c) cs else p

/-- Line and column of a place. A place past the end is the end of the text, and a place within a
character is the place behind that character. -/
def lineColumn (p : Pos) (source : List Char) : LineColumn :=
  let q := readUpTo p.offset 0 .start source
  ⟨q.line, q.column⟩

end Pos

end GraphQL
