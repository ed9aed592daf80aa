import GraphQL.Parser.State

/-!
Members between delimiters.

One malformed member must not hide what else is wrong. Where a member fails, tokens are skipped up
to one that can start the next member, or up to the end of the group. A closing delimiter that
belongs to an outer group ends this one, which was left open.
-/

namespace GraphQL

namespace Parse

variable {α : Type}

/-- The tokens from which a group goes on behind a malformed member. `moved` holds once a token of
the member was read, `depth` counts the delimiters that were opened since. -/
def skipMember (c : Construct) (moved : Bool) (depth : Nat) : List Token → List Token
  | [] => []
  | t :: ts =>
    if depth = 0 && (t.kind.isClosing || (moved && c.startsMember t)) then t :: ts
    else
      let depth :=
        if t.kind.isOpening then depth + 1 else if t.kind.isClosing then depth - 1 else depth
      skipMember c true depth ts

/-- Skips the rest of a malformed member that began in front of the tokens `before`. -/
def recoverMember (c : Construct) (before : List Token) : Parse Unit := do
  let rest ← remaining
  continueAt (skipMember c (rest.length < before.length) 0 rest)

/-- Reports that the innermost group was left open, and leaves it. -/
def leaveUnclosed (d : Delimiter) (p : Pos) : Parse α := do
  closeDelimiter
  report ⟨p, 1, .unclosedDelimiter d⟩
  fail

/-- The members of a group up to its closing delimiter, whether one of them failed, and the closing
delimiter. -/
def members (d : Delimiter) (member : Parse α) :
    Nat → List α → Bool → Parse (List α × Bool × Token)
  | 0, _, _ => fail
  | steps + 1, read, failed => do
    if ← isAborted then do
      closeDelimiter
      fail
    else
      match ← peek with
      | none => leaveUnclosed d (← limits).endPos
      | some t =>
        if t.kind = d.construct.closing then do
          advance
          closeDelimiter
          return (read.reverse, failed, t)
        else if t.kind.isClosing then do
          if ← closesOuter t.kind then leaveUnclosed d t.start
          else
            report ⟨t.start, 1, .mismatchedDelimiter d.construct.closing.description t.text⟩
            advance
            members d member steps read failed
        else
          let before ← remaining
          match ← attempt member with
          | some a => members d member steps (a :: read) failed
          | none =>
            if ← isAborted then do
              closeDelimiter
              fail
            else
              recoverMember d.construct before
              members d member steps read true

/-- Members between delimiters, and the place of the opening one. -/
def group (c : Construct) (member : Parse α) : Parse (List α × Pos) := do
  let opening ← expect c.opening
  let d : Delimiter := ⟨c, opening.start⟩
  openDelimiter d
  let (read, failed, closing) ← members d member ((← limits).tokenCount + 1) [] false
  if read.isEmpty && !failed && !c.allowsEmpty then
    let extent := max 1 (closing.stop.offset - opening.start.offset)
    report ⟨opening.start, extent, .emptyConstruct c⟩
  return (read, opening.start)

/-- As `group`, if the next token opens the group; else there are no members. -/
def optionalGroup (c : Construct) (member : Parse α) : Parse (List α) := do
  if ← nextIs c.opening then
    let (read, _) ← group c member
    return read
  else return []

end Parse

end GraphQL
