import GraphQL.Parser.Error

/-!
Showing an error to a reader: on one line, or with the line of the source that it is about and a
mark under the place.
-/

namespace GraphQL

namespace Diagnostic

/-- The lines of a text as a listing shows them: a line feed ends a line, and so does a carriage
return with a line feed behind it. -/
def listing (line : List Char) : List Char → List (List Char)
  | [] => if line.isEmpty then [] else [line.reverse]
  | '\r' :: '\n' :: cs => line.reverse :: listing [] cs
  | '\n' :: cs => line.reverse :: listing [] cs
  | c :: cs => listing (c :: line) cs

/-- The text from a byte offset on, if a character begins there or the text ends there. -/
def fromOffset? : Nat → List Char → Option (List Char)
  | 0, cs => some cs
  | _ + 1, [] => none
  | n + 1, c :: cs => if c.utf8Size ≤ n + 1 then fromOffset? (n + 1 - c.utf8Size) cs else none

/-- How many characters begin within the first `bytes` bytes of a text, up to the end of its
line. -/
def charactersWithin : Nat → List Char → Nat
  | _, [] => 0
  | bytes, c :: cs =>
    if bytes = 0 || c = '\n' || c = '\r' then 0
    else 1 + charactersWithin (bytes - c.utf8Size) cs

def padLeft (width : Nat) (text : String) : String :=
  String.ofList (List.replicate (width - text.length) ' ') ++ text

/-- The line around a place, with `count` marks from the place on. -/
def snippet (source : List Char) (p : Pos) (mark : Char) (count : Nat) : String :=
  let place := p.lineColumn source
  match (listing [] source)[place.line - 1]? with
  | none => ""
  | some line =>
    let number := toString place.line
    let width := max number.length 2
    let margin := padLeft width "" ++ " |"
    margin ++ "\n"
      ++ padLeft width number ++ " | " ++ String.ofList line ++ "\n"
      ++ margin ++ " " ++ padLeft (place.column - 1) ""
      ++ String.ofList (List.replicate count mark) ++ "\n"

def showFile (file : Option String) : String := file.getD "<input>"

end Diagnostic

namespace NoteKind

def label : NoteKind → String
  | general => "note"
  | help => "help"

end NoteKind

namespace ParseError

open Diagnostic

/-- The error on one line, with its place in front. -/
def oneLine (e : ParseError) (source : List Char) (file : Option String) : String :=
  showFile file ++ ":" ++ (e.pos.lineColumn source).render ++ ": error: " ++ e.message

/-- How many marks stand under the text that the error is about. -/
def markCount (e : ParseError) (source : List Char) : Nat :=
  match fromOffset? e.pos.offset source with
  | none => 1
  | some rest => max 1 (charactersWithin e.extent rest)

def noteLines (source : List Char) (n : Note) : String :=
  "   = " ++ n.kind.label ++ ": " ++ n.message ++ "\n"
    ++ (match n.pos with
        | none => ""
        | some p => snippet source p '-' 1)

/-- The error with the lines of the source that it is about. -/
def detailed (e : ParseError) (source : List Char) (file : Option String) : String :=
  "error: " ++ e.message ++ "\n"
    ++ "  --> " ++ showFile file ++ ":" ++ (e.pos.lineColumn source).render ++ "\n"
    ++ snippet source e.pos '^' (e.markCount source)
    ++ String.join (e.notes.map (noteLines source))

end ParseError

end GraphQL
