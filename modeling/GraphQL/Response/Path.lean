import GraphQL.Json

/-!
Paths into data: the keys and list indices that lead to a value.
-/

namespace GraphQL

inductive PathSegment where
  | key (name : String)
  | index (n : Nat)
deriving DecidableEq, Repr

/-- A path, from the root down. -/
abbrev Path := List PathSegment

namespace PathSegment

def json : PathSegment → Json
  | key name => .string name
  | index n => .int n

end PathSegment

namespace Path

def json (p : Path) : Json := .array (p.map PathSegment.json)

/-- A segment behind others; `first` holds where nothing was written yet. -/
def segmentText (first : Bool) : PathSegment → String
  | .key name => if first then name else "." ++ name
  | .index n => "[" ++ toString n ++ "]"

/-- A path as text. Only the first segment goes without a point. -/
def render (p : Path) : String :=
  match p with
  | [] => ""
  | s :: ss => segmentText true s ++ String.join (ss.map (segmentText false))

/-- A path as text, with points between the texts of keys only where something stands in front. -/
def renderNonEmpty (p : Path) : String :=
  p.foldl (fun out s => out ++ segmentText out.isEmpty s) ""

end Path

end GraphQL
