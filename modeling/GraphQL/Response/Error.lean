import GraphQL.Response.Path
import GraphQL.Text.Position

/-!
Errors of a request, as a response lists them.
-/

namespace GraphQL

/-- What went wrong, the places in the request that it is about, and the value that it concerns. -/
structure ResponseError where
  message : String
  locations : List LineColumn
  path : Option Path
deriving DecidableEq, Repr

namespace ResponseError

/-- An error that concerns the request as a whole. -/
def ofMessage (message : String) : ResponseError := ⟨message, [], none⟩

/-- An error on one line: the message, the first place, and the path. -/
def render (e : ResponseError) : String :=
  let place :=
    match e.locations with
    | p :: _ => " (" ++ p.render ++ ")"
    | [] => ""
  let path :=
    match e.path with
    | some p => " at `" ++ p.render ++ "`"
    | none => ""
  e.message ++ place ++ path

end ResponseError

namespace LineColumn

def json (p : LineColumn) : Json := .object [("line", .int p.line), ("column", .int p.column)]

end LineColumn

namespace ResponseError

/-- Places and a path are listed only where there are any. -/
def json (e : ResponseError) : Json :=
  let locations :=
    if e.locations.isEmpty then [] else [("locations", Json.array (e.locations.map LineColumn.json))]
  let path := e.path.toList.map fun p => ("path", Path.json p)
  .object (("message", .string e.message) :: (locations ++ path))

end ResponseError

end GraphQL
