import GraphQL.Execution.Host
import GraphQL.Execution.Member

/-!
JSON values as a host: a field is the member of its name, and arguments are ignored.
-/

namespace GraphQL

namespace HostValue

/-- Integers that need more than 64 bits with a sign are floating point. -/
def ofJsonInt (n : Int) : HostScalar := if Reading.inInt64 n then .int n else .float (.ofInt n)

mutual

/-- A JSON value as an answer; objects stand for themselves. -/
def ofJson : Json → HostValue Json
  | .null => null
  | .bool b => scalar (.bool b)
  | .int n => scalar (ofJsonInt n)
  | .float x => scalar (.float x)
  | .string s => scalar (.string s)
  | .array items => list (ofJsonItems items)
  | .object members => object (.object members)

def ofJsonItems : List Json → List (HostValue Json)
  | [] => []
  | j :: js => ofJson j :: ofJsonItems js

end

end HostValue

namespace Json

/-- JSON as a host. A member that is not there is null. -/
def host : Host Json := fun j r =>
  let name := r.field.call.name
  match j with
  | .object members => .ok (((findMember? members name).map HostValue.ofJson).getD .null)
  | _ => .error ("cannot read field `" ++ name ++ "` from a non-object JSON value")

end Json

end GraphQL
