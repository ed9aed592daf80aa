import GraphQL.Response.Error

/-!
Responses to requests.
-/

namespace GraphQL

/-- The errors of a request and its data. There is no data where the request failed before it was
executed; where it was executed, the data can still be null. -/
structure Response where
  errors : List ResponseError
  data : Option Json
deriving Repr

namespace Response

/-- The response to a request that was not executed. -/
def ofErrors (errors : List ResponseError) : Response := ⟨errors, none⟩

def isOk (r : Response) : Bool := r.errors.isEmpty

/-- A response as JSON, with the errors in front of the data. -/
def json (r : Response) : Json :=
  let errors :=
    if r.errors.isEmpty then [] else [("errors", Json.array (r.errors.map ResponseError.json))]
  .object (errors ++ r.data.toList.map fun d => ("data", d))

end Response

end GraphQL
