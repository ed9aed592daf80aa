import GraphQL.Execution
import GraphQL.Json.Literal
import GraphQL.Json.Reader
import GraphQL.Parser
import GraphQL.Response
import GraphQL.Validation

/-!
Requests: a document, the name of the operation to execute, and values for its variables.

`Request.read?` reads a request that is written in JSON: an object with the members `query`,
`operationName` and `variables`, or an array of these in this order. Only `query` is required.
`Request.execute` does all that a request asks for.
-/

namespace GraphQL

structure Request where
  query : String
  operationName : Option String
  variableValues : Option (List (String × Literal))
deriving Repr

namespace Request

/-- A request with a query alone. -/
def ofQuery (query : String) : Request := ⟨query, none, none⟩

/-! ### Reading -/

def optionalText : Option Json → Option (Option String)
  | none | some .null => some none
  | some (.string s) => some (some s)
  | some _ => none

/-- Of several values for one variable the last counts. -/
def optionalVariables : Option Json → Option (Option (List (String × Literal)))
  | none | some .null => some none
  | some (.object ms) => some (some ((distinctMembers ms).map fun m => (m.1, Literal.ofJson m.2)))
  | some _ => none

def ofParts (query operationName values : Option Json) : Option Request :=
  match query, optionalText operationName, optionalVariables values with
  | some (.string q), some n, some vs => some ⟨q, n, vs⟩
  | _, _, _ => none

def memberNames : List String := ["query", "operationName", "variables"]

/-- Reads the value of a member that a request has, and steps over any other. -/
def memberValue (name : String) : Json.Reader (Option Json) := fun cs =>
  if memberNames.contains name then
    (Json.value (Json.maxLevels - 1) cs).map fun (j, rest) => (some j, rest)
  else (Json.skip cs.length cs).map fun (_, rest) => (none, rest)

/-- The only member of a name; `none` if there are more. -/
def onlyMember (ms : List (String × Option Json)) (name : String) : Option (Option Json) :=
  match ms.filter fun m => m.1 == name with
  | [] => some none
  | [m] => some m.2
  | _ => none

def ofMembers (ms : List (String × Option Json)) : Option Request :=
  match onlyMember ms "query", onlyMember ms "operationName", onlyMember ms "variables" with
  | some q, some n, some vs => ofParts q n vs
  | _, _, _ => none

def ofItems : List Json → Option Request
  | [q] => ofParts (some q) none none
  | [q, n] => ofParts (some q) (some n) none
  | [q, n, vs] => ofParts (some q) (some n) (some vs)
  | _ => none

def reader : Json.Reader Request
  | '\x7b' :: cs =>
    (Json.members false memberValue cs).bind fun (ms, rest) =>
      (ofMembers ms).map fun r => (r, rest)
  | '[' :: cs =>
    (Json.items (Json.value (Json.maxLevels - 1)) cs).bind fun (js, rest) =>
      (ofItems js).map fun r => (r, rest)
  | _ => none

/-- The request that a text is. -/
def read? (text : String) : Option Request := Json.readAll reader text

/-! ### Executing -/

/-- Reads and checks the document of a request and makes its operation ready. -/
def prepare (r : Request) (s : Schema) : Except (List ResponseError) PreparedOperation :=
  let source := r.query.toList
  let parsed := Document.parse source
  match parsed.errors, parsed.document? with
  | [], some d =>
    match s.validate d source with
    | [] => s.prepare d source r.operationName (r.variableValues.getD [])
    | es => .error (es.map (·.toResponseError))
  | es, _ => .error (es.map fun e => ⟨e.message, [e.pos.lineColumn source], none⟩)

variable {ρ : Type}

/-- Executes a request on a host, with the root objects of operations at `root`. -/
def execute (r : Request) (s : Schema) (host : Host ρ) (root : ρ) (isCancelled : Bool) : Response :=
  match r.prepare s with
  | .error es => .ofErrors es
  | .ok p =>
    let outcome := p.execute host root isCancelled
    ⟨outcome.errors, some (outcome.json s)⟩

end Request

end GraphQL
