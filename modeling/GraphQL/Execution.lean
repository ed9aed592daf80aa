import GraphQL.Execution.Completion
import GraphQL.Execution.Introspection
import GraphQL.Execution.Prepared

/-!
Executing prepared operations.
-/

namespace GraphQL

namespace PreparedOperation

variable {ρ : Type}

/-- The data of an operation, if null did not reach the root, and the errors of its fields. -/
def execute (p : PreparedOperation) (host : Host ρ) (root : ρ) (isCancelled : Bool) :
    Outcome Value :=
  let c : ExecutionContext (ExecutionObject ρ) := ⟨p.schema, host.withIntrospection, isCancelled⟩
  (c.executeFields p.root [] (.host root) p.fields).map (.object p.root)

end PreparedOperation

namespace Outcome

/-- The data of a response. -/
def json (s : Schema) (o : Outcome Value) : Json :=
  match o.value? with
  | some v => v.toJson s
  | none => .null

end Outcome

end GraphQL
