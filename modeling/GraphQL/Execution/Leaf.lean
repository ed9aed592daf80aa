import GraphQL.Execution.Host
import GraphQL.Number.Reading
import GraphQL.Text.Blank

/-!
Leaves of a host as values of a schema's leaf types.

A type takes what it can represent without loss, and texts that denote such a value, with white space
around them or not. Types that the schema declares take everything.
-/

namespace GraphQL

namespace HostScalar

/-- The text of an integer of 32 bits. -/
def int32Text (n : Int) : Option String := if Reading.inInt32 n then some (toString n) else none

def floatText (x : Binary64) : Option String :=
  if x.isFinite then some (Layout.plain.render x) else none

def toInt : HostScalar → Option String
  | bool b => some (if b then "1" else "0")
  | int n => int32Text n
  | float x => x.toInt?.bind int32Text
  | string s => (Reading.int32? (Blank.trim s)).map fun n => toString n

def toFloat : HostScalar → Option String
  | bool b => some (if b then "1" else "0")
  | int n => floatText (.ofInt n)
  | float x => floatText x
  | string s => (Reading.float? (Blank.trim s)).bind floatText

def toBoolean : HostScalar → Option String
  | bool b => some (ofBool b)
  | int n => some (ofBool (n ≠ 0))
  | _ => none

def toId : HostScalar → Option String
  | string s => some s
  | int n => some (toString n)
  | _ => none

/-- The text of any leaf. -/
def toText : HostScalar → String
  | bool b => ofBool b
  | int n => toString n
  | float x => Layout.plain.render x
  | string s => s

/-- The canonical text of a leaf as a value of a scalar type. -/
def toScalar (v : HostScalar) : Option BuiltinScalar → Option String
  | some .int => v.toInt
  | some .float => v.toFloat
  | some .boolean => v.toBoolean
  | some .id => v.toId
  | some .string | none => some v.toText

/-- The enum value that a leaf names. -/
def toEnum (v : HostScalar) (values : List EnumValueSpec) : Option String :=
  match v with
  | string s => if values.any fun e => e.name == s then some s else none
  | _ => none

/-- The canonical text of a leaf as a value of a leaf type. -/
def toLeaf (s : Schema) (t : TypeId) (v : HostScalar) : Option String :=
  match (s.named? t).bind (·.enumValues?) with
  | some values => v.toEnum values
  | none => v.toScalar (s.builtin? t)

end HostScalar

end GraphQL
