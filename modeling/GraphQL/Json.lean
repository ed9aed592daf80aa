import GraphQL.Number.Layout
import GraphQL.Text.StringLiteral

/-!
JSON values and their compact text.

Members of an object keep their order. An object that was read may repeat a name; `Json.distinct`
leaves the last value of each name in the place of the first one.
-/

namespace GraphQL

inductive Json where
  | null
  | bool (b : Bool)
  | int (n : Int)
  | float (x : Binary64)
  | string (s : String)
  | array (items : List Json)
  | object (members : List (String × Json))
deriving Repr, Inhabited

/-- Puts a value under a name: in the place of the value that is there, or at the end. -/
def putMember {α : Type} (members : List (String × α)) (name : String) (value : α) :
    List (String × α) :=
  match members with
  | [] => [(name, value)]
  | (n, v) :: ms => if n == name then (n, value) :: ms else (n, v) :: putMember ms name value

/-- Keeps the last value of each name, in the place of the first one. -/
def distinctMembers {α : Type} (members : List (String × α)) : List (String × α) :=
  members.foldl (fun ms m => putMember ms m.1 m.2) []

namespace Json

mutual

/-- Leaves one value under each name, in all objects. -/
def distinct : Json → Json
  | array items => array (distinctItems items)
  | object members => object (distinctMembers (distinctValues members))
  | j => j

def distinctItems : List Json → List Json
  | [] => []
  | j :: js => j.distinct :: distinctItems js

def distinctValues : List (String × Json) → List (String × Json)
  | [] => []
  | (n, j) :: ms => (n, j.distinct) :: distinctValues ms

end

def escapeChar (c : Char) : List Char :=
  match c with
  | '"' => ['\\', '"']
  | '\\' => ['\\', '\\']
  | '\n' => ['\\', 'n']
  | '\r' => ['\\', 'r']
  | '\t' => ['\\', 't']
  | '\x08' => ['\\', 'b']
  | '\x0c' => ['\\', 'f']
  | c => if c < ' ' then '\\' :: 'u' :: StringLiteral.hex false 4 c.toNat else [c]

def renderString (s : String) : String :=
  String.ofList ('"' :: (s.toList.flatMap escapeChar ++ ['"']))

/-- A number as text; there is none for infinities. -/
def renderFloat (x : Binary64) : String := if x.isFinite then Layout.json.render x else "null"

mutual

/-- The text of a value, without blanks. -/
def render : Json → String
  | null => "null"
  | bool b => if b then "true" else "false"
  | int n => toString n
  | float x => renderFloat x
  | string s => renderString s
  | array items => "[" ++ String.intercalate "," (renderItems items) ++ "]"
  | object members => "\x7b" ++ String.intercalate "," (renderMembers members) ++ "\x7d"

def renderItems : List Json → List String
  | [] => []
  | j :: js => j.render :: renderItems js

def renderMembers : List (String × Json) → List String
  | [] => []
  | (n, j) :: ms => (renderString n ++ ":" ++ j.render) :: renderMembers ms

end

end Json

end GraphQL
