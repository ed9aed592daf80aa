import GraphQL.Document
import GraphQL.Parser.Error

/-!
The grammar of documents.

A production says which things can be derived from the front of some tokens, and which tokens are
left behind them. There is no state, no error and no limit here: a rule names its parts in the
order in which they are written, and what it makes of them.
-/

namespace GraphQL

namespace Grammar

/-- From the front of the first tokens an `α` is derived, the second tokens are left. -/
abbrev Production (α : Type) := List Token → α → List Token → Prop

section

variable {α : Type}

/-! ### Tokens -/

inductive IsToken (k : TokenKind) : Production Token where
  | mk {t : Token} (kind : t.kind = k) : IsToken k (t :: rest) t rest

inductive IsKeyword (word : String) : Production Token where
  | mk {t : Token} (kind : t.kind = .name) (text : t.text = word) : IsKeyword word (t :: rest) t rest

/-- Keywords are names too. -/
inductive IsName : Production Name where
  | mk {t : Token} (kind : t.kind = .name) : IsName (t :: rest) ⟨t.text, t.start⟩ rest

/-- A string stands for the text that it denotes. -/
inductive IsString : Production String where
  | mk {t : Token} {text : String} (kind : t.kind.isString = true)
      (cooks : StringLiteral.cook t.text = .ok text) : IsString (t :: rest) text rest

/-! ### Repetition and grouping -/

inductive Optional (P : Production α) : Production (Option α) where
  | absent : Optional P ts none ts
  | present {a : α} (here : P ts a rest) : Optional P ts (some a) rest

inductive Many (P : Production α) : Production (List α) where
  | nil : Many P ts [] ts
  | cons {a : α} {as : List α} (head : P ts a mid) (tail : Many P mid as rest) :
      Many P ts (a :: as) rest

/-- Members between delimiters, and the place of the opening one. -/
inductive Group (c : Construct) (P : Production α) : Production (List α × Pos) where
  | mk {opening closing : Token} {as : List α} (opens : opening.kind = c.opening)
      (members : Many P ts as (closing :: rest)) (closes : closing.kind = c.closing)
      (nonempty : as = [] → c.allowsEmpty = true) :
      Group c P (opening :: ts) (as, opening.start) rest

inductive OptionalGroup (c : Construct) (P : Production α) : Production (List α) where
  | absent : OptionalGroup c P ts [] ts
  | present {as : List α} {p : Pos} (here : Group c P ts (as, p) rest) : OptionalGroup c P ts as rest

/-- The members of a type. They may be left out only where the next token does not open them: behind
`type A` braces hold fields, and not the selections of a query. -/
inductive Body (c : Construct) (P : Production α) : Production (List α) where
  | absent (next : ∀ t ∈ ts.head?, t.kind ≠ c.opening) : Body c P ts [] ts
  | present {as : List α} {p : Pos} (here : Group c P ts (as, p) rest) : Body c P ts as rest

/-- A name, a colon and what is named. -/
inductive Named (P : Production α) : Production (Name × α) where
  | mk {name : Name} {a : α} {colon : Token} {ts₁ ts₂ : List Token} (names : IsName ts name ts₁)
      (separates : IsToken .colon ts₁ colon ts₂) (here : P ts₂ a rest) : Named P ts (name, a) rest

end

/-! ### Values, types and directives -/

/-- In a constant value no part is a variable. -/
inductive IsValue (isConstant : Bool) : Production Literal where
  | var {dollar : Token} {name : Name} (free : isConstant = false)
      (marks : IsToken .dollar ts dollar ts₁) (names : IsName ts₁ name rest) :
      IsValue isConstant ts (.var name.text dollar.start) rest
  | int (here : IsToken .int ts t rest) : IsValue isConstant ts (.scalar .int t.text t.start) rest
  | float (here : IsToken .float ts t rest) :
      IsValue isConstant ts (.scalar .float t.text t.start) rest
  | string {text : String} (here : IsString (t :: ts) text rest) :
      IsValue isConstant (t :: ts) (.scalar .string text t.start) rest
  | null (here : IsKeyword "null" ts t rest) : IsValue isConstant ts (.null t.start) rest
  | boolean {text : String} (here : IsKeyword text ts t rest)
      (isBoolean : text = "true" ∨ text = "false") :
      IsValue isConstant ts (.scalar .boolean text t.start) rest
  | enum {name : Name} (here : IsName ts name rest)
      (isOther : name.text ≠ "null" ∧ name.text ≠ "true" ∧ name.text ≠ "false") :
      IsValue isConstant ts (.scalar .enum name.text name.pos) rest
  | list {items : List Literal} {p : Pos}
      (here : Group .listValue (IsValue isConstant) ts (items, p) rest) :
      IsValue isConstant ts (.list items p) rest
  | object {fields : List (Name × Literal)} {p : Pos}
      (here : Group .objectValue (Named (IsValue isConstant)) ts (fields, p) rest) :
      IsValue isConstant ts (.object fields p) rest

inductive IsType : Production TypeRef where
  | named {name : Name} (here : IsName ts name rest) : IsType ts (.named name) rest
  | list {opening closing : Token} {e : TypeRef} (opens : IsToken .bracketOpen ts opening ts₁)
      (element : IsType ts₁ e ts₂) (closes : IsToken .bracketClose ts₂ closing rest) :
      IsType ts (.list e opening.start) rest
  | nonNull {e : TypeRef} (here : IsType ts e ts₁) (once : e.isNonNull = false)
      (marks : IsToken .bang ts₁ t rest) : IsType ts (.nonNull e e.pos) rest

inductive IsArgument (isConstant : Bool) : Production Argument where
  | mk {name : Name} {v : Literal} (here : Named (IsValue isConstant) ts (name, v) rest) :
      IsArgument isConstant ts ⟨name, v⟩ rest

inductive IsDirective (isConstant : Bool) : Production Directive where
  | mk {mark : Token} {name : Name} {args : List Argument} (marks : IsToken .atSign ts mark ts₁)
      (names : IsName ts₁ name ts₂)
      (arguments : OptionalGroup .directiveArguments (IsArgument isConstant) ts₂ args rest) :
      IsDirective isConstant ts ⟨name, args, mark.start⟩ rest

def IsDirectives (isConstant : Bool) : Production (List Directive) := Many (IsDirective isConstant)

/-! ### Selections -/

/-- The name of a field, and the alias in front of it. -/
inductive IsAliased : Production (Option Name × Name) where
  | plain {name : Name} (names : IsName ts name rest) : IsAliased ts (none, name) rest
  | aliased {first name : Name} (here : Named IsName ts (first, name) rest) :
      IsAliased ts (some first, name) rest

/-- A field without the selections below it. -/
inductive IsField : Production Field where
  | mk {alias? : Option Name} {name : Name} {args : List Argument} {dirs : List Directive}
      (names : IsAliased (t :: ts) (alias?, name) ts₁)
      (arguments : OptionalGroup .fieldArguments (IsArgument false) ts₁ args ts₂)
      (directives : IsDirectives false ts₂ dirs rest) :
      IsField (t :: ts) ⟨alias?, name, args, dirs, t.start⟩ rest

/-- The type that an inline fragment is restricted to. -/
inductive IsCondition : Production Name where
  | mk {name : Name} (keyword : IsKeyword "on" ts t ts₁) (names : IsName ts₁ name rest) :
      IsCondition ts name rest

/-- Three points in front of a name use a fragment, unless the name is `on`. -/
inductive IsSelection : Production Selection where
  | leaf {f : Field} (here : IsField ts f rest) : IsSelection ts (.field f none) rest
  | field {f : Field} {selections : List Selection} {p : Pos} (here : IsField ts f ts₁)
      (below : Group .selectionSet IsSelection ts₁ (selections, p) rest) :
      IsSelection ts (.field f (some (.mk selections p))) rest
  | spread {points : Token} {name : Name} {dirs : List Directive}
      (marks : IsToken .ellipsis ts points ts₁) (names : IsName ts₁ name ts₂)
      (isOther : name.text ≠ "on") (directives : IsDirectives false ts₂ dirs rest) :
      IsSelection ts (.spread ⟨name, dirs, points.start⟩) rest
  | inline {points : Token} {condition : Option Name} {dirs : List Directive}
      {selections : List Selection} {p : Pos} (marks : IsToken .ellipsis ts points ts₁)
      (restricts : Optional IsCondition ts₁ condition ts₂)
      (directives : IsDirectives false ts₂ dirs ts₃)
      (below : Group .selectionSet IsSelection ts₃ (selections, p) rest) :
      IsSelection ts (.inline ⟨condition, dirs, points.start⟩ (.mk selections p)) rest

inductive IsSelectionSet : Production SelectionSet where
  | mk {selections : List Selection} {p : Pos}
      (here : Group .selectionSet IsSelection ts (selections, p) rest) :
      IsSelectionSet ts (.mk selections p) rest

/-! ### Operations and fragments -/

/-- A default is constant. -/
inductive IsDefault : Production Literal where
  | mk {v : Literal} (marks : IsToken .equals ts t ts₁) (here : IsValue true ts₁ v rest) :
      IsDefault ts v rest

inductive IsVariableDefinition : Production VariableDefinition where
  | mk {dollar : Token} {name : Name} {type : TypeRef} {default? : Option Literal}
      {dirs : List Directive} (marks : IsToken .dollar ts dollar ts₁) (names : IsName ts₁ name ts₂)
      (separates : IsToken .colon ts₂ t ts₃) (types : IsType ts₃ type ts₄)
      (defaults : Optional IsDefault ts₄ default? ts₅) (directives : IsDirectives true ts₅ dirs rest) :
      IsVariableDefinition ts ⟨name, type, default?, dirs, dollar.start⟩ rest

inductive IsOperation : Production OperationDefinition where
  | shorthand {below : SelectionSet} (here : IsSelectionSet ts below rest) :
      IsOperation ts ⟨.query, none, [], [], below, true, below.pos⟩ rest
  | full {type : OperationType} {name : Option Name} {declared : List VariableDefinition}
      {dirs : List Directive} {below : SelectionSet} {keyword : Token}
      (starts : IsKeyword type.keyword ts keyword ts₁) (names : Optional IsName ts₁ name ts₂)
      (declares : OptionalGroup .variableDefinitions IsVariableDefinition ts₂ declared ts₃)
      (directives : IsDirectives false ts₃ dirs ts₄) (selects : IsSelectionSet ts₄ below rest) :
      IsOperation ts ⟨type, name, declared, dirs, below, false, keyword.start⟩ rest

inductive IsFragment : Production FragmentDefinition where
  | mk {name condition : Name} {dirs : List Directive} {below : SelectionSet} {keyword : Token}
      (starts : IsKeyword "fragment" ts keyword ts₁) (names : IsName ts₁ name ts₂)
      (isOther : name.text ≠ "on") (restricts : IsCondition ts₂ condition ts₃)
      (directives : IsDirectives false ts₃ dirs ts₄) (selects : IsSelectionSet ts₄ below rest) :
      IsFragment ts ⟨name, condition, dirs, below, keyword.start⟩ rest

/-! ### Type definitions -/

/-- A definition stands at its description, if it has one, else at what follows. -/
inductive IsInputDefinition : Production InputDefinition where
  | mk {desc : Option String} {name : Name} {colon : Token} {type : TypeRef}
      {default? : Option Literal} {dirs : List Directive}
      (describes : Optional IsString (t :: ts) desc ts₁) (names : IsName ts₁ name ts₂)
      (separates : IsToken .colon ts₂ colon ts₃) (types : IsType ts₃ type ts₄)
      (defaults : Optional IsDefault ts₄ default? ts₅) (directives : IsDirectives true ts₅ dirs rest) :
      IsInputDefinition (t :: ts) ⟨desc, name, type, default?, dirs, t.start⟩ rest

inductive IsFieldDefinition : Production FieldDefinition where
  | mk {desc : Option String} {name : Name} {args : List InputDefinition} {colon : Token}
      {type : TypeRef} {dirs : List Directive}
      (describes : Optional IsString (t :: ts) desc ts₁) (names : IsName ts₁ name ts₂)
      (declares : OptionalGroup .argumentDefinitions IsInputDefinition ts₂ args ts₃)
      (separates : IsToken .colon ts₃ colon ts₄) (types : IsType ts₄ type ts₅)
      (directives : IsDirectives true ts₅ dirs rest) :
      IsFieldDefinition (t :: ts) ⟨desc, name, args, type, dirs, t.start⟩ rest

inductive IsEnumValue : Production EnumValueDefinition where
  | mk {desc : Option String} {name : Name} {dirs : List Directive}
      (describes : Optional IsString (t :: ts) desc ts₁) (names : IsName ts₁ name ts₂)
      (isOther : name.text ≠ "true" ∧ name.text ≠ "false" ∧ name.text ≠ "null")
      (directives : IsDirectives true ts₂ dirs rest) :
      IsEnumValue (t :: ts) ⟨desc, name, dirs, t.start⟩ rest

/-- What stands behind the name and the directives of a type. -/
inductive IsTypeBody : Production TypeBody where
  | scalar : IsTypeBody ts .scalar ts
  | object {fields : List FieldDefinition}
      (here : Body .fieldsDefinition IsFieldDefinition ts fields rest) :
      IsTypeBody ts (.object fields) rest
  | enum {values : List EnumValueDefinition} (here : Body .enumValues IsEnumValue ts values rest) :
      IsTypeBody ts (.enum values) rest
  | input {fields : List InputDefinition}
      (here : Body .inputFields IsInputDefinition ts fields rest) : IsTypeBody ts (.input fields) rest

inductive IsTypeDefinition : Production TypeDefinition where
  | mk {desc : Option String} {word : Token} {name : Name} {dirs : List Directive} {body : TypeBody}
      (describes : Optional IsString (t :: ts) desc ts₁) (starts : IsKeyword body.keyword ts₁ word ts₂)
      (names : IsName ts₂ name ts₃) (directives : IsDirectives true ts₃ dirs ts₄)
      (holds : IsTypeBody ts₄ body rest) :
      IsTypeDefinition (t :: ts) ⟨desc, name, dirs, body, t.start⟩ rest

/-! ### Documents -/

inductive IsDefinition : Production Definition where
  | operation {d : OperationDefinition} (here : IsOperation ts d rest) :
      IsDefinition ts (.operation d) rest
  | fragment {d : FragmentDefinition} (here : IsFragment ts d rest) :
      IsDefinition ts (.fragment d) rest
  | type {d : TypeDefinition} (here : IsTypeDefinition ts d rest) : IsDefinition ts (.type d) rest

/-- A document is definitions up to the end of the tokens. -/
def IsDocument (tokens : List Token) (d : Document) : Prop := Many IsDefinition tokens d.definitions []

end Grammar

end GraphQL
