import GraphQL.Document
import GraphQL.Proofs.Document.Literal

/-!
What is written, wherever it is written.

Taking the places out of a literal leaves what counts when two literals are compared. The same is done
to all that stands at a selection itself, and to definitions of types.
-/

namespace GraphQL

namespace Literal

mutual

/-- A literal without its places: all of them are the start of the text. -/
def unplaced : Literal → Literal
  | null _ => null .start
  | var name _ => var name .start
  | scalar kind text _ => scalar kind text .start
  | list items _ => list (unplacedItems items) .start
  | object fields _ => object (unplacedFields fields) .start

def unplacedItems : List Literal → List Literal
  | [] => []
  | v :: vs => v.unplaced :: unplacedItems vs

def unplacedFields : List (Name × Literal) → List (Name × Literal)
  | [] => []
  | (n, v) :: fs => (⟨n.text, .start⟩, v.unplaced) :: unplacedFields fs

end

lemma unplacedFields_eq (fields : List (Name × Literal)) :
    unplacedFields fields = fields.map fun f => (⟨f.1.text, .start⟩, f.2.unplaced) := by
  induction fields with
  | nil => rfl
  | cons f fs ih => rw [unplacedFields, ih, List.map_cons]

mutual

/-- Literals are equivalent if nothing but their places sets them apart. -/
theorem isEquivalent_iff : ∀ v w : Literal, v.isEquivalent w = true ↔ v.unplaced = w.unplaced
  | .null _, w => by cases w <;> simp [isEquivalent, unplaced]
  | .var .., w => by cases w <;> simp [isEquivalent, unplaced]
  | .scalar .., w => by cases w <;> simp [isEquivalent, unplaced]
  | .list items _, w => by
    cases w with
    | list others _ => simp [isEquivalent, unplaced, itemsEquivalent_iff items others]
    | _ => simp [isEquivalent, unplaced]
  | .object fields _, w => by
    cases w with
    | object others _ => simp [isEquivalent, unplaced, fieldsEquivalent_iff fields others]
    | _ => simp [isEquivalent, unplaced]

lemma itemsEquivalent_iff : ∀ vs ws : List Literal,
    itemsEquivalent vs ws = true ↔ unplacedItems vs = unplacedItems ws
  | [], ws => by cases ws <;> simp [itemsEquivalent, unplacedItems]
  | v :: vs, ws => by
    cases ws with
    | nil => simp [itemsEquivalent, unplacedItems]
    | cons w ws =>
      simp [itemsEquivalent, unplacedItems, isEquivalent_iff v w, itemsEquivalent_iff vs ws]

lemma fieldsEquivalent_iff : ∀ fs gs : List (Name × Literal),
    fieldsEquivalent fs gs = true ↔ unplacedFields fs = unplacedFields gs
  | [], gs => by cases gs <;> simp [fieldsEquivalent, unplacedFields]
  | (n, v) :: fs, gs => by
    cases gs with
    | nil => simp [fieldsEquivalent, unplacedFields]
    | cons g gs =>
      simp [fieldsEquivalent, unplacedFields, isEquivalent_iff v g.2, fieldsEquivalent_iff fs gs,
        and_assoc]

end

end Literal

namespace Name

def unplaced (n : Name) : Name := ⟨n.text, .start⟩

@[simp] lemma text_unplaced (n : Name) : n.unplaced.text = n.text := rfl

end Name

namespace Argument

def unplaced (a : Argument) : Argument := ⟨a.name.unplaced, a.value.unplaced⟩

lemma find?_unplaced (args : List Argument) (name : String) :
    find? (args.map unplaced) name = (find? args name).map unplaced := by
  rw [find?, List.find?_map]
  rfl

end Argument

/-- The same arguments, in whatever order: each name stands for equivalent literals in both, or for
none in either. -/
def SameArguments (args args' : List Argument) : Prop :=
  ∀ name, Option.Rel (fun a b => a.value.isEquivalent b.value = true) (Argument.find? args name)
    (Argument.find? args' name)

lemma sameArguments_iff {args args' : List Argument} : SameArguments args args' ↔
    ∀ name, (Argument.find? args name).map (·.value.unplaced)
      = (Argument.find? args' name).map (·.value.unplaced) := by
  refine forall_congr' fun name => ?_
  cases Argument.find? args name <;> cases Argument.find? args' name <;>
    simp [Literal.isEquivalent_iff]

namespace SameArguments

variable {args args' args'' : List Argument}

lemma refl (args : List Argument) : SameArguments args args := sameArguments_iff.mpr fun _ => rfl

lemma symm (h : SameArguments args args') : SameArguments args' args :=
  sameArguments_iff.mpr fun name => (sameArguments_iff.mp h name).symm

lemma trans (h : SameArguments args args') (h' : SameArguments args' args'') :
    SameArguments args args'' :=
  sameArguments_iff.mpr fun name => (sameArguments_iff.mp h name).trans (sameArguments_iff.mp h' name)

lemma of_unplaced (h : args.map Argument.unplaced = args'.map Argument.unplaced) :
    SameArguments args args' := by
  refine sameArguments_iff.mpr fun name => ?_
  have hfind := congrArg (fun args => (Argument.find? args name).map (·.value)) h
  simpa [Argument.find?_unplaced, Function.comp_def, Argument.unplaced] using hfind

end SameArguments

namespace Directive

def unplaced (d : Directive) : Directive :=
  ⟨d.name.unplaced, d.arguments.map Argument.unplaced, .start⟩

end Directive

namespace Field

/-- A field without its places. -/
def unplaced (f : Field) : Field :=
  ⟨f.alias?.map Name.unplaced, f.name.unplaced, f.arguments.map Argument.unplaced,
    f.directives.map Directive.unplaced, .start⟩

variable {f g : Field}

lemma responseKey_unplaced (f : Field) : f.unplaced.responseKey = f.responseKey := by
  unfold responseKey unplaced
  cases f.alias? <;> rfl

lemma responseKey_eq (h : f.unplaced = g.unplaced) : f.responseKey = g.responseKey := by
  rw [← responseKey_unplaced f, h, responseKey_unplaced]

lemma name_eq (h : f.unplaced = g.unplaced) : f.name.text = g.name.text :=
  congrArg (·.name.text) h

lemma sameArguments (h : f.unplaced = g.unplaced) : SameArguments f.arguments g.arguments :=
  .of_unplaced (congrArg Field.arguments h)

end Field

namespace FragmentSpread

def unplaced (s : FragmentSpread) : FragmentSpread :=
  ⟨s.name.unplaced, s.directives.map Directive.unplaced, .start⟩

end FragmentSpread

namespace InlineFragment

def unplaced (i : InlineFragment) : InlineFragment :=
  ⟨i.typeCondition.map Name.unplaced, i.directives.map Directive.unplaced, .start⟩

end InlineFragment

/-! ### Definitions of types -/

def TypeRef.unplaced : TypeRef → TypeRef
  | .named n => .named n.unplaced
  | .list t _ => .list t.unplaced .start
  | .nonNull t _ => .nonNull t.unplaced .start

lemma TypeRef.innermost_unplaced (t : TypeRef) : t.unplaced.innermost.text = t.innermost.text := by
  induction t with
  | named n => rfl
  | list t p ih | nonNull t p ih => exact ih

def InputDefinition.unplaced (d : InputDefinition) : InputDefinition :=
  ⟨d.description, d.name.unplaced, d.type.unplaced, d.default?.map Literal.unplaced,
    d.directives.map Directive.unplaced, .start⟩

def FieldDefinition.unplaced (d : FieldDefinition) : FieldDefinition :=
  ⟨d.description, d.name.unplaced, d.arguments.map InputDefinition.unplaced, d.type.unplaced,
    d.directives.map Directive.unplaced, .start⟩

def EnumValueDefinition.unplaced (d : EnumValueDefinition) : EnumValueDefinition :=
  ⟨d.description, d.name.unplaced, d.directives.map Directive.unplaced, .start⟩

def TypeBody.unplaced : TypeBody → TypeBody
  | .scalar => .scalar
  | .object fields => .object (fields.map FieldDefinition.unplaced)
  | .enum values => .enum (values.map EnumValueDefinition.unplaced)
  | .input fields => .input (fields.map InputDefinition.unplaced)

/-- The definition of a type without its places. -/
def TypeDefinition.unplaced (d : TypeDefinition) : TypeDefinition :=
  ⟨d.description, d.name.unplaced, d.directives.map Directive.unplaced, d.body.unplaced, .start⟩

end GraphQL
